import WaveSequencer.Proofs.Synthesis.Repetition

/-!
Sampling two channels together. The shorter cycle is padded with zeros before it repeats, so that
the zeros come back in every cycle. Main statement: every sample of each channel, how many there
are, and that the channel with the longer cycle is sampled as if it were alone.
-/
namespace WaveSequencer
open Numeric

theorem Samples.getElem?_padded_of_lt {n k : ℕ} {samples : List Int16} (h : k < samples.length) :
    (padded n samples)[k]? = samples[k]? := List.getElem?_append_left h

theorem Samples.getElem?_padded_of_ge {n k : ℕ} {samples : List Int16} (beyond : samples.length ≤ k)
    (h : k < n) : (padded n samples)[k]? = some 0 := by
  rw [padded, List.getElem?_append_right beyond]
  exact List.getElem?_replicate_of_lt (by omega)

namespace ChannelWave
variable (c : ChannelWave) (rate : Float) (d : Bool)

/-- Samples of one cycle. There are none if the cycle is too long for the hardware. -/
def cycleSize : ℕ := (c.cycleLength? rate).getD 0

/-- The samples of a channel beside another one, where the longer of their cycles has `size`
samples. -/
structure PadsTo (size : ℕ) (samples : List Int16) : Prop where
  cycle : ((c.cycleAt rate).value d).length = c.cycleSize rate
  length : samples.length =
    if size * c.cycles.toNat ≤ Limits.samplesPerStep then size * c.cycles.toNat else 0
  inside : ∀ k < samples.length, k % size < c.cycleSize rate →
    samples[k]? = ((c.cycleAt rate).value d)[k % size]?
  beyond : ∀ k < samples.length, c.cycleSize rate ≤ k % size → samples[k]? = some 0
  alone : c.cycleSize rate = size → samples = (c.synthesize rate).value d

theorem padsTo_tile {size : ℕ} (h : c.cycleSize rate ≤ size) :
    c.PadsTo rate d size
      ((Synthesis.tile (Samples.padded size (c.baseCycle rate)) c.cycles).value d) := by
  have own : (c.baseCycle rate).length = c.cycleSize rate := c.length_baseCycle_eq rate
  have common : (Samples.padded size (c.baseCycle rate)).length = size := by
    rw [Samples.length_padded, own, Nat.max_eq_left h]
  obtain ⟨total, sample⟩ := Synthesis.tiles_tile (Samples.padded size (c.baseCycle rate)) c.cycles d
  rw [common] at total sample
  constructor
  · rw [value_cycleAt, own]
  · exact total
  · intro k hk inside
    rw [sample k hk, value_cycleAt]
    exact Samples.getElem?_padded_of_lt (own.symm ▸ inside)
  · intro k hk beyond
    have pos : 0 < size := by
      rw [total] at hk
      split at hk
      · exact Nat.pos_of_mul_pos_right (Nat.zero_lt_of_lt hk)
      · cases hk
    rw [sample k hk]
    exact Samples.getElem?_padded_of_ge (own.symm ▸ beyond) (Nat.mod_lt k pos)
  · intro longest
    rw [Samples.padded_of_length_eq (own.trans longest), synthesize, Logged.value_bind,
      value_cycleAt]

end ChannelWave

namespace IqWave
variable (w : IqWave) (rate : Float)

/-- Samples of one cycle of either channel. -/
def cycleSize : ℕ := max (w.i.cycleSize rate) (w.q.cycleSize rate)

/-- Each channel is padded to the cycle of the longer one. -/
theorem baseCycle_eq_padded :
    (w.baseCycle rate).i = Samples.padded (w.cycleSize rate) (w.i.baseCycle rate) ∧
    (w.baseCycle rate).q = Samples.padded (w.cycleSize rate) (w.q.baseCycle rate) := by
  rw [cycleSize, ChannelWave.cycleSize, ChannelWave.cycleSize, ← w.i.length_baseCycle_eq,
    ← w.q.length_baseCycle_eq]
  exact ⟨rfl, rfl⟩

theorem length_baseCycle_eq : (w.baseCycle rate).i.length = w.cycleSize rate := by
  rw [(w.baseCycle_eq_padded rate).1, Samples.length_padded, w.i.length_baseCycle_eq]
  exact Nat.max_eq_left (Nat.le_max_left _ _)

theorem length_of_stepLength? {n : ℕ} (h : (Wave.iq w).stepLength? rate = some n) :
    w.cycleSize rate * w.cycles.toNat = n ∧ n ≤ Limits.samplesPerStep := by
  obtain ⟨m, length, within⟩ := Option.bind_eq_some_iff.mp h
  have size : w.cycleSize rate = m :=
    (w.length_baseCycle_eq rate).symm.trans (length_baseCycle length)
  obtain ⟨fits, total⟩ := Option.ite_none_right_eq_some.mp within
  rw [size]
  exact ⟨Option.some.inj total, Option.some.inj total ▸ fits⟩

theorem padsTo_synthesize (d : Bool) :
    w.i.PadsTo rate d (w.cycleSize rate) ((w.synthesize rate).value d).i ∧
      w.q.PadsTo rate d (w.cycleSize rate) ((w.synthesize rate).value d).q := by
  obtain ⟨i, q⟩ := w.baseCycle_eq_padded rate
  rw [value_synthesize_eq, i, q]
  constructor
  · exact w.i.padsTo_tile rate d (Nat.le_max_left _ _)
  · rw [cycles, w.same_cycles]
    exact w.q.padsTo_tile rate d (Nat.le_max_right _ _)

/-- Two channels are sampled to the same number of samples, each one cycle by cycle. -/
theorem synthesis_pads_cycles (d : Bool) :
    w.i.PadsTo rate d (w.cycleSize rate) ((w.synthesize rate).value d).i ∧
    w.q.PadsTo rate d (w.cycleSize rate) ((w.synthesize rate).value d).q ∧
    ((w.synthesize rate).value d).i.length = ((w.synthesize rate).value d).q.length ∧
    ∀ n, (Wave.iq w).stepLength? rate = some n → ((w.synthesize rate).value d).i.length = n := by
  obtain ⟨i, q⟩ := w.padsTo_synthesize rate d
  refine ⟨i, q, ?_, ?_⟩
  · rw [i.length, q.length, w.same_cycles]
  · intro n announced
    obtain ⟨total, fits⟩ := w.length_of_stepLength? rate announced
    have length := i.length
    rw [show w.i.cycles = w.cycles from rfl, total, if_pos fits] at length
    exact length

/-- A tone of four samples beside three samples that are given, all of it three times. -/
theorem synthesis_pads_cycles_toneAndBuffer :
    ((toneAndBuffer.synthesize 1000.0).value false).i.length = 12 ∧
    ((toneAndBuffer.synthesize 1000.0).value false).i =
      (ChannelWave.tone.synthesize 1000.0).value false ∧
    ((toneAndBuffer.synthesize 1000.0).value false).q[6]? = some 7 ∧
    ((toneAndBuffer.synthesize 1000.0).value false).q[7]? = some 0 := by
  obtain ⟨i, q, same, announced⟩ := synthesis_pads_cycles toneAndBuffer 1000.0 false
  have length := announced 12 (by decide)
  have size : toneAndBuffer.cycleSize 1000.0 = 4 := by decide
  refine ⟨length, i.alone (by decide), ?_, ?_⟩
  · rw [q.inside 6 (by omega) (by decide), size]
    rfl
  · exact q.beyond 7 (by omega) (by decide)

end IqWave
end WaveSequencer
