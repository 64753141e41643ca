import WaveSequencer.Proofs.Numeric.UpperBounds
import WaveSequencer.Proofs.Waves.Soundness

/-!
Sampling a wave computes one cycle and repeats it. Main statement: every sample of a channel is that
of its cycle at the position modulo the length, there are as many as the channel announces, and a
cycle has as many as its rate and frequency ask for. For a sawtooth this needs that its three lines
fill the cycle, of which the first one ends where an inexact product says.
-/
namespace WaveSequencer
open Numeric

/-- A cycle over and over, or no samples where all cycles are too long for a step. -/
structure Tiles (cycle : List Int16) (cycles : UInt32) (samples : List Int16) : Prop where
  length : samples.length =
    if cycle.length * cycles.toNat ≤ Limits.samplesPerStep then cycle.length * cycles.toNat else 0
  sample : ∀ k < samples.length, samples[k]? = cycle[k % cycle.length]?

theorem Synthesis.tiles_tile (cycle : List Int16) (cycles : UInt32) (d : Bool) :
    Tiles cycle cycles ((tile cycle cycles).value d) := by
  by_cases fits : cycle.length * cycles.toNat ≤ Limits.samplesPerStep
  · rw [value_tile fits]
    constructor
    · rw [if_pos fits, Samples.length_repeated]
    · intro k hk
      exact Samples.getElem?_repeated _ _ k (Samples.length_repeated _ cycle ▸ hk)
  · have none : (tile cycle cycles).value d = [] := by
      rw [tile, if_neg fits]
      rfl
    rw [none]
    exact ⟨(if_neg fits).symm, fun k hk => absurd hk (Nat.not_lt_zero k)⟩

namespace ChannelWave
variable (w : ChannelWave) (rate : Float)

/-- A cycle beyond the limit has no samples, and neither has a wave that is too fast. -/
theorem length_baseCycle_eq : (w.baseCycle rate).length = (w.cycleLength? rate).getD 0 := by
  cases length : w.cycleLength? rate with
  | some n => exact length_baseCycle length
  | none =>
    cases w with
    | sampled w => cases length
    | parametric w =>
      rw [cycleLength?] at length
      simp only [baseCycle, ParametricWave.cycleAt, length]
      rfl

theorem tiles_synthesize (d : Bool) :
    Tiles (w.baseCycle rate) w.cycles ((w.synthesize rate).value d) := by
  rw [synthesize, Logged.value_bind, value_cycleAt]
  exact Synthesis.tiles_tile _ _ d

/-- The check of a step and that of the repetition are of the same product. -/
theorem length_synthesize (d : Bool) : ((w.synthesize rate).value d).length =
    ((Wave.single w).stepLength? rate).getD 0 := by
  rw [(w.tiles_synthesize rate d).length, w.length_baseCycle_eq rate, Wave.stepLength?,
    Wave.cycleLength?]
  cases w.cycleLength? rate with
  | none => simp
  | some n =>
    change (if n * w.cycles.toNat ≤ Limits.samplesPerStep then n * w.cycles.toNat else 0) =
      (if n * w.cycles.toNat ≤ Limits.samplesPerStep then some (n * w.cycles.toNat)
        else none).getD 0
    split <;> rfl

end ChannelWave

namespace ParametricWave
variable (w : ParametricWave) {n : ℕ}

/-- The three lines of a sawtooth cycle follow one another and fill it. -/
structure SawtoothFills (w : ParametricWave) (n : ℕ) : Prop where
  crest : w.crestPosition n = truncate (w.crest * 0.5 * ofCount (n - 1))
  inside : w.crestPosition n ≤ n - 1
  order : w.crestPosition n ≤ w.valleyPosition n
  rest : w.valleyPosition n < n
  length : (w.sawtoothCycle n).length = n

/-- The product for the crest is never rounded beyond the middle of the cycle. -/
theorem crestPosition_eq (h : n ≤ Limits.samplesPerCycle) :
    w.crestPosition n = truncate (w.crest * 0.5 * ofCount (n - 1)) := by
  have short : n - 1 < 2 ^ 30 :=
    Nat.lt_of_le_of_lt (Nat.sub_le n 1) (Nat.lt_of_le_of_lt h (by decide))
  exact Nat.min_eq_left (truncate_half_le w.valid.crest.1 w.valid.crest.2 short)

theorem sawtoothFills (pos : 0 < n) (h : n ≤ Limits.samplesPerCycle) : w.SawtoothFills n := by
  have middle := w.crestPosition_le n
  constructor
  · exact w.crestPosition_eq h
  · omega
  · rcases Nat.lt_or_ge 1 n with many | one
    · exact Nat.le_of_lt (w.crestPosition_lt_valleyPosition many)
    · omega
  · exact w.valleyPosition_lt pos
  · exact w.length_sawtoothCycle pos

end ParametricWave

/-- Sampling repeats the cycle of a wave, of which the length is the announced one, at any rate,
and yields as many samples as the step is checked for. -/
theorem synthesis_repeats_cycle (rate : Float) (d : Bool) :
    (∀ w : ParametricWave,
      ((w.cycleAt rate).value d).length = (w.cycleLength? rate).getD 0 ∧
      Tiles ((w.cycleAt rate).value d) w.cycles
        (((ChannelWave.parametric w).synthesize rate).value d)) ∧
    (∀ w : SampledWave,
      Tiles w.samples.toList w.cycles (((ChannelWave.sampled w).synthesize rate).value d)) ∧
    (∀ c : ChannelWave, ((c.synthesize rate).value d).length =
      ((Wave.single c).stepLength? rate).getD 0) ∧
    ∀ (w : ParametricWave) (n : ℕ), 0 < n → n ≤ Limits.samplesPerCycle → w.SawtoothFills n := by
  refine ⟨?_, ?_, ?_, ?_⟩
  · intro w
    have cycle : (w.cycleAt rate).value d = (ChannelWave.parametric w).baseCycle rate :=
      (ChannelWave.parametric w).value_cycleAt rate d
    rw [cycle]
    exact ⟨(ChannelWave.parametric w).length_baseCycle_eq rate,
      (ChannelWave.parametric w).tiles_synthesize rate d⟩
  · intro w
    exact (ChannelWave.sampled w).tiles_synthesize rate d
  · intro c
    exact c.length_synthesize rate d
  · intro w n pos h
    exact w.sawtoothFills pos h

/-- Two cycles of a sawtooth with its crest as late as it can be. -/
def ParametricWave.ramp : ParametricWave :=
  { kind := .sawtooth, frequency := 200.0, amplitude := 100.0, cycles := 2, crest := 1.0,
    valid := by constructor <;> decide }

theorem synthesis_repeats_cycle_ramp :
    ParametricWave.ramp.SawtoothFills 5 ∧ ParametricWave.ramp.crestPosition 5 = 2 ∧
    (((ChannelWave.parametric .ramp).synthesize 1000.0).value false).length = 10 ∧
    Tiles [3, -3, 7] 3 ((ChannelWave.buffer.synthesize 1000.0).value false) := by
  obtain ⟨_, sampled, length, sawtooth⟩ := synthesis_repeats_cycle 1000.0 false
  refine ⟨sawtooth .ramp 5 (by decide) (by decide), by decide, ?_,
    sampled ⟨#[3, -3, 7], 3, none, by decide, by decide⟩⟩
  rw [length]
  decide

end WaveSequencer
