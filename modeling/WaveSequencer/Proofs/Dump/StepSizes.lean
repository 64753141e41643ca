import Mathlib.Data.List.Basic
import WaveSequencer.Proofs.Dump.Channels

/-!
How many samples a decoded step has. The word announces the number, as a product of two of its
fields and a third one. Room is asked for in advance, after a check that 64 bits hold the number.
Main statements: this check refuses no step, the limit of a step is kept as long as the wave RAM
has no more than two gigabytes for each channel, and two bytes more can break it.
-/
namespace WaveSequencer
open Wire

namespace StepWord
variable (w : StepWord) (ram : List UInt8)

/-- The number of samples that the word announces for each of its channels. -/
def announcedLength (channels : Nat) : Nat :=
  w.sampleCount.toNat / channels * (w.cycles.toNat - 1) + w.lastSampleCount.toNat / channels

/-- The size of a step in `n` channels: it is never the reason to refuse the step, each channel has
the samples that room was asked for, and a wave RAM that is not too large keeps the limit. -/
structure SizedBy {α : Type} (n : Nat) (channels : α → List (List Int16))
    (result : Except Fault α) : Prop where
  refused : ∀ fault, result = .error fault → ∃ cause, fault = .malformed cause ∧ ¬cause.IsOverflow
  requested : w.totalLength (w.sampleCount.toNat / n) (w.lastSampleCount.toNat / n) =
    .ok (w.announcedLength n)
  length : ∀ a, result = .ok a → ∀ c ∈ channels a, c.length = w.announcedLength n
  within : ∀ a, result = .ok a → ram.length < n * (2 ^ 31 + 2) →
    w.announcedLength n ≤ Limits.samplesPerStep

theorem totalLength_eq_announced (n : Nat) :
    w.totalLength (w.sampleCount.toNat / n) (w.lastSampleCount.toNat / n) =
      .ok (w.announcedLength n) :=
  w.totalLength_eq (Nat.lt_of_le_of_lt (Nat.div_le_self _ n) w.sampleCount.toNat_lt)
    (Nat.lt_of_le_of_lt (Nat.div_le_self _ n) w.lastSampleCount.toNat_lt)

variable {w ram}

/-- With at most `2 ^ 30` samples in a cycle, no number of cycles exceeds the limit. -/
theorem announcedLength_le (plays : w.Playable ram) {n : Nat}
    (short : ram.length < n * (2 ^ 31 + 2)) : w.announcedLength n ≤ Limits.samplesPerStep := by
  have few {start count : Nat} (inside : start + 2 * count ≤ ram.length) : count / n ≤ 2 ^ 30 := by
    have fewer : count < n * (2 ^ 30 + 1) := by omega
    exact Nat.lt_succ_iff.mp (Nat.div_lt_of_lt_mul fewer)
  have cycles := w.cycles.toNat_lt
  have primary : w.sampleCount.toNat / n * (w.cycles.toNat - 1) ≤ 2 ^ 30 * (2 ^ 32 - 2) :=
    Nat.mul_le_mul (few plays.primary) (by omega)
  have last := few plays.last
  have limit : Limits.samplesPerStep = 2 ^ 62 - 1 := rfl
  rw [announcedLength, limit]
  omega

theorem length_realSamples (plays : w.Playable ram) :
    (w.realSamples ram).length = w.announcedLength 1 := by
  rw [realSamples, length_played, length_primarySamples plays, length_lastSamples plays,
    announcedLength, Nat.div_one, Nat.div_one]

theorem length_iqSamples_i (plays : w.Playable ram) (paired : w.Paired) :
    (w.iqSamples ram).i.length = w.announcedLength 2 := by
  have half {m : Nat} (even : m % 2 = 0) : (m + 1) / 2 = m / 2 := by omega
  rw [iqSamples, length_played, IqSamples.ofPairs, IqSamples.ofPairs,
    (Samples.length_channels _).1, (Samples.length_channels _).1, length_primarySamples plays,
    length_lastSamples plays, half paired.primary, half paired.last, announcedLength]

variable (w ram)

/-- The size of a step in one channel and in two. The limit of a step is kept under a condition on
the wave RAM, which no check looks at. -/
theorem decoded_size_by_ram :
    w.SizedBy ram 1 (fun samples => [samples]) (w.decodeReal ram) ∧
    w.SizedBy ram 2 (fun samples => [samples.i, samples.q]) (w.decodeIq ram) := by
  have real := w.decodeReal_yieldsIff ram
  have iq := w.decodeIq_yieldsIff ram
  constructor
  · constructor
    · intro fault failed
      exact real.malformed_of_eq_error failed
    · exact w.totalLength_eq_announced 1
    · intro samples decoded c hc
      obtain ⟨plays, rfl⟩ := real.eq_ok_iff.mp decoded
      rw [List.mem_singleton.mp hc, length_realSamples plays]
    · intro samples decoded short
      exact announcedLength_le (real.eq_ok_iff.mp decoded).1 short
  · constructor
    · intro fault failed
      exact iq.malformed_of_eq_error failed
    · exact w.totalLength_eq_announced 2
    · intro samples decoded c hc
      obtain ⟨⟨plays, paired⟩, rfl⟩ := iq.eq_ok_iff.mp decoded
      rcases List.mem_pair.mp hc with rfl | rfl
      · exact length_iqSamples_i plays paired
      · rw [← length_iqSamples paired plays, length_iqSamples_i plays paired]
    · intro samples decoded short
      exact announcedLength_le (iq.eq_ok_iff.mp decoded).1.1 short

/-- One sample more than `2 ^ 30` in each of `n` channels, for as many cycles as there can be. -/
def oversized (n : UInt32) : StepWord := { sampleCount := n * 1073741825, cycles := 4294967295 }

/-- A wave RAM that holds one cycle of the oversized step and nothing else. -/
def barelyEnough (n : Nat) : List UInt8 := List.replicate (n * (2 ^ 31 + 2)) 0

/-- Steps that no memory holds are decoded: the limit is exceeded in one channel and in two. -/
theorem oversized_decoded :
    (∃ samples, (oversized 1).decodeReal (barelyEnough 1) = .ok samples ∧
      Limits.samplesPerStep < samples.length) ∧
    ∃ samples, (oversized 2).decodeIq (barelyEnough 2) = .ok samples ∧
      Limits.samplesPerStep < samples.i.length ∧ Limits.samplesPerStep < samples.q.length := by
  have plays (n : UInt32) (small : n = 1 ∨ n = 2) :
      (oversized n).Playable (barelyEnough n.toNat) := by
    rcases small with rfl | rfl
    · exact ⟨by decide, by rw [barelyEnough, List.length_replicate]; decide, Nat.zero_le _⟩
    · exact ⟨by decide, by rw [barelyEnough, List.length_replicate]; decide, Nat.zero_le _⟩
  have paired : (oversized 2).Paired := ⟨by decide, by decide⟩
  have real := plays 1 (.inl rfl)
  have iq := plays 2 (.inr rfl)
  refine ⟨⟨_, ((oversized 1).decodeReal_yieldsIff _).ok real, ?_⟩,
    ⟨_, ((oversized 2).decodeIq_yieldsIff _).ok ⟨iq, paired⟩, ?_⟩⟩
  · have long : Limits.samplesPerStep < (oversized 1).announcedLength 1 := by decide
    exact length_realSamples real ▸ long
  · have long : Limits.samplesPerStep < (oversized 2).announcedLength 2 := by decide
    have i := length_iqSamples_i iq paired
    have q := length_iqSamples paired iq
    exact ⟨i ▸ long, q ▸ i ▸ long⟩

end StepWord
end WaveSequencer
