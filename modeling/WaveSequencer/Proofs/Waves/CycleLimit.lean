import WaveSequencer.Proofs.Waves.Playing
import WaveSequencer.Proofs.Wire.Slice

/-!
How far the limit on the samples of one cycle is enforced. A parametric wave with a longer cycle
is refused, but samples that are given are only limited for all cycles together. Main statements:
the exact condition under which a cycle of an admitted wave is within the limit, and a sequence
that holds a longer one.
-/
namespace WaveSequencer
open Numeric Wire

namespace ChannelWave
variable (rate : Float)

/-- Samples that one cycle needs, whether the hardware can hold them or not. Undefined if 64 bits
do not hold the number. -/
def samplesNeeded? : ChannelWave → Option Nat
  | parametric w => Units.samplesPerCycle? rate w.frequency
  | sampled w => some w.samples.size

/-- One cycle is within the limit of the hardware. -/
def CycleFits (c : ChannelWave) : Prop :=
  ∃ n ≤ Limits.samplesPerCycle, c.samplesNeeded? rate = some n

/-- Samples that are given with the wave. -/
def bufferLength : ChannelWave → Nat
  | parametric _ => 0
  | sampled w => w.samples.size

variable {rate}

theorem cycleFits_parametric_iff {w : ParametricWave} :
    (parametric w).CycleFits rate ↔ (parametric w).cycleLength? rate ≠ none := by
  simp only [CycleFits, samplesNeeded?, cycleLength?, ParametricWave.cycleLength?]
  cases Units.samplesPerCycle? rate w.frequency with
  | none => simp
  | some n => simp [Option.filter]

theorem cycleFits_iff {c : ChannelWave} : c.CycleFits rate ↔
    c.cycleLength? rate ≠ none ∧ c.bufferLength ≤ Limits.samplesPerCycle := by
  cases c with
  | parametric w =>
    rw [cycleFits_parametric_iff]
    exact (and_iff_left (Nat.zero_le _)).symm
  | sampled w => simp [CycleFits, samplesNeeded?, cycleLength?, bufferLength]

end ChannelWave

namespace Wave
variable {rate : Float}

def channels : Wave → List ChannelWave
  | single w => [w]
  | iq w => [w.i, w.q]

theorem channels_attach (r : SamplingRate) (w : Wave) :
    (w.attach r).channels = w.channels.map (·.attach r) := by cases w <;> rfl

theorem cycleLength?_eq_none_iff {w : Wave} : w.cycleLength? rate = none ↔
    ∃ c ∈ w.channels, c.cycleLength? rate = none := by
  cases w with
  | single w => simp [cycleLength?, channels]
  | iq w =>
    simp only [cycleLength?, IqWave.cycleLength?, channels, List.mem_cons, List.not_mem_nil,
      or_false, exists_eq_or_imp, exists_eq_left]
    cases w.i.cycleLength? rate <;> cases w.q.cycleLength? rate <;> simp

/-- A wave is too long for a step if a parametric channel exceeds the limit of one cycle, or if
all cycles together exceed that of a step. -/
theorem stepLength?_eq_none_iff {w : Wave} : w.stepLength? rate = none ↔
    (∃ p, .parametric p ∈ w.channels ∧ ¬(ChannelWave.parametric p).CycleFits rate) ∨
      ∃ n, w.cycleLength? rate = some n ∧ Limits.samplesPerStep < n * w.cycles.toNat := by
  have parametric : (∃ p, .parametric p ∈ w.channels ∧
      ¬(ChannelWave.parametric p).CycleFits rate) ↔ w.cycleLength? rate = none := by
    rw [cycleLength?_eq_none_iff]
    constructor
    · rintro ⟨p, hp, long⟩
      exact ⟨_, hp, Decidable.not_not.mp (mt ChannelWave.cycleFits_parametric_iff.mpr long)⟩
    · rintro ⟨c, hc, long⟩
      cases c with
      | sampled w => cases long
      | parametric p =>
        refine ⟨p, hc, ?_⟩
        intro fits
        exact ChannelWave.cycleFits_parametric_iff.mp fits long
  rw [parametric, stepLength?]
  cases w.cycleLength? rate with
  | none => simp
  | some n => simp [bind, Option.bind]

end Wave

namespace SampledWave

/-- The number of samples that the header of the wire form announces. -/
def announcedCount (w : SampledWave) (rate : Float) : Nat := numberAt (w.bytesAt rate) 80 4

theorem announcedCount_eq (w : SampledWave) (rate : Float) :
    w.announcedCount rate = w.samples.size % 2 ^ 32 :=
  numberAt_append_middle (by simp) w.samples.size.toUInt32.toNat_lt

end SampledWave

namespace WaveSequence

theorem add_eq_error_argument {s : WaveSequence} {id : UInt32} {wave : Wave} {interval : Float}
    (h : wave.stepLength? s.rate.val = none) :
    ∃ cause, s.add id wave interval = .error (.argument cause) := by
  rw [add_eq]
  cases refusal : s.refusal? id wave interval with
  | none => exact absurd h (refusal?_eq_none_iff.mp refusal).2.2.1
  | some cause => exact ⟨cause, rfl⟩

/-- What a sequence is checked for, in every step that it holds and in every wave that it is asked
to hold, and when the announced numbers of samples are right. -/
theorem cycle_limit_iff {s : WaveSequence} (hs : s.Reachable) :
    (∀ e ∈ s.steps.toList, ∀ c ∈ e.2.wave.channels,
      (c.CycleFits s.rate.val ↔ c.bufferLength ≤ Limits.samplesPerCycle)) ∧
    (∀ w : Wave, w.stepLength? s.rate.val = none ↔
      (∃ p, .parametric p ∈ w.channels ∧ ¬(ChannelWave.parametric p).CycleFits s.rate.val) ∨
        ∃ n, w.cycleLength? s.rate.val = some n ∧ Limits.samplesPerStep < n * w.cycles.toNat) ∧
    (∀ w : Wave, w.stepLength? s.rate.val = none → ∀ id interval,
      ∃ cause, s.add id w interval = .error (.argument cause)) ∧
    (∀ e ∈ s.steps.toList, ∀ b, .sampled b ∈ e.2.wave.channels →
      (2 * b.announcedCount s.rate.val = ((b.bytesAt s.rate.val).drop 84).length ↔
        b.samples.size < 2 ^ 32)) := by
  refine ⟨?_, ?_, ?_, ?_⟩
  · intro e he c hc
    have admitted := (hs.invariant.admitted e he).size
    obtain ⟨n, length, _⟩ := Wave.stepLength?_ne_none_iff.mp admitted
    have defined : c.cycleLength? s.rate.val ≠ none := by
      intro undefined
      rw [Wave.cycleLength?_eq_none_iff.mpr ⟨c, hc, undefined⟩] at length
      cases length
    rw [ChannelWave.cycleFits_iff, and_iff_right defined]
  · intro w
    exact Wave.stepLength?_eq_none_iff
  · intro w long id interval
    exact add_eq_error_argument long
  · intro e _ b _
    rw [b.announcedCount_eq, List.length_drop, SampledWave.length_bytesAt]
    omega

/-- One sample more than the limit. -/
def longBuffer : ChannelWave :=
  .sampled ⟨Array.replicate (2 ^ 30) 0, 1, none, by simp, by decide⟩

def withLongBuffer : WaveSequence :=
  (empty .thousand false).withStep 0
    ⟨(Wave.single longBuffer).attach .thousand, 0.0⟩

theorem add_longBuffer :
    (empty .thousand false).add 0 (.single longBuffer) 0.0 = .ok withLongBuffer := by
  have size : (Wave.single longBuffer).stepLength? 1000.0 ≠ none := by
    apply Wave.stepLength?_ne_none_iff.mpr
    exact ⟨2 ^ 30, congrArg some Array.size_replicate, by decide⟩
  have admitted : WaveStep.Admitted .thousand false
      ⟨(Wave.single longBuffer).attach .thousand, 0.0⟩ :=
    ⟨by decide, rfl, by rwa [Wave.stepLength?_attach]⟩
  exact add_eq_ok_iff.mpr ⟨admitted, rfl, by decide, rfl⟩

theorem withLongBuffer_reachable : withLongBuffer.Reachable :=
  (reachable_empty .thousand false).add add_longBuffer

/-- The only limit on a cycle of samples that are given is that of the whole step. -/
theorem cycle_limit_iff_longBuffer :
    (longBuffer.attach .thousand).CycleFits 1000.0 ↔
      (longBuffer.attach .thousand).bufferLength ≤ Limits.samplesPerCycle :=
  (cycle_limit_iff withLongBuffer_reachable).1 _ (List.mem_singleton_self _) _
    (List.mem_singleton_self _)

/-- A sequence accepts samples beyond the limit of one cycle. -/
theorem longBuffer_admitted : ∃ s, create 1000.0 false = .ok s ∧
    s.add 0 (.single longBuffer) 0.0 = .ok withLongBuffer ∧ withLongBuffer.Reachable ∧
      ∃ e ∈ withLongBuffer.steps.toList, ∃ c ∈ e.2.wave.channels,
        ¬c.CycleFits withLongBuffer.rate.val := by
  refine ⟨_, create_empty .thousand false, add_longBuffer, withLongBuffer_reachable, _,
    List.mem_singleton_self _, _, List.mem_singleton_self _, ?_⟩
  intro fits
  have short : (Array.replicate (2 ^ 30) (0 : Int16)).size ≤ Limits.samplesPerCycle :=
    (ChannelWave.cycleFits_iff.mp fits).2
  rw [Array.size_replicate] at short
  exact absurd short (by decide)

end WaveSequence
end WaveSequencer
