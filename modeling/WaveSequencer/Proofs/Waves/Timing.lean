import WaveSequencer.Proofs.Dump.Footprint
import WaveSequencer.Proofs.Dump.Progress
import WaveSequencer.Proofs.Numeric.Signs
import WaveSequencer.Proofs.Waves.Soundness
import WaveSequencer.Proofs.Waves.WireForm

/-!
The times of a step where it is played, where the hardware is told of it, and where a dump of the
hardware's memory is decoded. Main statement: the interval of a step is never less than its
duration, and the hardware is told what is left of this interval without its latency. So it makes no
difference what interval is asked for if it is no longer than the wave.
-/
namespace WaveSequencer
open Numeric Wire

namespace Units

theorem microsecond_positive : IsPositive microsecond := by decide

theorem startLatency_positive : IsPositive startLatency := by decide

theorem denotes_microsecond : Denotes microsecond (1000 : ℚ) := by
  have value : (1000 : ℚ) = signed .positive ((1000 * 2 ^ 43 : ℕ) * 2 ^ (-43 : ℤ)) := by
    norm_num [signed]
  rw [value]
  exact .finite (by decide) ⟨by decide, by decide, by decide, by decide⟩

/-- A number of cycles is a numerator that is neither zero nor infinite. -/
theorem isPositive_cycles {cycles : UInt32} (h : 1 ≤ cycles) :
    IsPositive (microsecond * cycles.toFloat) := by
  have lower : 1 ≤ cycles.toNat := UInt32.le_iff_toNat_le.mp h
  have upper : cycles.toNat < 2 ^ 32 := cycles.toNat_lt
  have short : 1000 * cycles.toNat < 2 ^ 53 := by omega
  have count : Denotes cycles.toFloat (cycles.toNat : ℚ) :=
    (hasValue_ofNat (by omega)).unpack_pack
  have exact : nearest (1000 * cycles.toNat) = (1000 * cycles.toNat : ℕ) := by
    rw [← nearest_natCast short, Nat.cast_mul, Nat.cast_ofNat]
  have number : (0 : ℚ) < (1000 * cycles.toNat : ℕ) :=
    Nat.cast_pos.mpr (Nat.mul_pos (by decide) lower)
  have bound : nearest (1000 * cycles.toNat) < 2 ^ (1024 : ℤ) := by
    have limit := lt_limit (e := 0) short (by decide)
    rwa [zpow_zero, mul_one, ← exact] at limit
  have product := denotes_microsecond.mul count (by norm_num) (Nat.cast_nonneg _) bound
  rw [exact] at product
  exact product.isPositive number

theorem isUnsigned_cycleTime {cycles : UInt32} {frequency : Float} (h : 1 ≤ cycles)
    (hf : IsUnsigned frequency) : IsUnsigned (cycleTime cycles frequency) :=
  (isPositive_cycles h).div hf

theorem isUnsigned_sampleTime (count : Nat) {rate : Float} (h : IsPositive rate) :
    IsUnsigned (sampleTime count rate) :=
  (microsecond_positive.mul (isUnsigned_ofCount count)).div h

theorem isUnsigned_tickTime (ticks : UInt64) : IsUnsigned (tickTime ticks) :=
  (microsecond_positive.mul (isUnsigned_toFloat ticks)).div (by decide)

end Units

/-- The frequency of samples can be zero or infinite, and still the duration is defined. -/
theorem ChannelWave.durationAt_nonneg (rate : SamplingRate) (w : ChannelWave) :
    0.0 ≤ w.durationAt rate.val := by
  cases w with
  | parametric w =>
    exact (Units.isUnsigned_cycleTime w.valid.cycles.1 w.valid.frequency.isUnsigned).nonneg
  | sampled w =>
    exact (Units.isUnsigned_cycleTime w.cycles_range.1
      (rate.property.div (isUnsigned_ofCount w.samples.size))).nonneg

theorem Wave.durationAt_nonneg (rate : SamplingRate) (w : Wave) : 0.0 ≤ w.durationAt rate.val := by
  cases w with
  | single w => exact w.durationAt_nonneg rate
  | iq w => exact larger_nonneg (w.i.durationAt_nonneg rate) (w.q.durationAt_nonneg rate)

namespace WaveStep
variable {rate : SamplingRate} {step : WaveStep}

theorem duration_nonneg (rate : SamplingRate) (step : WaveStep) : 0.0 ≤ step.duration rate.val :=
  step.wave.durationAt_nonneg rate

theorem playTime_nonneg (h : 0.0 ≤ step.interval) : 0.0 ≤ step.playTime rate.val :=
  larger_nonneg h (duration_nonneg rate step)

theorem duration_le_playTime (h : 0.0 ≤ step.interval) :
    step.duration rate.val ≤ step.playTime rate.val := le_larger h (duration_nonneg rate step)

/-- The latency is taken away twice before, or once after the comparison. -/
theorem effectiveInterval_eq (rate : SamplingRate) (h : 0.0 ≤ step.interval) :
    step.effectiveInterval rate.val =
      larger (step.playTime rate.val - Units.startLatency) 0.0 :=
  larger_sub_sub h (duration_nonneg rate step) Units.startLatency_positive

theorem effectiveInterval_of_le (h : 0.0 ≤ step.interval)
    (short : step.interval ≤ step.duration rate.val) : step.effectiveInterval rate.val =
      larger (step.duration rate.val - Units.startLatency) 0.0 := by
  rw [effectiveInterval_eq rate h, playTime, larger_of_le short]

end WaveStep

/-- The duration and the interval of a step. -/
def PlayedStep.times {α : Type} (step : PlayedStep α) : Float × Float :=
  (step.duration, step.interval)

def Playback.times? : Playback → UInt32 → Option (Float × Float)
  | .real s, id => (s.steps.get? id).map (·.times)
  | .iq s, id => (s.steps.get? id).map (·.times)

namespace WaveSequence
variable {s t : WaveSequence} {id : UInt32}

/-- A step that is asked to take no longer than its wave. -/
def Hurried (s : WaveSequence) (id : UInt32) : Prop :=
  ∃ interval duration, s.interval? id = some interval ∧ s.duration? id = some duration ∧
    interval ≤ duration

/-- The same steps. Where different intervals are asked for, both steps are hurried. -/
structure SameButHurried (s t : WaveSequence) : Prop where
  rate : s.rate = t.rate
  kind : s.isIq = t.isIq
  wave : ∀ id, s.wave? id = t.wave? id
  interval : ∀ id, s.interval? id = t.interval? id ∨ s.Hurried id ∧ t.Hurried id

/-- The bytes of a sequence hold this interval, behind the number of this step. -/
def Tells (s : WaveSequence) (id : UInt32) (interval : Float) : Prop :=
  ∃ (earlier later : List (UInt32 × WaveStep)) (step : WaveStep),
    s.steps.toList = earlier ++ (id, step) :: later ∧
    s.bytes = tagBytes ['W', 'S', 'E', 'Q'] ++ floatBytes s.rate.val ++ flagBytes s.isIq ++
      countBytes s.steps.size ++ earlier.flatMap (stepBytes s.rate.val) ++
      (wordBytes id ++ floatBytes interval ++ step.wave.bytesAt s.rate.val) ++
      later.flatMap (stepBytes s.rate.val)

/-- The times of a step as it is played, and the one that the hardware is told. -/
structure StepTimes (s : WaveSequence) (p : Playback) (id : UInt32)
    (duration interval told : Float) : Prop where
  played : p.times? id = some (duration, interval)
  wave : s.duration? id = some duration
  covers : duration ≤ interval
  effective : s.effectiveInterval? id = some told
  agrees : told = larger (interval - Units.startLatency) 0.0
  nonneg : 0.0 ≤ told
  written : s.Tells id told

theorem tells_effectiveInterval {step : WaveStep} (he : (id, step) ∈ s.steps.toList) :
    s.Tells id (step.effectiveInterval s.rate.val) := by
  obtain ⟨earlier, later, split⟩ := List.append_of_mem he
  refine ⟨earlier, later, step, split, ?_⟩
  rw [bytes, split, List.flatMap_append, List.flatMap_cons, stepBytes]
  simp only [List.append_assoc]

/-- Sampling a wave does not change the times of its step. -/
theorem times?_playback (hs : s.Invariant) (id : UInt32) : s.playback.times? id =
    (s.steps.get? id).map fun step => (step.duration s.rate.val, step.playTime s.rate.val) := by
  rw [playback]
  split
  · rw [ofList_playedEntry hs, Playback.times?, SortedMap.get?_mapValues, Option.map_map]
    rfl
  · rw [ofList_playedEntry hs, Playback.times?, SortedMap.get?_mapValues, Option.map_map]
    rfl

theorem ids_playback (hs : s.Invariant) : s.playback.ids = s.steps.keys := by
  rw [playback]
  split
  · rw [ofList_playedEntry hs]
    exact SortedMap.keys_mapValues _ _
  · rw [ofList_playedEntry hs]
    exact SortedMap.keys_mapValues _ _

theorem stepTimes_playback (hs : s.Invariant) {step : WaveStep}
    (he : (id, step) ∈ s.steps.toList) : s.StepTimes s.playback id (step.duration s.rate.val)
      (step.playTime s.rate.val) (step.effectiveInterval s.rate.val) := by
  have found : s.steps.get? id = some step := SortedMap.get?_of_mem hs.ascending he
  have interval : 0.0 ≤ step.interval := (hs.admitted _ he).interval.2
  have agrees := WaveStep.effectiveInterval_eq s.rate interval
  constructor
  · rw [times?_playback hs, found]
    rfl
  · rw [duration?, found]
    rfl
  · exact WaveStep.duration_le_playTime interval
  · rw [effectiveInterval?, found]
    rfl
  · exact agrees
  · rw [agrees]
    exact nonneg_larger_sub (WaveStep.playTime_nonneg interval) Units.startLatency_positive
  · exact tells_effectiveInterval he

/-- The hardware is told the same of a hurried step, however hurried it is. -/
theorem Hurried.effectiveInterval?_eq (hs : s.Invariant) (h : s.Hurried id) :
    s.effectiveInterval? id = (s.wave? id).map fun wave =>
      larger (wave.durationAt s.rate.val - Units.startLatency) 0.0 := by
  obtain ⟨interval, duration, asked, lasts, le⟩ := h
  rw [interval?] at asked
  obtain ⟨step, found, rfl⟩ := Option.map_eq_some_iff.mp asked
  rw [duration?, found] at lasts
  obtain rfl := Option.some.inj lasts
  have nonneg := (hs.admitted _ (SortedMap.mem_of_get? found)).interval.2
  rw [effectiveInterval?, wave?, found, Option.map_some, Option.map_some,
    WaveStep.effectiveInterval_of_le nonneg le]
  rfl

theorem effectiveInterval?_eq_bind (s : WaveSequence) (id : UInt32) :
    s.effectiveInterval? id = (s.wave? id).bind fun wave =>
      (s.interval? id).map fun interval =>
        WaveStep.effectiveInterval s.rate.val ⟨wave, interval⟩ := by
  rw [effectiveInterval?, wave?, interval?]
  cases s.steps.get? id <;> rfl

theorem SameButHurried.sameOnWire (hs : s.Invariant) (ht : t.Invariant)
    (h : s.SameButHurried t) : s.SameOnWire t := by
  have intervals : ∀ id, s.effectiveInterval? id = t.effectiveInterval? id := by
    intro id
    rcases h.interval id with same | ⟨first, second⟩
    · rw [effectiveInterval?_eq_bind, effectiveInterval?_eq_bind, h.wave, same, h.rate]
    · rw [first.effectiveInterval?_eq hs, second.effectiveInterval?_eq ht, h.wave, h.rate]
  exact .of_wireContent h.rate h.kind (wireContent_eq_of hs ht h.wave intervals)

end WaveSequence

/-- The interval of a step covers its duration, and neither ends if the step does not. -/
structure PlayedStep.Covers (endless : Bool) (times : Float × Float) : Prop where
  le : times.1 ≤ times.2
  infinite : endless = true → times.1 = infinity ∧ times.2 = infinity

namespace ChannelFormat
variable {α : Type} (format : ChannelFormat α)

theorem covers_timed (positive : IsPositive format.timeFactor) {rate : Float} (h : IsPositive rate)
    (endless : Bool) (word : StepWord) (samples : α) :
    PlayedStep.Covers endless (format.timed rate endless word samples).times := by
  have waits : 0.0 ≤ word.intervalTime := (Units.isUnsigned_tickTime word.interval).nonneg
  cases endless with
  | true =>
    have times : (format.timed rate true word samples).times = (infinity, infinity) :=
      congrArg (Prod.mk infinity) (larger_infinity waits)
    rw [times]
    exact ⟨(denotes_infinity.le_iff denotes_infinity).mpr le_rfl, fun _ => ⟨rfl, rfl⟩⟩
  | false =>
    have lasts := positive.mul (Units.isUnsigned_sampleTime (format.length samples) h)
    exact ⟨le_larger waits lasts.nonneg, fun never => Bool.noConfusion never⟩

variable {format} in
/-- Every decoded step comes from a record. -/
theorem exists_record {layout : ValidLayout} {dump : Dump} {samples : StepWord → α} {rate : Float}
    {id : UInt32} (h : id ∈ (SortedMap.ofList
      (format.entries layout rate dump samples 0 dump.announced.steps)).keys) :
    ∃ k < dump.stepCount, (dump.record k).id = id := by
  rw [SortedMap.mem_keys_ofList, entries_announced, List.map_map, List.mem_map] at h
  obtain ⟨k, hk, rfl⟩ := h
  exact ⟨k, List.mem_range.mp hk, rfl⟩

end ChannelFormat

namespace Dump
variable {layout : ValidLayout} {dump : Dump}

theorem exists_times_playback (fine : dump.WellFormed layout.toStepLayout) {k : Nat}
    (hk : k < dump.stepCount) : ∃ times, (dump.playback layout).times? (dump.record k).id =
      some times ∧ PlayedStep.Covers (dump.record k).endless times := by
  cases kind : dump.isIq with
  | true =>
    obtain ⟨_, found⟩ := ChannelFormat.ofList_entries .iq (·.iqSamples dump.waveRam) dump.rate fine
    have times := congrArg (Option.map PlayedStep.times) (found k hk)
    rw [playback, kind, if_pos rfl]
    exact ⟨_, times, ChannelFormat.covers_timed .iq (by decide) fine.rate _ _ _⟩
  | false =>
    obtain ⟨_, found⟩ :=
      ChannelFormat.ofList_entries .real (·.realSamples dump.waveRam) dump.rate fine
    have times := congrArg (Option.map PlayedStep.times) (found k hk)
    rw [playback, kind, if_neg Bool.false_ne_true]
    exact ⟨_, times, ChannelFormat.covers_timed .real (by decide) fine.rate _ _ _⟩

theorem exists_record_playback {id : UInt32} (h : id ∈ (dump.playback layout).ids) :
    ∃ k < dump.stepCount, (dump.record k).id = id := by
  cases kind : dump.isIq with
  | true =>
    rw [playback, kind, if_pos rfl] at h
    exact ChannelFormat.exists_record h
  | false =>
    rw [playback, kind, if_neg Bool.false_ne_true] at h
    exact ChannelFormat.exists_record h

end Dump

/-- Every step is played for an interval that covers its duration, and the hardware is told this
interval without its latency, but nothing below zero. What is told does not change with the
interval that is asked for while this is no longer than the wave. In the steps of a dump the
interval covers the duration as well, and neither ends for a step without end. -/
theorem interval_covers_duration (d : Bool) :
    (∀ s : WaveSequence, s.Reachable → ∃ p, s.play.value d = .ok p ∧ p.ids = s.steps.keys ∧
      ∀ id ∈ s.steps.keys, ∃ duration interval told, s.StepTimes p id duration interval told) ∧
    (∀ s t : WaveSequence, s.Reachable → t.Reachable →
      (∀ id, s.rate = t.rate → s.wave? id = t.wave? id → s.Hurried id → t.Hurried id →
        s.effectiveInterval? id = t.effectiveInterval? id) ∧
      (s.SameButHurried t → s.bytes = t.bytes)) ∧
    ∀ (layout : ValidLayout) (dump : Dump) (p : Playback), (dump.decode layout).value d = .ok p →
      ∀ id ∈ p.ids, ∃ k < dump.stepCount, (dump.record k).id = id ∧
        ∃ times, p.times? id = some times ∧
          PlayedStep.Covers (dump.record k).endless times := by
  refine ⟨?_, ?_, ?_⟩
  · intro s hs
    refine ⟨_, WaveSequence.value_play hs.invariant d, WaveSequence.ids_playback hs.invariant, ?_⟩
    intro id hid
    obtain ⟨⟨_, step⟩, he, rfl⟩ := List.mem_map.mp hid
    exact ⟨_, _, _, WaveSequence.stepTimes_playback hs.invariant he⟩
  · intro s t hs ht
    constructor
    · intro id rate wave first second
      rw [first.effectiveInterval?_eq hs.invariant, second.effectiveInterval?_eq ht.invariant, wave,
        rate]
    · intro h
      exact (h.sameOnWire hs.invariant ht.invariant).bytes_eq hs.invariant ht.invariant
  · intro layout dump p decoded id hid
    obtain ⟨fine, rfl⟩ := (Dump.decode_yieldsIff layout dump d).eq_ok_iff.mp decoded
    obtain ⟨k, hk, rfl⟩ := Dump.exists_record_playback hid
    exact ⟨k, hk, rfl, Dump.exists_times_playback fine hk⟩

namespace WaveSequence

/-- A step of nine nanoseconds, of which the interval is still open. -/
def nineNanoseconds (interval : Float) : WaveSequence :=
  (empty .thousand false).withStep 2 ⟨(Wave.single .buffer).attach .thousand, interval⟩

theorem nineNanoseconds_reachable (interval : Float) (h : IsNonnegative interval) :
    (nineNanoseconds interval).Reachable := by
  have size : ((Wave.single .buffer).attach .thousand).stepLength? 1000.0 ≠ none := by decide
  have added : (empty .thousand false).add 2 (.single .buffer) interval =
      .ok (nineNanoseconds interval) :=
    add_eq_ok_iff.mpr ⟨⟨h, rfl, size⟩, rfl, by decide, rfl⟩
  exact (reachable_empty .thousand false).add added

theorem nineNanoseconds_hurried {interval : Float} (h : interval ≤ 9.0) :
    (nineNanoseconds interval).Hurried 2 := by
  have lasts : ((Wave.single .buffer).attach .thousand).durationAt 1000.0 = 9.0 := by
    decide +kernel
  exact ⟨interval, 9.0, rfl, congrArg some lasts, h⟩

theorem nineNanoseconds_sameButHurried {a b : Float} (ha : a ≤ 9.0) (hb : b ≤ 9.0) :
    (nineNanoseconds a).SameButHurried (nineNanoseconds b) := by
  have none {interval : Float} {id : UInt32} (h : id ≠ 2) :
      (nineNanoseconds interval).steps.get? id = none :=
    SortedMap.get?_insert_of_ne _ _ h
  refine ⟨rfl, rfl, fun id => ?_, fun id => ?_⟩
  · by_cases h : id = 2
    · rw [h]
      rfl
    · rw [wave?, wave?, none h, none h]
  · by_cases h : id = 2
    · rw [h]
      exact .inr ⟨nineNanoseconds_hurried ha, nineNanoseconds_hurried hb⟩
    · rw [interval?, interval?, none h, none h]
      exact .inl rfl

end WaveSequence

theorem interval_covers_duration_nineNanoseconds :
    (∃ p, (WaveSequence.nineNanoseconds 50.0).play.value false = .ok p ∧
      ∃ duration interval told,
        (WaveSequence.nineNanoseconds 50.0).StepTimes p 2 duration interval told) ∧
    (WaveSequence.nineNanoseconds 0.0).effectiveInterval? 2 =
      (WaveSequence.nineNanoseconds 9.0).effectiveInterval? 2 ∧
    (WaveSequence.nineNanoseconds 0.0).bytes = (WaveSequence.nineNanoseconds 9.0).bytes ∧
    ∃ p, (Dump.endlessStep.decode {}).value false = .ok p ∧
      ∀ id ∈ p.ids, p.times? id = some (infinity, infinity) := by
  obtain ⟨plays, same, decodes⟩ := interval_covers_duration false
  have none := WaveSequence.nineNanoseconds_reachable 0.0 (by decide)
  have nine := WaveSequence.nineNanoseconds_reachable 9.0 (by decide)
  have fifty := WaveSequence.nineNanoseconds_reachable 50.0 (by decide)
  obtain ⟨p, played, _, times⟩ := plays _ fifty
  obtain ⟨told, bytes⟩ := same _ _ none nine
  have decoded := (Dump.decode_yieldsIff {} Dump.endlessStep false).ok Dump.endlessStep_wellFormed
  refine ⟨⟨p, played, times 2 (by decide)⟩, told 2 rfl rfl ?_ ?_, bytes ?_, _, decoded, ?_⟩
  · exact WaveSequence.nineNanoseconds_hurried (by decide)
  · exact WaveSequence.nineNanoseconds_hurried (by decide)
  · exact WaveSequence.nineNanoseconds_sameButHurried (by decide) (by decide)
  · intro id hid
    obtain ⟨k, hk, _, ⟨duration, interval⟩, times, covers⟩ := decodes _ _ _ decoded id hid
    obtain rfl : k = 0 := Nat.lt_one_iff.mp hk
    obtain ⟨rfl, rfl⟩ := covers.infinite (by decide +kernel)
    exact times

end WaveSequencer
