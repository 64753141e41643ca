import WaveSequencer.Proofs.Waves.WireForm

/-!
What a call to add a wave leaves behind. Main statement: a wave is accepted exactly if it passes all
checks, and then the sequence has one more step and answers for the other ones as before. If it is
refused, for the first check that fails, nothing has changed.
-/
namespace WaveSequencer
open Numeric

/-- A channel as it is stored at a sampling rate: that of a parametric wave as it was given, and
given samples with their cycles and the rate, whatever rate they had. -/
inductive ChannelWave.BoundTo (rate : SamplingRate) : ChannelWave → ChannelWave → Prop
  | parametric (w : ParametricWave) : BoundTo rate (.parametric w) (.parametric w)
  | sampled {given stored : SampledWave} (attached : stored.rate = some rate)
      (samples : stored.samples = given.samples) (cycles : stored.cycles = given.cycles) :
      BoundTo rate (.sampled given) (.sampled stored)

/-- The same of every channel of a wave. -/
inductive Wave.BoundTo (rate : SamplingRate) : Wave → Wave → Prop
  | single {given stored : ChannelWave} (h : given.BoundTo rate stored) :
      BoundTo rate (.single given) (.single stored)
  | iq {given stored : IqWave} (i : given.i.BoundTo rate stored.i)
      (q : given.q.BoundTo rate stored.q) : BoundTo rate (.iq given) (.iq stored)

theorem ChannelWave.boundTo_attach (rate : SamplingRate) (w : ChannelWave) :
    w.BoundTo rate (w.attach rate) := by
  cases w with
  | parametric w => exact .parametric w
  | sampled w => exact .sampled (w.rate_attach rate) (w.samples_attach rate) (w.cycles_attach rate)

theorem Wave.boundTo_attach (rate : SamplingRate) (w : Wave) :
    w.BoundTo rate (w.attach rate) := by
  cases w with
  | single w => exact .single (w.boundTo_attach rate)
  | iq w => exact .iq (w.i.boundTo_attach rate) (w.q.boundTo_attach rate)

namespace WaveSequence

/-- The sequence with one more step, of this wave at the rate of the sequence. It answers for all
other steps as before. -/
structure Gains (s : WaveSequence) (id : UInt32) (wave : Wave) (requested : Float)
    (t : WaveSequence) : Prop where
  rate : t.rate = s.rate
  kind : t.isIq = s.isIq
  ascending : t.steps.keys.Pairwise (· < ·)
  step : ∃ stored, wave.BoundTo s.rate stored ∧ t.wave? id = some stored ∧
    t.steps.toList.Perm ((id, ⟨stored, requested⟩) :: s.steps.toList)
  interval : t.interval? id = some requested
  others : ∀ j ≠ id, t.wave? j = s.wave? j ∧ t.interval? j = s.interval? j ∧
    t.duration? j = s.duration? j ∧ t.effectiveInterval? j = s.effectiveInterval? j

variable {s : WaveSequence}

theorem get?_withStep_self (s : WaveSequence) (id : UInt32) (step : WaveStep) :
    (s.withStep id step).steps.get? id = some step := SortedMap.get?_insert_self _ _ _

theorem gains_withStep (hs : s.Invariant) {id : UInt32} (new : id ∉ s.steps.keys)
    (room : s.steps.size < s.steps.capacity) (wave : Wave) (interval : Float) :
    s.Gains id wave interval (s.withStep id ⟨wave.attach s.rate, interval⟩) := by
  have holds : s.steps.Holds s.steps.toList := ⟨hs.ascending, .refl _, hs.capacity ▸ hs.size⟩
  have grown := holds.withEntry (e := (id, ⟨wave.attach s.rate, interval⟩)) new room
  have found := s.get?_withStep_self id ⟨wave.attach s.rate, interval⟩
  constructor
  · rfl
  · rfl
  · exact grown.ascending.imp Std.compare_eq_lt.mp
  · refine ⟨wave.attach s.rate, wave.boundTo_attach s.rate, ?_, ?_⟩
    · simp [wave?, found]
    · exact grown.perm.trans (List.perm_append_singleton _ _)
  · simp [interval?, found]
  · intro j other
    have kept : (s.withStep id ⟨wave.attach s.rate, interval⟩).steps.get? j = s.steps.get? j :=
      SortedMap.get?_insert_of_ne _ _ other
    have rate : (s.withStep id ⟨wave.attach s.rate, interval⟩).rate = s.rate := rfl
    simp [wave?, interval?, duration?, effectiveInterval?, kept, rate]

/-- A step is accepted exactly if it passes all checks, and a refused one leaves no trace. -/
theorem accepts_exactly_valid_steps (hs : s.Reachable) (id : UInt32) (wave : Wave)
    (interval : Float) :
    s.steps.capacity = 32 ∧
    ((∃ t, s.add id wave interval = .ok t) ↔
      (interval.isFinite ∧ 0.0 ≤ interval) ∧ wave.isIq = s.isIq ∧
        (∃ n, wave.stepLength? s.rate.val = some n) ∧ id ∉ s.steps.keys ∧ s.steps.size < 32) ∧
    (∀ t, s.add id wave interval = .ok t → s.Gains id wave interval t) ∧
    (∀ fault, s.add id wave interval = .error fault ↔
      ∃ cause, s.refusal? id wave interval = some cause ∧ fault = .argument cause) ∧
    ∀ fault, s.add id wave interval = .error fault →
      afterCall addCall s (id, wave, interval) = s := by
  have limit : s.steps.capacity = 32 := hs.invariant.capacity
  have size : wave.stepLength? s.rate.val ≠ none ↔ ∃ n, wave.stepLength? s.rate.val = some n :=
    Option.ne_none_iff_exists'
  rw [← size, add_eq]
  cases refusal : s.refusal? id wave interval with
  | none =>
    have valid := refusal?_eq_none_iff.mp refusal
    refine ⟨limit, ?_, ?_, by simp, by simp⟩
    · exact iff_of_true ⟨_, rfl⟩ (limit ▸ valid)
    · intro t added
      obtain rfl := Except.ok.inj added
      exact gains_withStep hs.invariant valid.2.2.2.1 valid.2.2.2.2 wave interval
  | some cause =>
    have invalid := mt refusal?_eq_none_iff.mpr (refusal ▸ Option.some_ne_none cause)
    refine ⟨limit, ?_, by simp, by simp [eq_comm], ?_⟩
    · exact iff_of_false (by simp) (limit ▸ invalid)
    · intro fault _
      have refused : s.addCall (id, wave, interval) = .error (.argument cause) := by
        rw [addCall, add_eq, refusal]
      exact afterCall_of_error refused

/-- As many steps as there can be. -/
def full : WaveSequence :=
  afterCalls addCall (empty .thousand false)
    ((List.range 32).map fun i => (i.toUInt32, .single .buffer, 0.0))

/-- That a number is taken is found out before that the sequence is full. Samples without a rate are
stored with that of the sequence. -/
theorem accepts_exactly_valid_steps_full :
    full.add 5 (.single .buffer) 0.0 = .error (.argument (.waveStep 5 (.duplicate 5))) ∧
    full.add 40 (.single .tone) 0.0 = .error (.argument (.waveStep 40 (.full 32))) ∧
    afterCall addCall full (40, .single .tone, 0.0) = full ∧
    ∃ t, lone.add 1 (.single .buffer) 0.0 = .ok t ∧ lone.Gains 1 (.single .buffer) 0.0 t ∧
      ∃ w, t.wave? 1 = some (.single (.sampled w)) ∧
        w.rate = some .thousand ∧ w.samples = #[3, -3, 7] ∧ w.cycles = 3 := by
  have reachable : full.Reachable := (reachable_empty .thousand false).afterCalls _
  obtain ⟨_, _, _, refused, _⟩ := accepts_exactly_valid_steps reachable 5 (.single .buffer) 0.0
  obtain ⟨_, _, _, refused', kept⟩ := accepts_exactly_valid_steps reachable 40 (.single .tone) 0.0
  obtain ⟨_, accepted, gains, _⟩ :=
    accepts_exactly_valid_steps lone_reachable 1 (.single .buffer) 0.0
  have overfull := (refused' _).mpr ⟨.waveStep 40 (.full 32), by decide +kernel, rfl⟩
  obtain ⟨t, added⟩ := accepted.mpr ⟨by decide, rfl, ⟨9, by decide⟩, by decide, by decide⟩
  refine ⟨(refused _).mpr ⟨_, by decide +kernel, rfl⟩, overfull, kept _ overfull, t, added,
    gains t added, ?_⟩
  obtain ⟨stored, bound, found, _⟩ := (gains t added).step
  cases bound with
  | single bound =>
    cases bound with
    | sampled attached samples cycles => exact ⟨_, found, attached, samples, cycles⟩

end WaveSequence
end WaveSequencer
