import WaveSequencer.Proofs.Waves.Admission

/-!
Rates that are attached to waves. A sequence attaches its own rate to a wave that it stores, over
the one that may be there. Main statement: a rate that was attached before makes no difference, and
a stored wave has by itself the duration and the wire form that the sequence computes for its rate.
-/
namespace WaveSequencer
open Numeric Wire

/-- The wave without a rate. -/
def SampledWave.detach (w : SampledWave) : SampledWave := { w with rate := none }

namespace ChannelWave

def detach : ChannelWave → ChannelWave
  | parametric w => parametric w
  | sampled w => sampled w.detach

/-- The wire form of the channel by itself, which samples only have with a rate. -/
def bytes : ChannelWave → Except Fault (List UInt8)
  | parametric w => .ok w.bytes
  | sampled w => w.bytes

@[simp] theorem cycles_detach (w : ChannelWave) : w.detach.cycles = w.cycles := by cases w <;> rfl

@[simp] theorem attach_detach (rate : SamplingRate) (w : ChannelWave) :
    w.detach.attach rate = w.attach rate := by cases w <;> rfl

@[simp] theorem detach_attach (rate : SamplingRate) (w : ChannelWave) :
    (w.attach rate).detach = w.detach := by cases w <;> rfl

@[simp] theorem detach_detach (w : ChannelWave) : w.detach.detach = w.detach := by
  cases w <;> rfl

@[simp] theorem bytes_attach (rate : SamplingRate) (w : ChannelWave) :
    (w.attach rate).bytes = .ok (w.bytesAt rate.val) := by cases w <;> rfl

end ChannelWave

namespace IqWave

def detach (w : IqWave) : IqWave := ⟨w.i.detach, w.q.detach, by simpa using w.same_cycles⟩

def bytes (w : IqWave) : Except Fault (List UInt8) := do
  let i ← w.i.bytes
  let q ← w.q.bytes
  return i ++ q

end IqWave

namespace Wave

def detach : Wave → Wave
  | single w => single w.detach
  | iq w => iq w.detach

def bytes : Wave → Except Fault (List UInt8)
  | single w => w.bytes
  | iq w => w.bytes

@[simp] theorem attach_detach (rate : SamplingRate) (w : Wave) :
    w.detach.attach rate = w.attach rate := by
  cases w <;> simp [attach, detach, IqWave.attach, IqWave.detach]

@[simp] theorem detach_attach (rate : SamplingRate) (w : Wave) :
    (w.attach rate).detach = w.detach := by
  cases w <;> simp [attach, detach, IqWave.attach, IqWave.detach]

@[simp] theorem detach_detach (w : Wave) : w.detach.detach = w.detach := by
  cases w <;> simp [detach, IqWave.detach]

/-- With the same rate attached, only what is not the rate is left to differ. -/
theorem attach_eq_attach_iff {rate : SamplingRate} {v w : Wave} :
    v.attach rate = w.attach rate ↔ v.detach = w.detach := by
  constructor
  · intro same
    rw [← v.detach_attach rate, same, detach_attach]
  · intro same
    rw [← v.attach_detach rate, same, attach_detach]

theorem bytes_attach (rate : SamplingRate) (w : Wave) :
    (w.attach rate).bytes = .ok (w.bytesAt rate.val) := by
  cases w with
  | single w => exact w.bytes_attach rate
  | iq w => simp [attach, bytes, bytesAt, IqWave.attach, IqWave.bytes, IqWave.bytesAt, bind,
      Except.bind, pure, Except.pure]

end Wave

def WaveCall.detach (c : WaveCall) : WaveCall := (c.1, c.2.1.detach, c.2.2)

namespace WaveSequence
variable {s : WaveSequence}

/-- A step in the bytes of a sequence, with the block of its wave. -/
def entryBytes (rate : Float) (e : UInt32 × WaveStep) (block : List UInt8) : List UInt8 :=
  wordBytes e.1 ++ floatBytes (e.2.effectiveInterval rate) ++ block

/-- A step of which the wave by itself is as the sequence has it. -/
structure Binds (s : WaveSequence) (e : UInt32 × WaveStep) : Prop where
  wave : s.wave? e.1 = some e.2.wave
  duration : ∃ time, e.2.wave.duration = .ok time ∧ s.duration? e.1 = some time
  block : e.2.wave.bytes = .ok (e.2.wave.bytesAt s.rate.val)

theorem Reachable.binds (hs : s.Reachable) {e : UInt32 × WaveStep} (he : e ∈ s.steps.toList) :
    s.Binds e := by
  have found : s.steps.get? e.1 = some e.2 := SortedMap.get?_of_mem hs.invariant.ascending he
  have attached := hs.attached e he
  constructor
  · simp [wave?, found]
  · refine ⟨e.2.wave.durationAt s.rate.val, ?_, ?_⟩
    · rw [← attached, Wave.duration_attach, Wave.durationAt_attach]
    · simp [duration?, found, WaveStep.duration]
  · rw [← attached, Wave.bytes_attach, Wave.bytesAt_attach]

/-- What is stored and checked is the wave with the rate of the sequence. -/
theorem add_eq_of_detach_eq {v w : Wave} (h : v.detach = w.detach) (id : UInt32)
    (interval : Float) : s.add id v interval = s.add id w interval := by
  simp only [add, Wave.attach_eq_attach_iff.mpr h]

theorem addCall_detach (s : WaveSequence) (c : WaveCall) : s.addCall c.detach = s.addCall c :=
  add_eq_of_detach_eq c.2.1.detach_detach c.1 c.2.2

/-- A rate that a wave has before it is added makes no difference, and every stored wave has by
itself the duration and the wire form that the sequence computes for it. -/
theorem rebinds_waves (hs : s.Reachable) :
    (∀ v w : Wave, v.detach = w.detach → ∀ id interval,
      s.add id v interval = s.add id w interval) ∧
    (∀ calls : List WaveCall,
      afterCalls addCall s (calls.map (·.detach)) = afterCalls addCall s calls) ∧
    (∀ id w interval t, s.add id w interval = .ok t →
      t.wave? id = some (w.attach s.rate) ∧ (w.attach s.rate).detach = w.detach) ∧
    (∀ e ∈ s.steps.toList, s.wave? e.1 = some e.2.wave ∧
      ∃ time, e.2.wave.duration = .ok time ∧ s.duration? e.1 = some time) ∧
    ∃ blocks, List.Forall₂ (fun e block => e.2.wave.bytes = .ok block) s.steps.toList blocks ∧
      s.bytes = tagBytes ['W', 'S', 'E', 'Q'] ++ floatBytes s.rate.val ++ flagBytes s.isIq ++
        countBytes s.steps.size ++
          (List.zipWith (entryBytes s.rate.val) s.steps.toList blocks).flatten := by
  refine ⟨?_, afterCalls_map addCall_detach s, ?_, ?_, ?_⟩
  · intro v w same id interval
    exact add_eq_of_detach_eq same id interval
  · intro id w interval t added
    obtain ⟨_, _, _, rfl⟩ := add_eq_ok_iff.mp added
    exact ⟨by simp [wave?, get?_withStep_self], w.detach_attach s.rate⟩
  · intro e he
    exact ⟨(hs.binds he).wave, (hs.binds he).duration⟩
  · refine ⟨s.steps.toList.map (·.2.wave.bytesAt s.rate.val), ?_, ?_⟩
    · rw [List.forall₂_map_right_iff, List.forall₂_same]
      intro e he
      exact (hs.binds he).block
    · rw [List.zipWith_map_right, List.zipWith_self]
      rfl

/-- Samples to which the rate of another sequence is attached. -/
def rebound : Wave := (Wave.single .buffer).attach ⟨250.0, by decide⟩

theorem rebinds_waves_rebound :
    lone.add 7 rebound 0.0 = lone.add 7 (.single .buffer) 0.0 ∧
    ∃ time, ((Wave.single .buffer).attach .thousand).duration = .ok time ∧
      lone.duration? 2 = some time := by
  obtain ⟨same, _, _, stored, _⟩ := rebinds_waves lone_reachable
  exact ⟨same _ _ rfl 7 0.0, (stored _ (List.mem_singleton_self _)).2⟩

end WaveSequence
end WaveSequencer
