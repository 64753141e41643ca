import WaveSequencer.Proofs.SortedMap.Acceptance
import WaveSequencer.Wave.Sequence

/-!
The sequences that come about by creating one and adding waves to it. Adding makes five checks one
after the other, and the first one that fails decides about the fault. What holds of all of these
sequences: steps by ascending number, not too many of them, and every step as it was admitted.
-/
namespace WaveSequencer
open Numeric

/-- What a step of a sequence with the given rate and kind is checked for. -/
structure WaveStep.Admitted (rate : SamplingRate) (isIq : Bool) (step : WaveStep) : Prop where
  interval : IsNonnegative step.interval
  kind : step.wave.isIq = isIq
  size : step.wave.stepLength? rate.val ≠ none

/-- What a sequence is asked to add: a step number, a wave and an interval. -/
abbrev WaveCall : Type := UInt32 × Wave × Float

/-- A sampling rate of 1000 Msps, at which a sample takes a nanosecond. -/
def SamplingRate.thousand : SamplingRate := ⟨1000.0, by decide⟩

/-- What is made from a rate exists exactly if the rate is accepted. -/
theorem SamplingRate.map_check_eq_ok_iff {σ : Type} {make : SamplingRate → σ} {rate : Float}
    {s : σ} : (check rate).map make = .ok s ↔ ∃ h : IsPositive rate, s = make ⟨rate, h⟩ := by
  rw [check]
  split
  · next h =>
    constructor
    · intro created
      exact ⟨h, (Except.ok.inj created).symm⟩
    · rintro ⟨_, rfl⟩
      rfl
  · next h =>
    constructor
    · intro refused
      cases refused
    · rintro ⟨positive, _⟩
      exact absurd positive h

namespace ChannelWave

theorem cycleLength?_attach {rate : Float} (r : SamplingRate) (c : ChannelWave) :
    (c.attach r).cycleLength? rate = c.cycleLength? rate := by cases c <;> rfl

/-- Three cycles of a sine, of four samples each at 1000 Msps. -/
def tone : ChannelWave := .parametric
  { kind := .sine, frequency := 250.0, amplitude := 1000.0, cycles := 3,
    valid := by constructor <;> decide }

/-- Three cycles of three samples. -/
def buffer : ChannelWave := .sampled ⟨#[3, -3, 7], 3, none, by decide, by decide⟩

end ChannelWave

namespace IqWave

def toneAndBuffer : IqWave := ⟨.tone, .buffer, rfl⟩

def buffers : IqWave := ⟨.buffer, .buffer, rfl⟩

end IqWave

namespace Wave
variable {rate : Float}

theorem cycleLength?_attach (r : SamplingRate) (w : Wave) :
    (w.attach r).cycleLength? rate = w.cycleLength? rate := by
  cases w with
  | single w => exact w.cycleLength?_attach r
  | iq w =>
    simp only [attach, IqWave.attach, cycleLength?, IqWave.cycleLength?,
      ChannelWave.cycleLength?_attach]

theorem stepLength?_attach (r : SamplingRate) (w : Wave) :
    (w.attach r).stepLength? rate = w.stepLength? rate := by
  rw [stepLength?, stepLength?, cycleLength?_attach, cycles_attach]

end Wave

namespace WaveSequence

inductive Reachable : WaveSequence → Prop where
  | create {rate : Float} {isIq : Bool} {s : WaveSequence} (h : create rate isIq = .ok s) :
      Reachable s
  | add {s t : WaveSequence} {id : UInt32} {wave : Wave} {interval : Float} (hs : Reachable s)
      (h : s.add id wave interval = .ok t) : Reachable t

structure Invariant (s : WaveSequence) : Prop where
  ascending : s.steps.entries.Ascending
  capacity : s.steps.capacity = Limits.steps
  size : s.steps.size ≤ Limits.steps
  admitted : ∀ e ∈ s.steps.toList, e.2.Admitted s.rate s.isIq

theorem create_eq_ok_iff {rate : Float} {isIq : Bool} {s : WaveSequence} :
    create rate isIq = .ok s ↔ ∃ h : IsPositive rate, s = empty ⟨rate, h⟩ isIq :=
  SamplingRate.map_check_eq_ok_iff

theorem create_empty (rate : SamplingRate) (isIq : Bool) :
    create rate.val isIq = .ok (empty rate isIq) :=
  create_eq_ok_iff.mpr ⟨rate.property, rfl⟩

theorem reachable_empty (rate : SamplingRate) (isIq : Bool) : (empty rate isIq).Reachable :=
  .create (create_empty rate isIq)

/-- The sequence with one more step. -/
def withStep (s : WaveSequence) (id : UInt32) (step : WaveStep) : WaveSequence :=
  { s with steps := { s.steps with entries := s.steps.entries.insert id step } }

/-- What a step is checked for, in this order, and why it is refused if it fails. -/
def checks (s : WaveSequence) (id : UInt32) (wave : Wave) (interval : Float) :
    List (Bool × ArgumentFault) :=
  [(IsNonnegative interval, .interval interval),
    (wave.isIq = s.isIq, .waveKind id s.isIq),
    (wave.stepLength? s.rate.val ≠ none, .waveSize id s.rate.val),
    (id ∉ s.steps.keys, .waveStep id (.duplicate id)),
    (s.steps.size < s.steps.capacity, .waveStep id (.full s.steps.capacity))]

/-- Why a step is refused, if it is. -/
def refusal? (s : WaveSequence) (id : UInt32) (wave : Wave) (interval : Float) :
    Option ArgumentFault := ((s.checks id wave interval).find? (!·.1)).map (·.2)

section
variable {s t : WaveSequence} {id : UInt32} {wave : Wave} {interval : Float}

theorem refusal?_eq_none_iff : s.refusal? id wave interval = none ↔
    IsNonnegative interval ∧ wave.isIq = s.isIq ∧ wave.stepLength? s.rate.val ≠ none ∧
      id ∉ s.steps.keys ∧ s.steps.size < s.steps.capacity := by
  simp [refusal?, checks]

/-- All that adding a wave does: the first check that fails decides about the fault. -/
theorem add_eq : s.add id wave interval =
    match s.refusal? id wave interval with
    | some cause => .error (.argument cause)
    | none => .ok (s.withStep id ⟨wave.attach s.rate, interval⟩) := by
  simp only [add, refusal?, checks, Wave.isIq_attach, Wave.stepLength?_attach]
  by_cases valid : IsNonnegative interval
  · by_cases kind : wave.isIq = s.isIq
    · by_cases size : wave.stepLength? s.rate.val = none
      · simp [valid, kind, size]
      · -- The bounded map finds out by itself that a number is taken or that it is full.
        by_cases taken : id ∈ s.steps.keys
        · have refused := BoundedMap.insert_of_mem (e := (id, ⟨wave.attach s.rate, interval⟩)) taken
          simp [valid, kind, size, taken, refused]
        · by_cases room : s.steps.size < s.steps.capacity
          · have inserted := BoundedMap.insert_eq_ok_iff_not_mem
              (e := (id, ⟨wave.attach s.rate, interval⟩)) |>.mpr ⟨taken, room, rfl⟩
            simp [valid, kind, size, taken, room, inserted, withStep, BoundedMap.withEntry]
          · have refused := BoundedMap.insert_of_full (e := (id, ⟨wave.attach s.rate, interval⟩))
              taken (Nat.not_lt.mp room)
            simp [valid, kind, size, taken, room, refused]
    · simp [valid, kind]
  · simp [valid]

theorem add_eq_ok_iff : s.add id wave interval = .ok t ↔
    WaveStep.Admitted s.rate s.isIq ⟨wave.attach s.rate, interval⟩ ∧
      s.steps.entries.contains id = false ∧ s.steps.size < s.steps.capacity ∧
      t = s.withStep id ⟨wave.attach s.rate, interval⟩ := by
  have free : s.steps.entries.contains id = false ↔ id ∉ s.steps.keys := by
    rw [Bool.eq_false_iff, ne_eq, SortedMap.contains_eq_true_iff]
    rfl
  rw [add_eq, free]
  cases refusal : s.refusal? id wave interval with
  | none =>
    obtain ⟨valid, kind, size, new, room⟩ := refusal?_eq_none_iff.mp refusal
    have admitted : WaveStep.Admitted s.rate s.isIq ⟨wave.attach s.rate, interval⟩ :=
      ⟨valid, by rwa [Wave.isIq_attach], by rwa [Wave.stepLength?_attach]⟩
    simp [admitted, new, room, eq_comm]
  | some cause =>
    have invalid := mt refusal?_eq_none_iff.mpr (refusal ▸ Option.some_ne_none cause)
    constructor
    · intro refused
      cases refused
    · rintro ⟨⟨valid, kind, size⟩, new, room, _⟩
      rw [Wave.isIq_attach] at kind
      rw [Wave.stepLength?_attach] at size
      exact absurd ⟨valid, kind, size, new, room⟩ invalid

end

theorem invariant_empty (rate : SamplingRate) (isIq : Bool) : (empty rate isIq).Invariant where
  ascending := SortedMap.ascending_empty
  capacity := rfl
  size := Nat.zero_le _
  admitted _ he := absurd he List.not_mem_nil

theorem Invariant.add {s t : WaveSequence} {id : UInt32} {wave : Wave} {interval : Float}
    (hs : s.Invariant) (h : s.add id wave interval = .ok t) : t.Invariant := by
  obtain ⟨admitted, _, room, rfl⟩ := add_eq_ok_iff.mp h
  constructor
  · exact hs.ascending.insert _ _
  · exact hs.capacity
  · have grown := SortedMap.length_insertEntry_le id ⟨wave.attach s.rate, interval⟩
      s.steps.entries.toList
    have limit := hs.capacity
    exact Nat.le_trans grown (limit ▸ room)
  · intro e he
    rcases SortedMap.mem_insertEntry he with rfl | old
    · exact admitted
    · exact hs.admitted e old

theorem Reachable.invariant {s : WaveSequence} (h : s.Reachable) : s.Invariant := by
  induction h with
  | create h =>
    obtain ⟨positive, rfl⟩ := create_eq_ok_iff.mp h
    exact invariant_empty _ _
  | add _ h ih => exact ih.add h

/-- Every wave is stored with the rate of the sequence attached. -/
theorem Reachable.attached {s : WaveSequence} (h : s.Reachable) :
    ∀ e ∈ s.steps.toList, e.2.wave.attach s.rate = e.2.wave := by
  induction h with
  | create h =>
    obtain ⟨positive, rfl⟩ := create_eq_ok_iff.mp h
    intro e he
    exact absurd he List.not_mem_nil
  | add _ h ih =>
    obtain ⟨_, _, _, rfl⟩ := add_eq_ok_iff.mp h
    intro e he
    rcases SortedMap.mem_insertEntry he with rfl | old
    · exact Wave.attach_attach _ _
    · exact ih e old

def addCall (s : WaveSequence) (c : WaveCall) : Except Fault WaveSequence := s.add c.1 c.2.1 c.2.2

theorem Reachable.afterCalls {s : WaveSequence} (h : s.Reachable) (calls : List WaveCall) :
    (afterCalls addCall s calls).Reachable :=
  afterCalls_induction (fun reachable called => reachable.add called) h calls

end WaveSequence
end WaveSequencer
