import WaveSequencer.Proofs.Dump.Image

/-!
Recordings: the steps of a sequence with the samples that the hardware stores for them. Main
statement: wherever the samples lie in the wave RAM, shared or not, the dump of a recording
decodes to all cycles of every step.
-/
namespace WaveSequencer
open Numeric Wire

/-- The samples lie in the RAM from the address on. -/
def HoldsAt (ram : List UInt8) (address : UInt32) (samples : List Int16) : Prop :=
  ∃ before after, ram = before ++ samplesBytes samples ++ after ∧ before.length = address.toNat

/-- A step with its samples in the form `α` of one channel or of two, those of all cycles but the
last one and those of the last one. -/
structure StoredStep (α : Type) where
  number : UInt32
  endless : Bool
  startAddress : UInt32
  primary : α
  lastStartAddress : UInt32
  last : α
  cycles : UInt32
  interval : UInt64
  cycles_pos : 1 ≤ cycles := by decide

/-- Two equally long channels, so that none has samples left over when they take turns. -/
structure PairedSamples extends IqSamples where
  same_length : i.length = q.length := by rfl

namespace HoldsAt
variable {ram : List UInt8} {address : UInt32} {samples : List Int16}

theorem end_le (h : HoldsAt ram address samples) :
    address.toNat + 2 * samples.length ≤ ram.length := by
  obtain ⟨before, after, rfl, hbefore⟩ := h
  simp only [List.length_append, length_samplesBytes]
  omega

theorem samplesOfBytes_slice (h : HoldsAt ram address samples) :
    samplesOfBytes (slice ram address.toNat (2 * samples.length)) = samples := by
  obtain ⟨before, after, rfl, hbefore⟩ := h
  have stored := slice_append_middle (b := samplesBytes samples) (c := after) hbefore
  rw [length_samplesBytes] at stored
  rw [stored, samplesOfBytes_samplesBytes]

end HoldsAt

namespace StoredStep
variable {α : Type} (flat : α → List Int16)

/-- The record and the word of a step, for samples that lie in the RAM in the given order. -/
def image (s : StoredStep α) : ImageStep where
  record := ⟨s.number, s.endless⟩
  word :=
    { startAddress := s.startAddress
      sampleCount := (flat s.primary).length.toUInt32
      lastStartAddress := s.lastStartAddress
      lastSampleCount := (flat s.last).length.toUInt32
      cycles := s.cycles
      interval := s.interval }

/-- The RAM holds what the word of the step says. -/
structure InRam (ram : List UInt8) (s : StoredStep α) : Prop where
  primary : HoldsAt ram s.startAddress (flat s.primary)
  last : HoldsAt ram s.lastStartAddress (flat s.last)
  primaryCount : (flat s.primary).length < 2 ^ 32
  lastCount : (flat s.last).length < 2 ^ 32

namespace InRam
variable {flat} {ram : List UInt8} {s : StoredStep α}

theorem sampleCount_eq (h : s.InRam flat ram) :
    (s.image flat).word.sampleCount.toNat = (flat s.primary).length :=
  Nat.mod_eq_of_lt h.primaryCount

theorem lastSampleCount_eq (h : s.InRam flat ram) :
    (s.image flat).word.lastSampleCount.toNat = (flat s.last).length :=
  Nat.mod_eq_of_lt h.lastCount

theorem playable (h : s.InRam flat ram) : (s.image flat).word.Playable ram := by
  constructor
  · exact UInt32.le_iff_toNat_le.mp s.cycles_pos
  · rw [h.sampleCount_eq]
    exact h.primary.end_le
  · rw [h.lastSampleCount_eq]
    exact h.last.end_le

theorem primarySamples_eq (h : s.InRam flat ram) :
    (s.image flat).word.primarySamples ram = flat s.primary := by
  rw [StepWord.primarySamples, h.sampleCount_eq]
  exact h.primary.samplesOfBytes_slice

theorem lastSamples_eq (h : s.InRam flat ram) :
    (s.image flat).word.lastSamples ram = flat s.last := by
  rw [StepWord.lastSamples, h.lastSampleCount_eq]
  exact h.last.samplesOfBytes_slice

end InRam

/-- All cycles of one channel. -/
def played {β : Type} (s : StoredStep α) (channel : α → List β) : List β :=
  (List.replicate (s.cycles.toNat - 1) (channel s.primary)).flatten ++ channel s.last

/-- All cycles of both channels. -/
def playedIq (s : StoredStep PairedSamples) : IqSamples := ⟨s.played (·.i), s.played (·.q)⟩

end StoredStep

namespace Samples
variable {α : Type}

theorem length_interleaved {as bs : List α} (h : as.length = bs.length) :
    (interleaved as bs).length = 2 * as.length := by
  induction as generalizing bs with
  | nil => cases bs <;> rfl
  | cons a as ih =>
    cases bs with
    | nil => simp at h
    | cons b bs =>
      simp only [interleaved, List.length_cons, ih (Nat.succ.inj h)]
      omega

end Samples

namespace PairedSamples
variable (samples : PairedSamples)

/-- The order in which the wave RAM has the samples. -/
def inTurns : List Int16 := Samples.interleaved samples.i samples.q

theorem length_inTurns : samples.inTurns.length = 2 * samples.i.length :=
  Samples.length_interleaved samples.same_length

theorem ofPairs_inTurns : IqSamples.ofPairs samples.inTurns = samples.toIqSamples := by
  rw [IqSamples.ofPairs, inTurns, Samples.channels_interleaved samples.same_length]

end PairedSamples

namespace StoredStep
variable {α β : Type}

/-- The step as it is played. -/
def entry (format : ChannelFormat α) (flat : β → List Int16) (played : StoredStep β → α)
    (rate : Float) (s : StoredStep β) : UInt32 × PlayedStep α :=
  (s.number, format.timed rate s.endless (s.image flat).word (played s))

variable {rate : Float} {ram : List UInt8}

theorem entry_real {s : StoredStep (List Int16)} (h : s.InRam id ram) :
    (s.image id).entry .real rate (·.realSamples ram) = s.entry .real id (·.played id) rate := by
  rw [ImageStep.entry, StepWord.realSamples, h.primarySamples_eq, h.lastSamples_eq,
    StepWord.played, Samples.repeated_eq]
  rfl

theorem entry_iq {s : StoredStep PairedSamples} (h : s.InRam (·.inTurns) ram) :
    (s.image (·.inTurns)).entry .iq rate (·.iqSamples ram) =
      s.entry .iq (·.inTurns) (·.playedIq) rate := by
  rw [ImageStep.entry, StepWord.iqSamples, h.primarySamples_eq, h.lastSamples_eq,
    PairedSamples.ofPairs_inTurns, PairedSamples.ofPairs_inTurns, StepWord.played,
    StepWord.played, Samples.repeated_eq, Samples.repeated_eq]
  rfl

theorem paired {s : StoredStep PairedSamples} (h : s.InRam (·.inTurns) ram) :
    (s.image (·.inTurns)).word.Paired := by
  constructor
  · rw [h.sampleCount_eq, PairedSamples.length_inTurns, Nat.mul_mod_right]
  · rw [h.lastSampleCount_eq, PairedSamples.length_inTurns, Nat.mul_mod_right]

end StoredStep

/-- The steps of a sequence of either kind, in the order in which they are executed. -/
inductive Recording where
  | real (steps : List (StoredStep (List Int16)))
  | iq (steps : List (StoredStep PairedSamples))

namespace Recording

def isIq : Recording → Bool
  | real _ => false
  | iq _ => true

def numbers : Recording → List UInt32
  | real steps => steps.map (·.number)
  | iq steps => steps.map (·.number)

def images : Recording → List ImageStep
  | real steps => steps.map (·.image id)
  | iq steps => steps.map (·.image (·.inTurns))

/-- The RAM holds the samples of all steps. -/
def InRam (ram : List UInt8) : Recording → Prop
  | real steps => ∀ s ∈ steps, s.InRam id ram
  | iq steps => ∀ s ∈ steps, s.InRam (·.inTurns) ram

/-- The dump of a recording. -/
def dump (layout : StepLayout) (rate : Float) (ram : List UInt8) (r : Recording) : Dump :=
  .image layout r.isIq rate r.images ram

end Recording

/-- The given steps and no others are played, each under its number with all of its cycles. The
time of its samples is without end for an endless step. -/
structure PlayedSequence.Plays {α β : Type} (p : PlayedSequence α) (rate : Float)
    (time : α → Float) (played : StoredStep β → α) (steps : List (StoredStep β)) : Prop where
  rate : p.rate = rate
  ascending : p.steps.keys.Pairwise (· < ·)
  numbers : p.steps.keys.Perm (steps.map (·.number))
  step : ∀ s ∈ steps, ∃ q, p.steps.get? s.number = some q ∧ q.samples = played s ∧
    q.duration = (if s.endless then infinity else time (played s)) ∧
    q.interval = larger (Units.tickTime s.interval) q.duration

namespace StoredStep
variable {α β : Type} (format : ChannelFormat α) (flat : β → List Int16)
  (played : StoredStep β → α) (rate : Float)

theorem plays_ofList {steps : List (StoredStep β)} (distinct : (steps.map (·.number)).Nodup) :
    (⟨rate, .ofList (steps.map (entry format flat played rate))⟩ : PlayedSequence α).Plays rate
      (fun samples => format.timeFactor * Units.sampleTime (format.length samples) rate)
      played steps := by
  have numbers : (steps.map (entry format flat played rate)).map (·.1) =
      steps.map (·.number) := by
    rw [List.map_map]
    rfl
  have distinct' := numbers ▸ distinct
  constructor
  · rfl
  · exact (SortedMap.ascending_ofList _).imp Std.compare_eq_lt.mp
  · rw [← numbers]
    exact SortedMap.keys_ofList_perm distinct'
  · intro s hs
    exact ⟨_, SortedMap.get?_ofList_of_mem distinct' (List.mem_map_of_mem hs), rfl, rfl, rfl⟩

end StoredStep

namespace Recording
variable (rate : Float)

/-- The hardware puts out a sample of two channels for twice the time. -/
def Plays : Recording → Playback → Prop
  | real steps, .real p =>
    p.Plays rate (fun samples => 1.0 * Units.sampleTime samples.length rate) (·.played id) steps
  | iq steps, .iq p =>
    p.Plays rate (fun samples => 2.0 * Units.sampleTime samples.i.length rate) (·.playedIq) steps
  | _, _ => False

def playback : Recording → Playback
  | real steps => .real ⟨rate, .ofList (steps.map (StoredStep.entry .real id (·.played id) rate))⟩
  | iq steps =>
    .iq ⟨rate, .ofList (steps.map (StoredStep.entry .iq (·.inTurns) (·.playedIq) rate))⟩

theorem plays_playback {r : Recording} (distinct : r.numbers.Nodup) :
    r.Plays rate (r.playback rate) := by
  cases r with
  | real steps => exact StoredStep.plays_ofList .real id (·.played id) rate distinct
  | iq steps => exact StoredStep.plays_ofList .iq (·.inTurns) (·.playedIq) rate distinct

theorem images_numbers (r : Recording) : r.images.map (·.record.id) = r.numbers := by
  cases r <;> simp [images, numbers, StoredStep.image, Function.comp_def]

variable {rate}

theorem decode_dump (layout : ValidLayout) {r : Recording} {ram : List UInt8}
    (positive : IsPositive rate) (distinct : r.numbers.Nodup) (count : r.numbers.length < 2 ^ 32)
    (stored : r.InRam ram) (d : Bool) :
    ((r.dump layout.toStepLayout rate ram).decode layout).value d = .ok (r.playback rate) := by
  have hcount : r.images.length < 2 ^ 32 := by
    rwa [← r.images_numbers, List.length_map] at count
  have hdistinct : (r.images.map (·.record.id)).Nodup := by rwa [images_numbers]
  have decoded (plays : ∀ s ∈ r.images, s.word.Playable ram)
      (paired : r.isIq = true → ∀ s ∈ r.images, s.word.Paired) :=
    Dump.decode_image layout r.isIq rate ram hcount positive hdistinct plays paired d
  cases r with
  | real steps =>
    have plays : ∀ s ∈ (real steps).images, s.word.Playable ram := by
      rw [images, List.forall_mem_map]
      intro s hs
      exact (stored s hs).playable
    rw [dump, decoded plays (fun kind => by cases kind)]
    have entries : (real steps).images.map (ImageStep.entry .real rate (·.realSamples ram)) =
        steps.map (StoredStep.entry .real id (·.played id) rate) := by
      rw [images, List.map_map]
      apply List.map_congr_left
      intro s hs
      exact StoredStep.entry_real (stored s hs)
    rw [entries]
    rfl
  | iq steps =>
    have plays : ∀ s ∈ (iq steps).images, s.word.Playable ram := by
      rw [images, List.forall_mem_map]
      intro s hs
      exact (stored s hs).playable
    have paired : ∀ s ∈ (iq steps).images, s.word.Paired := by
      rw [images, List.forall_mem_map]
      intro s hs
      exact StoredStep.paired (stored s hs)
    rw [dump, decoded plays fun _ => paired]
    have entries : (iq steps).images.map (ImageStep.entry .iq rate (·.iqSamples ram)) =
        steps.map (StoredStep.entry .iq (·.inTurns) (·.playedIq) rate) := by
      rw [images, List.map_map]
      apply List.map_congr_left
      intro s hs
      exact StoredStep.entry_iq (stored s hs)
    rw [entries]
    rfl

/-- A dump plays what was recorded, whatever the layout of its words, the order of the steps and
the places of the samples are. -/
theorem dump_plays (layout : ValidLayout) {r : Recording} {ram : List UInt8}
    (positive : IsPositive rate) (distinct : r.numbers.Nodup) (count : r.numbers.length < 2 ^ 32)
    (stored : r.InRam ram) (d : Bool) :
    (∀ s ∈ r.images, s.word.bytes layout.toStepLayout = .ok (s.word.block layout.toStepLayout)) ∧
    ∃ p, ((r.dump layout.toStepLayout rate ram).decode layout).value d = .ok p ∧ r.Plays rate p := by
  constructor
  · intro s _
    exact s.word.bytes_eq layout
  · exact ⟨_, decode_dump layout positive distinct count stored d, plays_playback rate distinct⟩

/-- An endless step with a shorter last cycle, and a step whose only cycle shares the samples. -/
def shared : Recording := .real
  [{ number := 7, endless := true, startAddress := 0, primary := [1, -2], lastStartAddress := 4,
     last := [5], cycles := 3, interval := 300 },
   { number := 3, endless := false, startAddress := 0, primary := [1, -2], lastStartAddress := 0,
     last := [1, -2], cycles := 1, interval := 0 }]

theorem dump_plays_shared : ∃ p,
    ((shared.dump {} 500.0 (samplesBytes [1, -2, 5])).decode {}).value false = .ok p ∧
      shared.Plays 500.0 p := by
  have stored : shared.InRam (samplesBytes [1, -2, 5]) := by
    have pair : HoldsAt (samplesBytes [1, -2, 5]) 0 [1, -2] := ⟨[], samplesBytes [5], rfl, rfl⟩
    have single : HoldsAt (samplesBytes [1, -2, 5]) 4 [5] := ⟨samplesBytes [1, -2], [], rfl, rfl⟩
    intro s hs
    rcases List.mem_pair.mp hs with rfl | rfl
    · exact ⟨pair, single, by decide, by decide⟩
    · exact ⟨pair, pair, by decide, by decide⟩
  exact (dump_plays {} (by decide) (by decide) (by decide) stored false).2

end Recording
end WaveSequencer
