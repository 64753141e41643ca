import WaveSequencer.Proofs.Waves.Playing

/-!
Sequences of waves as the hardware stores them: of each step one cycle, and how often it is played.
Main statement: the dump of a programmed sequence decodes to the same samples that playing the
sequence yields.
-/
namespace WaveSequencer
open Numeric Wire

/-- Where the hardware puts the samples of a step, and when it starts the next one. The last cycle
may be stored with the other ones or by itself. -/
structure Placement where
  startAddress : UInt32
  lastStartAddress : UInt32
  interval : UInt64

/-- What is stored for a step. -/
def StoredStep.ofEntry {α : Type} (place : UInt32 → Placement) (cycle : Wave → α)
    (e : UInt32 × WaveStep) : StoredStep α where
  number := e.1
  endless := false
  startAddress := (place e.1).startAddress
  primary := cycle e.2.wave
  lastStartAddress := (place e.1).lastStartAddress
  last := cycle e.2.wave
  cycles := e.2.wave.cycles
  interval := (place e.1).interval
  cycles_pos := e.2.wave.cycles_pos

/-- The cycles before the last one and the last one are all cycles. -/
theorem StoredStep.played_ofEntry {α β : Type} (place : UInt32 → Placement) (cycle : Wave → α)
    (e : UInt32 × WaveStep) (channel : α → List β) :
    (ofEntry place cycle e).played channel =
      Samples.repeated e.2.wave.cycles.toNat (channel (cycle e.2.wave)) := by
  have pos := UInt32.le_iff_toNat_le.mp e.2.wave.cycles_pos
  obtain ⟨n, hn⟩ : ∃ n, e.2.wave.cycles.toNat = n + 1 := Nat.exists_eq_add_of_le' pos
  rw [played, Samples.repeated_eq]
  change (List.replicate (e.2.wave.cycles.toNat - 1) (channel (cycle e.2.wave))).flatten ++
    channel (cycle e.2.wave) = _
  rw [hn, Nat.add_sub_cancel, List.replicate_succ', List.flatten_append, List.flatten_singleton]

namespace WaveSequence
variable (place : UInt32 → Placement) (s : WaveSequence)

/-- The sequence as it is stored, by ascending step number. -/
def recording : Recording :=
  if s.isIq then
    .iq (s.steps.toList.map (StoredStep.ofEntry place (·.iqCycle s.rate.val)))
  else
    .real (s.steps.toList.map (StoredStep.ofEntry place (·.realCycle s.rate.val)))

theorem numbers_recording : (s.recording place).numbers = s.steps.keys := by
  rw [recording]
  split <;> exact List.map_map

end WaveSequence

/-- The samples of each step under its number. -/
def PlayedSequence.samples {α : Type} (p : PlayedSequence α) : SortedMap UInt32 α :=
  p.steps.mapValues (·.samples)

/-- The same kind, the same rate, the same step numbers, and the same samples in each step. -/
def Playback.SameSamples : Playback → Playback → Prop
  | .real p, .real q => p.rate = q.rate ∧ p.samples = q.samples
  | .iq p, .iq q => p.rate = q.rate ∧ p.samples = q.samples
  | _, _ => False

theorem PlayedSequence.samples_ofList {α β : Type} (rate : Float) (f g : β → UInt32 × PlayedStep α)
    {xs : List β} (h : ∀ x ∈ xs, (f x).1 = (g x).1 ∧ (f x).2.samples = (g x).2.samples) :
    (⟨rate, .ofList (xs.map f)⟩ : PlayedSequence α).samples =
      (⟨rate, .ofList (xs.map g)⟩ : PlayedSequence α).samples := by
  simp only [samples, SortedMap.mapValues_ofList, List.map_map]
  congr 1
  apply List.map_congr_left
  intro x hx
  obtain ⟨id, samples⟩ := h x hx
  rw [Function.comp_apply, Function.comp_apply, id, samples]

namespace WaveSequence
variable (s : WaveSequence) (place : UInt32 → Placement)

theorem playback_recording_same_samples :
    ((s.recording place).playback s.rate.val).SameSamples s.playback := by
  cases kind : s.isIq with
  | true =>
    simp only [recording, playback, kind, if_true, Recording.playback, List.map_map]
    refine ⟨rfl, ?_⟩
    apply PlayedSequence.samples_ofList
    intro e _
    refine ⟨rfl, ?_⟩
    change (StoredStep.ofEntry place (·.iqCycle s.rate.val) e).playedIq = _
    rw [StoredStep.playedIq, StoredStep.played_ofEntry, StoredStep.played_ofEntry]
    rfl
  | false =>
    simp only [recording, playback, kind, Bool.false_eq_true, if_false, Recording.playback,
      List.map_map]
    refine ⟨rfl, ?_⟩
    apply PlayedSequence.samples_ofList
    intro e _
    refine ⟨rfl, ?_⟩
    exact StoredStep.played_ofEntry place (·.realCycle s.rate.val) e id

variable {s place}

/-- The dump of a programmed sequence decodes to the samples that playing the sequence yields,
wherever they are stored. -/
theorem dump_recording_same_samples (layout : ValidLayout) (hs : s.Reachable) {ram : List UInt8}
    (stored : (s.recording place).InRam ram) (d : Bool) :
    ∃ p q, (((s.recording place).dump layout.toStepLayout s.rate.val ram).decode layout).value d =
        .ok p ∧ s.play.value d = .ok q ∧ p.SameSamples q := by
  have inv := hs.invariant
  have numbers := s.numbers_recording place
  have distinct : (s.recording place).numbers.Nodup := numbers ▸ inv.ascending.nodup
  have count : (s.recording place).numbers.length < 2 ^ 32 := by
    rw [numbers]
    exact Nat.lt_of_le_of_lt (Nat.le_trans (Nat.le_of_eq (SortedMap.length_keys _)) inv.size)
      (by decide)
  exact ⟨_, _, Recording.decode_dump layout s.rate.property distinct count stored d,
    value_play inv d, playback_recording_same_samples s place⟩

/-- Two samples in one channel and one sample in the other, each channel played twice. -/
def unequalWave : Wave :=
  .iq ⟨.sampled ⟨#[3, -3], 2, none, by decide, by decide⟩,
    .sampled ⟨#[7], 2, none, by decide, by decide⟩, rfl⟩

def unequal : WaveSequence :=
  (empty .thousand true).withStep 4 ⟨unequalWave.attach .thousand, 0.0⟩

theorem dump_unequal_same_samples : ∃ p q,
    (((unequal.recording fun _ => ⟨0, 0, 0⟩).dump {} 1000.0 (samplesBytes [3, 7, -3, 0])).decode
      {}).value false = .ok p ∧ unequal.play.value false = .ok q ∧ p.SameSamples q := by
  have created : (empty .thousand true).Reachable :=
    .create (create_eq_ok_iff.mpr ⟨by decide, rfl⟩)
  have added : (empty .thousand true).add 4 unequalWave 0.0 = .ok unequal :=
    add_eq_ok_iff.mpr ⟨⟨by decide, rfl, by decide⟩, rfl, by decide, rfl⟩
  have held : HoldsAt (samplesBytes [3, 7, -3, 0]) 0 [3, 7, -3, 0] := ⟨[], [], rfl, rfl⟩
  have stored : (unequal.recording fun _ => ⟨0, 0, 0⟩).InRam (samplesBytes [3, 7, -3, 0]) := by
    intro t ht
    obtain rfl := List.mem_singleton.mp ht
    exact ⟨held, held, by decide, by decide⟩
  exact dump_recording_same_samples {} (created.add added) stored false

end WaveSequence
end WaveSequencer
