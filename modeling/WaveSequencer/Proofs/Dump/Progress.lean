import WaveSequencer.Proofs.Dump.StepSizes
import WaveSequencer.Proofs.Dump.WellFormed

/-!
What decoding a dump logs. Main statement: the debug events are those of the steps before the first
one that fails, in the order of the descriptor, and the event of the whole sequence follows exactly
if there is a result.
-/
namespace WaveSequencer
open Log Numeric Wire

namespace Attempt
variable {α : Type}

end Attempt

namespace Dump
variable (dump : Dump) (layout : StepLayout)

/-- The header and the records are there, and the rate is a positive number. -/
structure HeaderSound : Prop where
  header : 16 ≤ dump.descriptor.length
  records : 16 + 8 * dump.stepCount ≤ dump.descriptor.length
  rate : IsPositive dump.rate

/-- The step of record `k` can be decoded: it does not come a second time, the block of its word is
there, and its samples are, in whole pairs if there are two channels. -/
structure StepDecodes (k : ℕ) : Prop where
  new : ∀ j < k, (dump.record j).id ≠ (dump.record k).id
  block : (k + 1) * layout.blockSize ≤ dump.stepWords.length
  plays : (dump.word layout k).Playable dump.waveRam
  paired : dump.isIq = true → (dump.word layout k).Paired

/-- Of the steps, `m` are decoded: those before the first one that cannot be, and none at all
without a header. -/
structure Reaches (m : ℕ) : Prop where
  le : m ≤ dump.stepCount
  decoded : ∀ k < m, dump.HeaderSound ∧ dump.StepDecodes layout k
  stopped : m < dump.stepCount → ¬(dump.HeaderSound ∧ dump.StepDecodes layout m)

/-- The numbers that are taken are those of the records before `index`. -/
def Taken {α : Type} (index : ℕ) (steps : SortedMap UInt32 α) : Prop :=
  ∀ id, id ∈ steps.keys ↔ ∃ j < index, (dump.record j).id = id

variable {dump layout}

theorem Taken.insert {α : Type} {index : ℕ} {steps : SortedMap UInt32 α}
    (taken : dump.Taken index steps) (step : α) :
    dump.Taken (index + 1) (steps.insert (dump.record index).id step) := by
  intro id
  rw [SortedMap.mem_keys_insert, taken, Nat.exists_lt_succ_right, or_comm, eq_comm]

theorem Taken.contains_iff {α : Type} {index : ℕ} {steps : SortedMap UInt32 α}
    (taken : dump.Taken index steps) : steps.contains (dump.record index).id = true ↔
      ¬∀ j < index, (dump.record j).id ≠ (dump.record index).id := by
  rw [SortedMap.contains_eq_true_iff, taken]
  simp

/-- A well-formed dump is one of which all steps are decoded. -/
theorem Reaches.wellFormed_iff {m : ℕ} (reaches : dump.Reaches layout m) :
    dump.WellFormed layout ↔ dump.HeaderSound ∧ m = dump.stepCount := by
  have distinct : ((List.range dump.stepCount).map fun i => (dump.record i).id).Nodup ↔
      ∀ k < dump.stepCount, ∀ j < k, (dump.record j).id ≠ (dump.record k).id := by
    rw [List.nodup_map_iff_inj_on List.nodup_range]
    simp only [List.mem_range]
    constructor
    · intro injective k hk j hj same
      exact absurd (injective j (Nat.lt_trans hj hk) k hk same) (Nat.ne_of_lt hj)
    · intro new j hj k hk same
      rcases Nat.lt_trichotomy j k with before | rfl | after
      · exact absurd same (new k hk j before)
      · rfl
      · exact absurd same.symm (new j hj k after)
  constructor
  · intro fine
    have sound : dump.HeaderSound := ⟨fine.header, fine.records, fine.rate⟩
    refine ⟨sound, Nat.le_antisymm reaches.le (Nat.not_lt.mp fun early => ?_)⟩
    exact reaches.stopped early ⟨sound, distinct.mp fine.distinct m early, fine.blocks m early,
      fine.playable m early, fun kind => fine.paired kind m early⟩
  · rintro ⟨sound, rfl⟩
    exact ⟨sound.header, sound.records, sound.rate,
      distinct.mpr fun k hk => (reaches.decoded k hk).2.new,
      fun k hk => (reaches.decoded k hk).2.block, fun k hk => (reaches.decoded k hk).2.plays,
      fun kind k hk => (reaches.decoded k hk).2.paired kind⟩

end Dump

namespace ChannelFormat
variable {α : Type} {format : ChannelFormat α} {layout : ValidLayout} {dump : Dump}
  {samples : StepWord → α} (rate : Float)

/-- The step of record `k`, for a format that decodes the samples of words. -/
def played (format : ChannelFormat α) (layout : StepLayout) (dump : Dump)
    (samples : StepWord → α) (rate : Float) (k : ℕ) : PlayedStep α :=
  format.timed rate (dump.record k).endless (dump.word layout k) (samples (dump.word layout k))

end ChannelFormat

namespace Dump
variable {dump : Dump} {layout : ValidLayout}

end Dump

namespace ChannelFormat
variable {α : Type} {format : ChannelFormat α} {layout : ValidLayout} {dump : Dump}
  {samples : StepWord → α} {rate : Float}

theorem entries_announced : format.entries layout rate dump samples 0 dump.announced.steps =
    (List.range dump.stepCount).map fun k =>
      ((dump.record k).id, format.played layout.toStepLayout dump samples rate k) := by
  apply List.ext_getElem
  · simp [entries, Dump.announced]
  · intro k _ _
    simp [entries, Dump.announced, played]

variable (format samples rate) in
/-- As many steps are returned as there are records, each one under its number. -/
theorem ofList_entries (fine : dump.WellFormed layout.toStepLayout) :
    (SortedMap.ofList (format.entries layout rate dump samples 0 dump.announced.steps)).size =
      dump.stepCount ∧
    ∀ k < dump.stepCount,
      (SortedMap.ofList (format.entries layout rate dump samples 0 dump.announced.steps)).get?
        (dump.record k).id = some (format.played layout.toStepLayout dump samples rate k) := by
  have distinct := fine.distinct
  rw [entries_announced]
  constructor
  · rw [← SortedMap.length_keys, (SortedMap.keys_ofList_perm _).length_eq]
    · simp
    · simpa [Function.comp_def] using distinct
  · intro k hk
    refine SortedMap.get?_ofList_of_mem ?_ (List.mem_map_of_mem (List.mem_range.mpr hk))
    simpa [Function.comp_def] using distinct

end ChannelFormat

namespace Playback

def stepCount : Playback → ℕ
  | real s => s.steps.size
  | iq s => s.steps.size

end Playback

namespace Dump
variable (layout : ValidLayout) (dump : Dump)

end Dump
end WaveSequencer
