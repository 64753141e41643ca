import Mathlib
import WaveSequencer.Proofs.Dump.Blocks
import WaveSequencer.Proofs.Dump.Descriptor

/-!
The dump of given step records and words. Main statements: it is well-formed exactly if the rate
is positive, no step comes twice, and every word plays; and what it says is what was written.
-/
namespace WaveSequencer
open Numeric Wire

/-- A step record with its word. -/
structure ImageStep where
  record : StepRecord
  word : StepWord

namespace ImageStep

/-- The step as it is played, for samples that a word refers to. -/
def entry {α : Type} (format : ChannelFormat α) (rate : Float) (samples : StepWord → α)
    (s : ImageStep) : UInt32 × PlayedStep α :=
  (s.record.id, format.timed rate s.record.endless s.word (samples s.word))

end ImageStep

namespace Dump

/-- The buffers that the hardware returns for a sequence of steps, apart from its wave RAM. -/
def image (layout : StepLayout) (isIq : Bool) (rate : Float) (steps : List ImageStep)
    (ram : List UInt8) : Dump where
  descriptor := Descriptor.bytes ⟨isIq, rate.toBits, steps.map (·.record)⟩
  stepWords := steps.flatMap fun s => s.word.block layout
  waveRam := ram

section
variable (layout : ValidLayout) (isIq : Bool) (rate : Float) {steps : List ImageStep}
  (ram : List UInt8)

theorem length_image_descriptor :
    (image layout.toStepLayout isIq rate steps ram).descriptor.length = 16 + 8 * steps.length := by
  rw [image, Descriptor.length_bytes, List.length_map]

theorem length_image_stepWords :
    (image layout.toStepLayout isIq rate steps ram).stepWords.length =
      steps.length * layout.blockSize :=
  length_flatMap_of_length (fun s : ImageStep => s.word.length_block layout) steps

theorem word_image {i : Nat} (hi : i < steps.length) :
    (image layout.toStepLayout isIq rate steps ram).word layout.toStepLayout i = steps[i].word :=
  StepWord.inRegion_flatMap_block layout ImageStep.word hi

section
variable (count : steps.length < 2 ^ 32)
include count

theorem announced_image : (image layout.toStepLayout isIq rate steps ram).announced =
    ⟨isIq, rate.toBits, steps.map (·.record)⟩ := by
  have known : (steps.map (·.record)).length < 2 ^ 32 := by rwa [List.length_map]
  have said := Descriptor.ofBytes_append ⟨isIq, rate.toBits, steps.map (·.record)⟩ known []
  rw [List.append_nil] at said
  exact said

theorem records_image : (List.range (image layout.toStepLayout isIq rate steps ram).stepCount).map
    (image layout.toStepLayout isIq rate steps ram).record = steps.map (·.record) :=
  (Descriptor.mk.inj (announced_image layout isIq rate ram count)).2.2

theorem stepCount_image :
    (image layout.toStepLayout isIq rate steps ram).stepCount = steps.length := by
  have length := congrArg List.length (records_image layout isIq rate ram count)
  rwa [List.length_map, List.length_map, List.length_range] at length

theorem isIq_image : (image layout.toStepLayout isIq rate steps ram).isIq = isIq :=
  (Descriptor.mk.inj (announced_image layout isIq rate ram count)).1

theorem rate_image : (image layout.toStepLayout isIq rate steps ram).rate = rate := by
  obtain ⟨_, bits, _⟩ := Descriptor.mk.inj (announced_image layout isIq rate ram count)
  rw [Dump.rate, bits, Float.ofBits_toBits]

theorem wellFormed_image
    (positive : IsPositive rate) (distinct : (steps.map (·.record.id)).Nodup)
    (plays : ∀ s ∈ steps, s.word.Playable ram)
    (paired : isIq = true → ∀ s ∈ steps, s.word.Paired) :
    (image layout.toStepLayout isIq rate steps ram).WellFormed layout.toStepLayout := by
  have hcount := stepCount_image layout isIq rate ram count
  have hlength : (image layout.toStepLayout isIq rate steps ram).descriptor.length =
      16 + 8 * steps.length := length_image_descriptor layout isIq rate ram
  constructor
  · omega
  · omega
  · rw [rate_image layout isIq rate ram count]
    exact positive
  · have ids := congrArg (List.map StepRecord.id) (records_image layout isIq rate ram count)
    rw [List.map_map, List.map_map] at ids
    exact ids ▸ distinct
  · intro i hi
    rw [length_image_stepWords]
    exact Nat.mul_le_mul_right _ (by omega)
  · intro i hi
    rw [hcount] at hi
    rw [word_image layout isIq rate ram hi]
    exact plays _ (List.getElem_mem hi)
  · intro kind i hi
    rw [isIq_image layout isIq rate ram count] at kind
    rw [hcount] at hi
    rw [word_image layout isIq rate ram hi]
    exact paired kind _ (List.getElem_mem hi)

theorem entries_image {α : Type} (format : ChannelFormat α) (samples : StepWord → α) :
    format.entries layout rate (image layout.toStepLayout isIq rate steps ram) samples 0
      (image layout.toStepLayout isIq rate steps ram).announced.steps =
      steps.map (ImageStep.entry format rate samples) := by
  rw [announced_image layout isIq rate ram count]
  apply List.ext_getElem
  · simp [ChannelFormat.entries]
  · intro i _ known
    rw [List.length_map] at known
    simp [ChannelFormat.entries, ImageStep.entry, word_image layout isIq rate ram known]

theorem playback_image :
    (image layout.toStepLayout isIq rate steps ram).playback layout =
      if isIq then
        .iq ⟨rate, .ofList (steps.map (ImageStep.entry .iq rate (·.iqSamples ram)))⟩
      else
        .real ⟨rate, .ofList (steps.map (ImageStep.entry .real rate (·.realSamples ram)))⟩ := by
  rw [playback, isIq_image layout isIq rate ram count, rate_image layout isIq rate ram count,
    entries_image _ _ _ _ count, entries_image _ _ _ _ count]
  rfl

theorem decode_image (positive : IsPositive rate)
    (distinct : (steps.map (·.record.id)).Nodup) (plays : ∀ s ∈ steps, s.word.Playable ram)
    (paired : isIq = true → ∀ s ∈ steps, s.word.Paired) (d : Bool) :
    ((image layout.toStepLayout isIq rate steps ram).decode layout).value d =
      .ok (if isIq then
        .iq ⟨rate, .ofList (steps.map (ImageStep.entry .iq rate (·.iqSamples ram)))⟩
      else
        .real ⟨rate, .ofList (steps.map (ImageStep.entry .real rate (·.realSamples ram)))⟩) := by
  have fine := wellFormed_image layout isIq rate ram count positive distinct plays paired
  rw [(decode_yieldsIff layout _ d).ok fine, playback_image layout isIq rate ram count]

end
end
end Dump
end WaveSequencer
