import WaveSequencer.Proofs.Dump.Overwrite
import WaveSequencer.Proofs.Dump.Words

/-!
Writing step words. Each field of a written block holds its number, since the fields that are
written later lie elsewhere, and a region of written blocks gives every word back.
-/
namespace WaveSequencer
open Wire

namespace StepWord

theorem field_lt (w : StepWord) (f : WordField) : w.field f < 256 ^ f.width := by
  cases f
  · exact w.startAddress.toNat_lt
  · exact w.sampleCount.toNat_lt
  · exact w.lastStartAddress.toNat_lt
  · exact w.lastSampleCount.toNat_lt
  · exact w.cycles.toNat_lt
  · exact w.interval.toNat_lt

variable (l : ValidLayout) (w : StepWord)

/-- The block with one more field written. -/
def writeField (block : List UInt8) (f : WordField) : List UInt8 :=
  overwrite block (l.offset f) (leBytes f.width (w.field f))

section
variable {fields : List WordField} {block : List UInt8} (h : block.length = l.blockSize)
include h

theorem fields_inside : ∀ f ∈ fields,
    l.offset f + (leBytes f.width (w.field f)).length ≤ block.length := by
  intro f _
  rw [length_leBytes, h]
  exact l.field_inside f

theorem length_foldl_writeField :
    (fields.foldl (w.writeField l) block).length = l.blockSize :=
  (length_overwriteAll (w.fields_inside l h)).trans h

/-- Writing fields leaves all bytes alone that belong to none of them. -/
theorem slice_foldl_writeField_of_apart {p n : Nat}
    (apart : ∀ f ∈ fields, p + n ≤ l.offset f ∨ l.offset f + f.width ≤ p) :
    slice (fields.foldl (w.writeField l) block) p n = slice block p n := by
  apply slice_overwriteAll_of_apart (w.fields_inside l h)
  intro f hf
  rw [length_leBytes]
  exact apart f hf

theorem slice_foldl_writeField_of_mem {f : WordField} (hf : f ∈ fields) (distinct : fields.Nodup) :
    slice (fields.foldl (w.writeField l) block) (l.offset f) f.width =
      leBytes f.width (w.field f) := by
  have written := slice_overwriteAll_of_mem (w.fields_inside l h) hf
    (distinct.imp fun other => by
      rw [Apart, length_leBytes, length_leBytes]
      exact l.fields_disjoint other)
  rwa [length_leBytes] at written

end

theorem length_block : (w.block l.toStepLayout).length = l.blockSize :=
  w.length_foldl_writeField l List.length_replicate

theorem slice_block (f : WordField) :
    slice (w.block l.toStepLayout) (l.offset f) f.width = leBytes f.width (w.field f) :=
  w.slice_foldl_writeField_of_mem l List.length_replicate (WordField.mem_all f) (by decide)

theorem slice_block_of_apart {p n : Nat}
    (apart : ∀ f, p + n ≤ l.offset f ∨ l.offset f + f.width ≤ p) :
    slice (w.block l.toStepLayout) p n = slice (List.replicate l.blockSize 0) p n :=
  w.slice_foldl_writeField_of_apart l List.length_replicate fun f _ => apart f

theorem numberAt_block (f : WordField) :
    numberAt (w.block l.toStepLayout) (l.offset f) f.width = w.field f := by
  rw [numberAt, w.slice_block l f, leValue_leBytes (w.field_lt f)]

/-- Under a valid layout every word has a wire form. -/
theorem bytes_eq : w.bytes l.toStepLayout = .ok (w.block l.toStepLayout) := by
  rw [bytes, StepLayout.validate_eq_ok_iff.mpr l.valid]
  rfl

theorem inRegion_flatMap_block {α : Type} (word : α → StepWord) {steps : List α} {i : Nat}
    (hi : i < steps.length) :
    inRegion (steps.flatMap fun s => (word s).block l.toStepLayout) i l.toStepLayout =
      word steps[i] := by
  have same (f : WordField) :
      numberAt (steps.flatMap fun s => (word s).block l.toStepLayout)
        (i * l.blockSize + l.offset f) f.width = (word steps[i]).field f := by
    rw [numberAt_flatMap (fun s => (word s).length_block l) hi (l.field_inside f),
      numberAt_block]
  simp only [inRegion, same, ofNumbers_field]

end StepWord
end WaveSequencer
