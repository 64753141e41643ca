import WaveSequencer.Proofs.Dump.Blocks

/-!
Regions of step words under any layout. Main statements: a region of written blocks gives every
word back, a word can be read exactly if its block is there, and writing it again gives its block
with zeros outside of the fields; under a layout that is not valid nothing is read or written.
-/
namespace WaveSequencer
open Wire

namespace StepLayout

/-- Whether the byte of a block at this place belongs to a field. -/
def covers (l : StepLayout) (p : Nat) : Bool :=
  WordField.all.any fun f => l.offset f ≤ p && p < l.offset f + f.width

/-- The block with zeros for all bytes that belong to no field. -/
def fieldsOnly (l : StepLayout) (block : List UInt8) : List UInt8 :=
  block.mapIdx fun p b => if l.covers p then b else 0

theorem covers_iff {l : StepLayout} {p : Nat} :
    l.covers p = true ↔ ∃ f, l.offset f ≤ p ∧ p < l.offset f + f.width := by
  simp [covers]

theorem length_fieldsOnly (l : StepLayout) (block : List UInt8) :
    (l.fieldsOnly block).length = block.length := List.length_mapIdx

theorem getElem?_fieldsOnly_of_covered {l : StepLayout} {p : Nat} (h : l.covers p = true)
    (block : List UInt8) : (l.fieldsOnly block)[p]? = block[p]? := by
  rw [fieldsOnly, List.getElem?_mapIdx]
  simp [h]

theorem getElem?_fieldsOnly_of_not_covered {l : StepLayout} {p : Nat} (h : ¬l.covers p = true)
    {block : List UInt8} (inside : p < block.length) : (l.fieldsOnly block)[p]? = some 0 := by
  rw [fieldsOnly, List.getElem?_mapIdx, List.getElem?_eq_getElem inside]
  simp [h]

/-- A layout that is not valid is at odds with an argument. -/
theorem exists_of_validate_ne_ok {l : StepLayout} (h : l.validate ≠ .ok ()) :
    ∃ cause, l.validate = .error (.argument cause) := by
  unfold validate at h ⊢
  split
  · next cause _ => exact ⟨cause, rfl⟩
  · next valid =>
    rw [valid] at h
    exact absurd rfl h

end StepLayout

namespace StepWord

theorem field_ofNumbers {number : WordField → Nat} (h : ∀ f, number f < 256 ^ f.width)
    (f : WordField) : (ofNumbers number).field f = number f := by
  cases f <;> exact Nat.mod_eq_of_lt (h _)

section
variable (l : ValidLayout)

/-- A block is determined by its fields, as all other bytes of it are zero. -/
theorem block_eq_fieldsOnly (w : StepWord) {block : List UInt8} (h : block.length = l.blockSize)
    (same : ∀ f, slice (w.block l.toStepLayout) (l.offset f) f.width =
      slice block (l.offset f) f.width) :
    w.block l.toStepLayout = l.fieldsOnly block := by
  apply List.ext_getElem?
  intro p
  by_cases inside : p < l.blockSize
  · by_cases covered : l.covers p = true
    · obtain ⟨f, start, stop⟩ := StepLayout.covers_iff.mp covered
      have byte := (sameIn_of_slice_eq (same f)).getElem?_eq start stop
      rw [byte, StepLayout.getElem?_fieldsOnly_of_covered covered]
    · have apart (f : WordField) : p + 1 ≤ l.offset f ∨ l.offset f + f.width ≤ p := by
        have outside := mt (fun within => StepLayout.covers_iff.mpr ⟨f, within⟩) covered
        omega
      have byte := (sameIn_of_slice_eq (w.slice_block_of_apart l apart)).getElem?_eq
        (Nat.le_refl p) (Nat.lt_succ_self p)
      rw [byte, List.getElem?_replicate_of_lt inside,
        StepLayout.getElem?_fieldsOnly_of_not_covered covered (h ▸ inside)]
  · have short := Nat.not_lt.mp inside
    rw [List.getElem?_eq_none (by rw [length_block]; exact short),
      List.getElem?_eq_none (by rw [StepLayout.length_fieldsOnly, h]; exact short)]

/-- Writing the word of a region again gives its block. -/
theorem block_inRegion {region : List UInt8} {index : Nat}
    (there : (index + 1) * l.blockSize ≤ region.length) :
    (inRegion region index l.toStepLayout).block l.toStepLayout =
      l.fieldsOnly (slice region (index * l.blockSize) l.blockSize) := by
  have whole : index * l.blockSize + l.blockSize ≤ region.length := by
    rwa [Nat.add_mul, Nat.one_mul] at there
  apply block_eq_fieldsOnly l _ (length_slice whole)
  intro f
  have inside := Nat.le_trans (field_end_le l index f) there
  rw [slice_block, inRegion, field_ofNumbers fun _ => numberAt_lt .., leBytes_numberAt inside,
    slice_slice (l.field_inside f)]

/-- A block that ends at no 64-bit address is in no region. -/
theorem blockAt_malformed_of_overflow (region : List UInt8) {index : Nat} {l : StepLayout}
    (overflow : 2 ^ 64 ≤ (index + 1) * l.blockSize) :
    ∃ cause, blockAt region index l = .error (.malformed cause) := by
  rw [Nat.add_mul, Nat.one_mul] at overflow
  unfold blockAt
  split
  · next base start =>
    obtain ⟨_, rfl⟩ := address?_eq_some_iff.mp start
    rw [Reader.bytesAt, address?_eq_none_iff.mpr overflow]
    exact ⟨_, rfl⟩
  · exact ⟨_, rfl⟩

theorem read_malformed {region : List UInt8} {index : Nat}
    (short : region.length < (index + 1) * l.blockSize) :
    ∃ cause, read region index l.toStepLayout = .error (.malformed cause) := by
  by_cases fits : (index + 1) * l.blockSize < 2 ^ 64
  · exact (read_yieldsIff region l fits).exists_malformed (Nat.not_le.mpr short)
  · obtain ⟨cause, malformed⟩ :=
      blockAt_malformed_of_overflow region (Nat.not_lt.mp fits)
    refine ⟨cause, ?_⟩
    rw [read, StepLayout.validate_eq_ok_iff.mpr l.valid]
    exact congrArg (· >>= fun block => ofBlock block l.toStepLayout) malformed

theorem read_eq_ok_iff {region : List UInt8} (small : region.length < 2 ^ 64) {index : Nat}
    {w : StepWord} : read region index l.toStepLayout = .ok w ↔
      (index + 1) * l.blockSize ≤ region.length ∧ inRegion region index l.toStepLayout = w := by
  by_cases there : (index + 1) * l.blockSize ≤ region.length
  · exact (read_yieldsIff region l (Nat.lt_of_le_of_lt there small)).eq_ok_iff
  · obtain ⟨cause, malformed⟩ := read_malformed l (Nat.not_le.mp there)
    rw [malformed]
    constructor
    · intro found
      cases found
    · intro found
      exact absurd found.1 there

theorem inRegion_append {region : List UInt8} {index : Nat}
    (there : (index + 1) * l.blockSize ≤ region.length) (rest : List UInt8) :
    inRegion (region ++ rest) index l.toStepLayout = inRegion region index l.toStepLayout := by
  refine congrArg ofNumbers (funext fun f => ?_)
  exact (sameIn_append rest (Nat.le_trans (field_end_le l index f) there)).numberAt_eq

theorem mapM_bytes (ws : List StepWord) :
    ws.mapM (·.bytes l.toStepLayout) = .ok (ws.map fun w => w.block l.toStepLayout) := by
  induction ws with
  | nil => rfl
  | cons w rest ih =>
    rw [List.mapM_cons, bytes_eq, ih]
    rfl

/-- Whatever follows the blocks of some words, each word is read at its index. -/
theorem read_blocks (ws : List StepWord) {rest : List UInt8}
    (small : ((ws.map fun w => w.block l.toStepLayout).flatten ++ rest).length < 2 ^ 64) {i : Nat}
    (hi : i < ws.length) :
    read ((ws.map fun w => w.block l.toStepLayout).flatten ++ rest) i l.toStepLayout =
      .ok ws[i] := by
  have written : (ws.map fun w => w.block l.toStepLayout).flatten =
      ws.flatMap fun w => w.block l.toStepLayout := rfl
  have length := length_flatMap_of_length (fun w : StepWord => w.length_block l) ws
  have there : (i + 1) * l.blockSize ≤ (ws.flatMap fun w => w.block l.toStepLayout).length := by
    rw [length]
    exact Nat.mul_le_mul_right _ hi
  rw [written] at small ⊢
  have longer := Nat.le_trans there (List.sublist_append_left _ rest).length_le
  have word := inRegion_flatMap_block l (fun w => w) hi
  exact (read_eq_ok_iff l small).mpr ⟨longer, inRegion_append l there rest ▸ word⟩

end

/-- Written words are read again at any place, and what is read is what stands in the fields. A
word can be read exactly if its whole block is there. A layout that is not valid is refused before
anything is read or written. -/
theorem words_round_trip (l : StepLayout) :
    (l.validate = .ok () →
      (∀ ws : List StepWord, ∃ blocks, ws.mapM (·.bytes l) = .ok blocks ∧
        ∀ rest : List UInt8, (blocks.flatten ++ rest).length < 2 ^ 64 →
          ∀ i (h : i < ws.length), read (blocks.flatten ++ rest) i l = .ok ws[i]) ∧
      ∀ region : List UInt8, region.length < 2 ^ 64 → ∀ index,
        ((∃ w, read region index l = .ok w) ↔ (index + 1) * l.blockSize ≤ region.length) ∧
        (¬(index + 1) * l.blockSize ≤ region.length →
          ∃ cause, read region index l = .error (.malformed cause)) ∧
        ∀ w, read region index l = .ok w →
          w.bytes l = .ok (l.fieldsOnly (slice region (index * l.blockSize) l.blockSize))) ∧
    (l.validate ≠ .ok () → ∃ cause,
      (∀ region index, read region index l = .error (.argument cause)) ∧
      ∀ w : StepWord, w.bytes l = .error (.argument cause)) := by
  constructor
  · intro ok
    obtain ⟨valid, rfl⟩ : ∃ valid : ValidLayout, valid.toStepLayout = l :=
      ⟨⟨l, StepLayout.validate_eq_ok_iff.mp ok⟩, rfl⟩
    refine ⟨fun ws => ⟨_, mapM_bytes valid ws, fun _ small _ => read_blocks valid ws small⟩, ?_⟩
    intro region small index
    refine ⟨?_, fun short => read_malformed valid (Nat.not_le.mp short), ?_⟩
    · simp only [read_eq_ok_iff valid small, exists_and_left, exists_eq', and_true]
    · intro w found
      obtain ⟨there, rfl⟩ := (read_eq_ok_iff valid small).mp found
      rw [bytes_eq, block_inRegion valid there]
  · intro bad
    obtain ⟨cause, refused⟩ := StepLayout.exists_of_validate_ne_ok bad
    refine ⟨cause, fun region index => ?_, fun w => ?_⟩
    · rw [read, refused]
      rfl
    · rw [bytes, refused]
      rfl

/-- Fields in another order, with bytes between them that belong to none. -/
def spread : StepLayout :=
  { blockSize := 40, interval := 0, sampleCount := 12, lastStartAddress := 16, cycles := 24,
    lastSampleCount := 28, startAddress := 36 }

theorem words_round_trip_spread :
    (∃ blocks, [({ cycles := 1 } : StepWord), { sampleCount := 6, interval := 900 }].mapM
        (·.bytes spread) = .ok blocks ∧
      read (blocks.flatten ++ [1, 2, 3]) 1 spread = .ok { sampleCount := 6, interval := 900 }) ∧
    (∃ w, read (List.replicate 79 255) 0 spread = .ok w ∧
      w.bytes spread = .ok (spread.fieldsOnly (List.replicate 40 255))) ∧
    (∃ cause, read (List.replicate 79 255) 1 spread = .error (.malformed cause)) ∧
    ∃ cause, ∀ w : StepWord, w.bytes { cycles := 2 } = .error (.argument cause) := by
  have valid : spread.validate = .ok () := StepLayout.validate_eq_ok_iff.mpr (by decide)
  have invalid : ({ cycles := 2 } : StepLayout).validate ≠ .ok () :=
    mt StepLayout.validate_eq_ok_iff.mp (by decide)
  obtain ⟨written, reading⟩ := (words_round_trip spread).1 valid
  obtain ⟨blocks, same, back⟩ := written [{ cycles := 1 }, { sampleCount := 6, interval := 900 }]
  obtain ⟨found, _, again⟩ := reading (List.replicate 79 255) (by decide) 0
  obtain ⟨_, missing, _⟩ := reading (List.replicate 79 255) (by decide) 1
  obtain ⟨cause, _, refused⟩ := (words_round_trip { cycles := 2 }).2 invalid
  obtain ⟨w, read⟩ := found.mpr (by decide)
  refine ⟨⟨blocks, same, back [1, 2, 3] ?_ 1 (by decide)⟩, ⟨w, read, again w read⟩,
    missing (by decide), cause, refused⟩
  have block (w : StepWord) : (w.block spread).length = 40 :=
    w.length_block ⟨spread, StepLayout.validate_eq_ok_iff.mp valid⟩
  rw [mapM_bytes ⟨spread, StepLayout.validate_eq_ok_iff.mp valid⟩] at same
  rw [← Except.ok.inj same]
  simp [block]

end StepWord
end WaveSequencer
