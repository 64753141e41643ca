import WaveSequencer.Dump.StepWord
import WaveSequencer.Proofs.Wire.Slice

/-!
Writing bytes into others, at places that are not written to twice. Main statements: what has been
written is found at its place, and all bytes that are not written to are as before.
-/
namespace WaveSequencer.StepWord
open Wire

section
variable {block bytes : List UInt8} {offset : Nat} (h : offset + bytes.length ≤ block.length)
include h

theorem slice_overwrite_self : slice (overwrite block offset bytes) offset bytes.length = bytes :=
  slice_append_middle (by rw [List.length_take]; omega)

theorem slice_overwrite_of_disjoint {p n : Nat}
    (apart : p + n ≤ offset ∨ offset + bytes.length ≤ p) :
    slice (overwrite block offset bytes) p n = slice block p n := by
  have front : (block.take offset).length = offset := by
    rw [List.length_take]
    omega
  rcases apart with before | behind
  · have cut : slice block 0 offset = block.take offset := rfl
    rw [overwrite, List.append_assoc, slice_append_left (by omega), ← cut, slice_slice before,
      Nat.zero_add]
  · have written : (block.take offset ++ bytes).length = offset + bytes.length := by
      rw [List.length_append, front]
    rw [overwrite, slice_append_right (by omega), written, slice, List.drop_drop,
      Nat.add_sub_cancel' behind, slice]

end

section
variable {β : Type} {place : β → Nat} {content : β → List UInt8} {parts : List β}
  {block : List UInt8}

/-- The bytes of a part do not reach into those of another one. -/
def Apart (place : β → Nat) (content : β → List UInt8) (x y : β) : Prop :=
  place x + (content x).length ≤ place y ∨ place y + (content y).length ≤ place x

/-- The bytes with all parts written to their places, one after the other. -/
def overwriteAll (place : β → Nat) (content : β → List UInt8) (block : List UInt8)
    (parts : List β) : List UInt8 :=
  parts.foldl (fun block x => overwrite block (place x) (content x)) block

theorem overwriteAll_cons (x : β) (parts : List β) : overwriteAll place content block (x :: parts) =
    overwriteAll place content (overwrite block (place x) (content x)) parts :=
  List.foldl_cons ..

variable (inside : ∀ x ∈ parts, place x + (content x).length ≤ block.length)
include inside

theorem length_overwriteAll : (overwriteAll place content block parts).length = block.length := by
  induction parts generalizing block with
  | nil => rfl
  | cons x rest ih =>
    have same := length_overwrite (inside x List.mem_cons_self)
    rw [overwriteAll_cons, ih, same]
    intro y hy
    rw [same]
    exact inside y (List.mem_cons_of_mem x hy)

/-- Bytes that no part is written to are as before. -/
theorem slice_overwriteAll_of_apart {p n : Nat}
    (apart : ∀ x ∈ parts, p + n ≤ place x ∨ place x + (content x).length ≤ p) :
    slice (overwriteAll place content block parts) p n = slice block p n := by
  induction parts generalizing block with
  | nil => rfl
  | cons x rest ih =>
    have here := inside x List.mem_cons_self
    have later : ∀ y ∈ rest, place y + (content y).length ≤
        (overwrite block (place x) (content x)).length := by
      intro y hy
      rw [length_overwrite here]
      exact inside y (List.mem_cons_of_mem x hy)
    rw [overwriteAll_cons, ih later fun y hy => apart y (List.mem_cons_of_mem x hy),
      slice_overwrite_of_disjoint here (apart x List.mem_cons_self)]

/-- A part stands at its place, since the parts that are written later lie elsewhere. -/
theorem slice_overwriteAll_of_mem {x : β} (hx : x ∈ parts)
    (apart : parts.Pairwise (Apart place content)) :
    slice (overwriteAll place content block parts) (place x) (content x).length = content x := by
  induction parts generalizing block with
  | nil => cases hx
  | cons y rest ih =>
    obtain ⟨others, apart⟩ := List.pairwise_cons.mp apart
    have here := inside y List.mem_cons_self
    have later : ∀ z ∈ rest, place z + (content z).length ≤
        (overwrite block (place y) (content y)).length := by
      intro z hz
      rw [length_overwrite here]
      exact inside z (List.mem_cons_of_mem y hz)
    rw [overwriteAll_cons]
    rcases List.mem_cons.mp hx with rfl | hx
    · rw [slice_overwriteAll_of_apart later others, slice_overwrite_self here]
    · exact ih later hx apart

end
end WaveSequencer.StepWord
