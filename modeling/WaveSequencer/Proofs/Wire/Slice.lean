import WaveSequencer.Proofs.Wire.LittleEndian

/-!
Ranges of bytes and the little-endian numbers in them, for positions that are known to be there.
A range of concatenated bytes lies in one of the parts, and a range of a range is a range.
-/
namespace WaveSequencer.Wire

/-- The bytes of a range, as far as they are there. -/
def slice (bytes : List UInt8) (offset length : Nat) : List UInt8 :=
  (bytes.drop offset).take length

/-- The little-endian number in a range. -/
def numberAt (bytes : List UInt8) (offset width : Nat) : Nat := leValue (slice bytes offset width)

theorem length_slice {bytes : List UInt8} {offset length : Nat}
    (h : offset + length ≤ bytes.length) : (slice bytes offset length).length = length := by
  simp only [slice, List.length_take, List.length_drop]
  omega

theorem length_slice_le (bytes : List UInt8) (offset length : Nat) :
    (slice bytes offset length).length ≤ length := by
  simp only [slice, List.length_take]
  omega

theorem getElem?_slice {bytes : List UInt8} {offset length p : Nat} (h : p < length) :
    (slice bytes offset length)[p]? = bytes[offset + p]? := by
  rw [slice, List.getElem?_take_of_lt h, List.getElem?_drop]

theorem slice_append_left {a b : List UInt8} {offset length : Nat}
    (h : offset + length ≤ a.length) : slice (a ++ b) offset length = slice a offset length := by
  rw [slice, List.drop_append_of_le_length (by omega),
    List.take_append_of_le_length (by simp only [List.length_drop]; omega), slice]

theorem slice_append_right {a b : List UInt8} {offset length : Nat} (h : a.length ≤ offset) :
    slice (a ++ b) offset length = slice b (offset - a.length) length := by
  rw [slice, List.drop_append, List.drop_eq_nil_of_le h, List.nil_append, slice]

/-- The middle one of three parts. -/
theorem slice_append_middle {a b c : List UInt8} {offset : Nat} (h : a.length = offset) :
    slice (a ++ b ++ c) offset b.length = b := by
  rw [List.append_assoc, slice_append_right (Nat.le_of_eq h), h, Nat.sub_self,
    slice_append_left (by simp)]
  exact List.take_length

theorem slice_slice {bytes : List UInt8} {o m p n : Nat} (h : p + n ≤ m) :
    slice (slice bytes o m) p n = slice bytes (o + p) n := by
  rw [slice, slice, List.drop_take, List.take_take, List.drop_drop, Nat.min_eq_left (by omega),
    slice]

theorem numberAt_lt (bytes : List UInt8) (offset width : Nat) :
    numberAt bytes offset width < 256 ^ width :=
  Nat.lt_of_lt_of_le (leValue_lt _)
    (Nat.pow_le_pow_right (by decide) (length_slice_le bytes offset width))

/-- Writing the number of a range gives the bytes of the range. -/
theorem leBytes_numberAt {bytes : List UInt8} {offset width : Nat}
    (h : offset + width ≤ bytes.length) :
    leBytes width (numberAt bytes offset width) = slice bytes offset width := by
  have written := leBytes_leValue (slice bytes offset width)
  rwa [length_slice h] at written

/-- A number that is written into the middle of other bytes is read back from there. -/
theorem numberAt_append_middle {a c : List UInt8} {offset width n : Nat} (h : a.length = offset)
    (hn : n < 256 ^ width) : numberAt (a ++ leBytes width n ++ c) offset width = n := by
  have middle := slice_append_middle (b := leBytes width n) (c := c) h
  rw [length_leBytes] at middle
  rw [numberAt, middle, leValue_leBytes hn]

theorem numberAt_append_right (a b : List UInt8) (offset width : Nat) :
    numberAt (a ++ b) (a.length + offset) width = numberAt b offset width := by
  rw [numberAt, slice_append_right (Nat.le_add_right _ _), Nat.add_sub_cancel_left, numberAt]

/-- The same bytes at the positions of a range, as far as they are there. -/
def SameIn (xs ys : List UInt8) (offset length : Nat) : Prop :=
  ∀ p < length, xs[offset + p]? = ys[offset + p]?

section
variable {xs ys : List UInt8} {offset length : Nat}

instance : Decidable (SameIn xs ys offset length) := by unfold SameIn; infer_instance

theorem SameIn.slice_eq (h : SameIn xs ys offset length) :
    slice ys offset length = slice xs offset length := by
  apply List.ext_getElem?
  intro p
  rw [slice, slice, List.getElem?_take, List.getElem?_take, List.getElem?_drop, List.getElem?_drop]
  split
  · next inside => exact (h p inside).symm
  · rfl

theorem SameIn.getElem?_eq (h : SameIn xs ys offset length) {p : Nat} (start : offset ≤ p)
    (stop : p < offset + length) : xs[p]? = ys[p]? := by
  have byte := h (p - offset) (by omega)
  rwa [Nat.add_sub_cancel' start] at byte

theorem sameIn_of_slice_eq (h : slice xs offset length = slice ys offset length) :
    SameIn xs ys offset length := by
  intro p hp
  rw [← getElem?_slice hp, h, getElem?_slice hp]

theorem SameIn.numberAt_eq (h : SameIn xs ys offset length) :
    numberAt ys offset length = numberAt xs offset length :=
  congrArg leValue h.slice_eq

theorem sameIn_of_numberAt_eq (hx : offset + length ≤ xs.length) (hy : offset + length ≤ ys.length)
    (h : numberAt xs offset length = numberAt ys offset length) : SameIn xs ys offset length :=
  sameIn_of_slice_eq (by rw [← leBytes_numberAt hx, h, leBytes_numberAt hy])

theorem sameIn_append (more : List UInt8) (h : offset + length ≤ xs.length) :
    SameIn xs (xs ++ more) offset length := by
  intro p hp
  rw [List.getElem?_append_left (by omega)]

theorem sameIn_take {n : Nat} (h : offset + length ≤ n) :
    SameIn xs (xs.take n) offset length := by
  intro p hp
  rw [List.getElem?_take_of_lt (by omega)]

end

section
variable {α : Type} {f : α → List UInt8} {size : Nat}

theorem length_flatMap_of_length (hf : ∀ x, (f x).length = size) (xs : List α) :
    (xs.flatMap f).length = xs.length * size := by
  induction xs with
  | nil => simp
  | cons x xs ih => rw [List.flatMap_cons, List.length_append, hf, ih, List.length_cons]; grind

/-- In a run of parts of one size, a number within a part lies at its place in the part. -/
theorem numberAt_flatMap (hf : ∀ x, (f x).length = size) {xs : List α} {i : Nat}
    (hi : i < xs.length) {offset width : Nat} (h : offset + width ≤ size) :
    numberAt (xs.flatMap f) (i * size + offset) width = numberAt (f xs[i]) offset width := by
  induction xs generalizing i with
  | nil => simp at hi
  | cons x xs ih =>
    rw [List.flatMap_cons]
    cases i with
    | zero =>
      rw [Nat.zero_mul, Nat.zero_add, List.getElem_cons_zero, numberAt,
        slice_append_left (by rw [hf]; exact h), numberAt]
    | succ i =>
      have next : (i + 1) * size + offset = (f x).length + (i * size + offset) := by
        rw [hf, Nat.succ_mul]
        omega
      rw [next, numberAt_append_right, ih (Nat.lt_of_succ_lt_succ hi), List.getElem_cons_succ]

end

end WaveSequencer.Wire
