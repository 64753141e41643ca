import Mathlib.Algebra.Order.BigOperators.Group.Finset
import Mathlib.Data.Prod.Lex
import Mathlib.Order.Interval.Finset.Nat
import Mathlib.Order.Interval.Set.Disjoint
import WaveSequencer.Proofs.Dump.Layout

/-!
Checking a layout of a step word, with fields as sets of bytes. Main statement: a layout passes
exactly if its block is not too large, its fields lie in the block and no two of them share a byte;
otherwise the first thing that is wrong is named, in the order of the declaration.
-/
namespace WaveSequencer
open Wire Function

/-- A search meets the entries by ascending key, so it yields the one with the least key. -/
theorem find?_eq_some_iff_of_ascending {α κ : Type*} [LinearOrder κ] {key : α → κ} {xs : List α}
    (ascending : xs.Pairwise (key · < key ·)) {p : α → Bool} {b : α} :
    xs.find? p = some b ↔ b ∈ xs ∧ p b = true ∧ ∀ a ∈ xs, key a < key b → p a = false := by
  induction xs with
  | nil => simp
  | cons x rest ih =>
    obtain ⟨least, later⟩ := List.pairwise_cons.mp ascending
    by_cases hit : p x = true
    · rw [List.find?_cons_of_pos hit]
      constructor
      · rintro ⟨⟩
        refine ⟨List.mem_cons_self, hit, ?_⟩
        intro a ha before
        rcases List.mem_cons.mp ha with rfl | ha
        · exact absurd before (lt_irrefl _)
        · exact absurd (least a ha) (lt_asymm before)
      · rintro ⟨hb, _, first⟩
        rcases List.mem_cons.mp hb with rfl | hb
        · rfl
        · rw [first x List.mem_cons_self (least b hb)] at hit
          cases hit
    · rw [List.find?_cons_of_neg hit, ih later]
      constructor
      · rintro ⟨hb, found, first⟩
        refine ⟨List.mem_cons_of_mem x hb, found, ?_⟩
        intro a ha before
        rcases List.mem_cons.mp ha with rfl | ha
        · exact Bool.eq_false_iff.mpr hit
        · exact first a ha before
      · rintro ⟨hb, found, first⟩
        rcases List.mem_cons.mp hb with rfl | hb
        · exact absurd found hit
        · exact ⟨hb, found, fun a ha => first a (List.mem_cons_of_mem x ha)⟩

namespace WordField

instance : Fintype WordField := ⟨⟨all, by decide⟩, mem_all⟩

/-- The place of a field in the declaration. -/
def rank (f : WordField) : ℕ := all.idxOf f

theorem ascending_all : all.Pairwise (rank · < rank ·) := by decide

theorem sum_width : ∑ f : WordField, f.width = 28 := by decide

/-- The place of a pair of fields in the lexicographic order. -/
def pairRank (p : WordField × WordField) : ℕ ×ₗ ℕ := toLex (p.1.rank, p.2.rank)

theorem ascending_fieldPairs :
    (StepLayout.fieldPairs all).Pairwise (pairRank · < pairRank ·) := by decide

theorem mem_fieldPairs_iff {f g : WordField} :
    (f, g) ∈ StepLayout.fieldPairs all ↔ f.rank < g.rank := by
  cases f <;> cases g <;> decide

end WordField

namespace StepLayout
variable (l : StepLayout)

/-- The bytes of a field. -/
def bytesOf (f : WordField) : Finset ℕ := Finset.Ico (l.offset f) (l.offset f + f.width)

/-- The field lies in the block. -/
def Inside (f : WordField) : Prop := l.bytesOf f ⊆ Finset.range l.blockSize

/-- The block is not too large, and every byte of a field is in it and belongs to no other. -/
structure Sound : Prop where
  size : l.blockSize ≤ 1024
  inside : ∀ f, l.Inside f
  apart : Pairwise (Disjoint on l.bytesOf)

/-- The first thing that is wrong with a layout: its size, or else the first field that leaves the
block, or else the first pair of fields that share a byte. -/
inductive FirstFault : ArgumentFault → Prop where
  | size (large : 1024 < l.blockSize) : FirstFault (.blockSize l.blockSize)
  | outside {f : WordField} (small : l.blockSize ≤ 1024) (leaves : ¬l.Inside f)
      (first : ∀ g, g.rank < f.rank → l.Inside g) :
      FirstFault (.fieldOutside f (l.offset f) l.blockSize)
  | overlap {f g : WordField} (small : l.blockSize ≤ 1024) (inside : ∀ h, l.Inside h)
      (order : f.rank < g.rank) (shared : ¬Disjoint (l.bytesOf f) (l.bytesOf g))
      (first : ∀ a b : WordField, a.rank < b.rank →
        WordField.pairRank (a, b) < WordField.pairRank (f, g) →
          Disjoint (l.bytesOf a) (l.bytesOf b)) :
      FirstFault (.fieldsOverlap f g)

/-- The sums that the check forms without a look at whether 64 bits hold them: the ends of the
fields that it compares, once it has found the block small enough and the fields inside. -/
def sums : List ℕ :=
  if Limits.stepWordBlock < l.blockSize then []
  else match WordField.all.find? (!l.holds ·) with
    | some _ => []
    | none => (fieldPairs WordField.all).flatMap fun (f, g) =>
      [l.offset g + g.width, l.offset f + f.width]

variable {l}

theorem inside_iff {f : WordField} : l.Inside f ↔ l.offset f + f.width ≤ l.blockSize := by
  have pos := f.width_pos
  rw [Inside, bytesOf, Finset.range_eq_Ico, Finset.Ico_subset_Ico_iff (by omega)]
  exact and_iff_right (Nat.zero_le _)

/-- In a small block, an end that 64 bits do not hold is outside like any other. -/
theorem holds_iff_inside (small : l.blockSize ≤ 1024) {f : WordField} :
    l.holds f = true ↔ l.Inside f := by
  rw [holds_iff, inside_iff]
  omega

theorem overlap_eq_true_iff {f g : WordField} :
    l.overlap f g = true ↔ ¬Disjoint (l.bytesOf f) (l.bytesOf g) := by
  have posf := f.width_pos
  have posg := g.width_pos
  rw [← Bool.not_eq_false, overlap_eq_false_iff, bytesOf, bytesOf, ← Finset.disjoint_coe,
    Finset.coe_Ico, Finset.coe_Ico, Set.Ico_disjoint_Ico]
  omega

theorem overlap_eq_false_iff_disjoint {f g : WordField} :
    l.overlap f g = false ↔ Disjoint (l.bytesOf f) (l.bytesOf g) := by
  rw [← Bool.not_eq_true, overlap_eq_true_iff, Decidable.not_not]

theorem find?_outside_iff (small : l.blockSize ≤ 1024) {f : WordField} :
    WordField.all.find? (!l.holds ·) = some f ↔
      ¬l.Inside f ∧ ∀ g, g.rank < f.rank → l.Inside g := by
  rw [find?_eq_some_iff_of_ascending WordField.ascending_all]
  simp only [WordField.mem_all, true_and, true_implies, Bool.not_eq_true', Bool.not_eq_false',
    ← holds_iff_inside small, Bool.not_eq_true]

theorem find?_outside_eq_none_iff (small : l.blockSize ≤ 1024) :
    WordField.all.find? (!l.holds ·) = none ↔ ∀ f, l.Inside f := by
  simp only [List.find?_eq_none, WordField.mem_all, true_implies, Bool.not_eq_true',
    Bool.not_eq_false, holds_iff_inside small]

theorem find?_overlap_iff {f g : WordField} :
    ((fieldPairs WordField.all).find? fun (f, g) => l.overlap f g) = some (f, g) ↔
      f.rank < g.rank ∧ ¬Disjoint (l.bytesOf f) (l.bytesOf g) ∧
        ∀ a b : WordField, a.rank < b.rank →
          WordField.pairRank (a, b) < WordField.pairRank (f, g) →
            Disjoint (l.bytesOf a) (l.bytesOf b) := by
  rw [find?_eq_some_iff_of_ascending WordField.ascending_fieldPairs]
  simp only [WordField.mem_fieldPairs_iff, Prod.forall, overlap_eq_true_iff,
    overlap_eq_false_iff_disjoint]

theorem fault?_eq_none_iff_sound : l.fault? = none ↔ l.Sound := by
  rw [fault?_eq_none_iff]
  constructor
  · rintro ⟨small, held, apart⟩
    refine ⟨small, fun f => (holds_iff_inside small).mp (held f), ?_⟩
    intro f g different
    rcases mem_fieldPairs different with pair | pair
    · exact overlap_eq_false_iff_disjoint.mp (apart f g pair)
    · exact (overlap_eq_false_iff_disjoint.mp (apart g f pair)).symm
  · rintro ⟨small, inside, apart⟩
    refine ⟨small, fun f => (holds_iff_inside small).mpr (inside f), ?_⟩
    intro f g pair
    apply overlap_eq_false_iff_disjoint.mpr
    apply apart
    rintro rfl
    exact absurd (WordField.mem_fieldPairs_iff.mp pair) (lt_irrefl _)

/-- The check names exactly the first thing that is wrong. -/
theorem fault?_eq_some_iff {cause : ArgumentFault} :
    l.fault? = some cause ↔ l.FirstFault cause := by
  by_cases large : Limits.stepWordBlock < l.blockSize
  · have found : l.fault? = some (.blockSize l.blockSize) := if_pos large
    rw [found, Option.some.injEq]
    constructor
    · rintro rfl
      exact .size large
    · intro fault
      cases fault with
      | size => rfl
      | outside small | overlap small => exact absurd large (Nat.not_lt.mpr small)
  · have small := Nat.not_lt.mp large
    rw [fault?, if_neg large]
    cases search : WordField.all.find? (!l.holds ·) with
    | some f =>
      obtain ⟨leaves, first⟩ := (find?_outside_iff small).mp search
      simp only [Option.some.injEq]
      constructor
      · rintro rfl
        exact .outside small leaves first
      · intro fault
        cases fault with
        | size large => exact absurd small (Nat.not_le.mpr large)
        | outside _ leaves' first' =>
          have same := (find?_outside_iff small).mpr ⟨leaves', first'⟩
          rw [search] at same
          cases same
          rfl
        | overlap _ inside => exact absurd (inside f) leaves
    | none =>
      have inside := (find?_outside_eq_none_iff small).mp search
      simp only [Option.map_eq_some_iff, Prod.exists]
      constructor
      · rintro ⟨f, g, pair, rfl⟩
        obtain ⟨order, shared, first⟩ := find?_overlap_iff.mp pair
        exact .overlap small inside order shared first
      · intro fault
        cases fault with
        | size large => exact absurd small (Nat.not_le.mpr large)
        | @outside f _ leaves => exact absurd (inside f) leaves
        | overlap _ _ order shared first =>
          exact ⟨_, _, find?_overlap_iff.mpr ⟨order, shared, first⟩, rfl⟩

/-- The fields of a sound layout fill as many bytes as they take together. -/
theorem Sound.le_blockSize (sound : l.Sound) : 28 ≤ l.blockSize := by
  have within : Finset.univ.biUnion l.bytesOf ⊆ Finset.range l.blockSize :=
    Finset.biUnion_subset.mpr fun f _ => sound.inside f
  have filled := Finset.card_le_card within
  rw [Finset.card_biUnion fun f _ g _ different => sound.apart different, Finset.card_range]
    at filled
  simpa only [bytesOf, Nat.card_Ico, Nat.add_sub_cancel_left, WordField.sum_width] using filled

/-- Fields are only compared in a small block that holds them. -/
theorem sums_le (n : ℕ) (hn : n ∈ l.sums) : n ≤ 1024 := by
  unfold sums at hn
  split at hn
  · cases hn
  · next large =>
    have small : l.blockSize ≤ 1024 := Nat.not_lt.mp large
    split at hn
    · cases hn
    · next search =>
      have inside := (find?_outside_eq_none_iff small).mp search
      obtain ⟨⟨f, g⟩, _, pair⟩ := List.mem_flatMap.mp hn
      rcases List.mem_pair.mp pair with rfl | rfl
      · exact Nat.le_trans (inside_iff.mp (inside g)) small
      · exact Nat.le_trans (inside_iff.mp (inside f)) small

theorem validate_eq_error_iff {fault : Fault} : l.validate = .error fault ↔
    ∃ cause, fault = .argument cause ∧ l.FirstFault cause := by
  simp only [← fault?_eq_some_iff]
  unfold validate
  cases l.fault? with
  | none => simp
  | some cause => simp [eq_comm]

/-- For every layout: it passes exactly if it is sound, and then its block has from 28 to 1024
bytes. It is refused for the first thing that is wrong, and no sum leaves 64 bits on the way. -/
theorem validates_exactly_sound (l : StepLayout) :
    (l.validate = .ok () ↔ l.Sound) ∧
    (∀ fault, l.validate = .error fault ↔
      ∃ cause, fault = .argument cause ∧ l.FirstFault cause) ∧
    (∀ n ∈ l.sums, n < 2 ^ 64) ∧
    (l.validate = .ok () → 28 ≤ l.blockSize ∧ l.blockSize ≤ 1024) := by
  have passes : l.validate = .ok () ↔ l.Sound :=
    validate_eq_ok_iff.trans fault?_eq_none_iff_sound
  refine ⟨passes, fun _ => validate_eq_error_iff, ?_, ?_⟩
  · intro n hn
    exact Nat.lt_of_le_of_lt (sums_le n hn) (by decide)
  · intro valid
    have sound := passes.mp valid
    exact ⟨sound.le_blockSize, sound.size⟩

/-- The fields can be packed without a gap. -/
example : ({ blockSize := 28, interval := 20 } : StepLayout).validate = .ok () := rfl

end StepLayout
end WaveSequencer
