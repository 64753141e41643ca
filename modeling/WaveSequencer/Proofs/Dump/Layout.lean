import Mathlib.Algebra.Group.Nat.Defs
import WaveSequencer.Dump.StepLayout

/-!
What a valid layout of a step word guarantees: a block that is not too large, every field within
it, and no byte that belongs to two fields.
-/
namespace WaveSequencer
open Wire

namespace StepLayout

theorem holds_iff {l : StepLayout} {f : WordField} :
    l.holds f = true ↔ l.offset f + f.width < 2 ^ 64 ∧ l.offset f + f.width ≤ l.blockSize := by
  unfold holds
  by_cases h : l.offset f + f.width < 2 ^ 64
  · rw [address?_eq_some_iff.mpr ⟨h, rfl⟩, and_iff_right h]
    exact decide_eq_true_iff
  · rw [address?_eq_none_iff.mpr (Nat.not_lt.mp h)]
    constructor
    · intro outside
      cases outside
    · intro fits
      exact absurd fits.1 h

theorem mem_fieldPairs {f g : WordField} (h : f ≠ g) :
    (f, g) ∈ fieldPairs WordField.all ∨ (g, f) ∈ fieldPairs WordField.all := by
  cases f <;> cases g <;> first | exact absurd rfl h | decide

theorem overlap_eq_false_iff {l : StepLayout} {f g : WordField} : l.overlap f g = false ↔
    l.offset g + g.width ≤ l.offset f ∨ l.offset f + f.width ≤ l.offset g := by
  simp only [overlap, Bool.and_eq_false_iff, decide_eq_false_iff_not, Nat.not_lt]

/-- The three checks, one after the other. -/
theorem fault?_eq_none_iff {l : StepLayout} : l.fault? = none ↔
    l.blockSize ≤ Limits.stepWordBlock ∧ (∀ f, l.holds f = true) ∧
      ∀ f g, (f, g) ∈ fieldPairs WordField.all → l.overlap f g = false := by
  unfold fault?
  split
  · next large =>
    constructor
    · intro none
      cases none
    · rintro ⟨small, _⟩
      exact absurd small (Nat.not_le.mpr large)
  · next large =>
    split
    · next f outside =>
      have hf := List.find?_some outside
      constructor
      · intro none
        cases none
      · rintro ⟨_, held, _⟩
        simp [held f] at hf
    · next inside =>
      have held : ∀ f, l.holds f = true := by
        intro f
        simpa using List.find?_eq_none.mp inside f (WordField.mem_all f)
      simp only [Option.map_eq_none_iff, List.find?_eq_none, Prod.forall, Bool.not_eq_true]
      constructor
      · intro apart
        exact ⟨Nat.not_lt.mp large, held, apart⟩
      · rintro ⟨_, _, apart⟩
        exact apart

end StepLayout

namespace ValidLayout
variable (l : ValidLayout)

theorem blockSize_le : l.blockSize ≤ 1024 := (StepLayout.fault?_eq_none_iff.mp l.valid).1

/-- The blocks of all steps that 32 bits count end at an address of 64 bits. -/
theorem blocks_fit {index : Nat} (h : index < 2 ^ 32) : (index + 1) * l.blockSize < 2 ^ 64 :=
  Nat.lt_of_le_of_lt (Nat.mul_le_mul (Nat.succ_le_of_lt h) l.blockSize_le) (by decide)

theorem field_inside (f : WordField) : l.offset f + f.width ≤ l.blockSize :=
  (StepLayout.holds_iff.mp ((StepLayout.fault?_eq_none_iff.mp l.valid).2.1 f)).2

theorem fields_disjoint {f g : WordField} (h : f ≠ g) :
    l.offset f + f.width ≤ l.offset g ∨ l.offset g + g.width ≤ l.offset f := by
  have apart := (StepLayout.fault?_eq_none_iff.mp l.valid).2.2
  rcases StepLayout.mem_fieldPairs h with hp | hp
  · exact (StepLayout.overlap_eq_false_iff.mp (apart f g hp)).symm
  · exact StepLayout.overlap_eq_false_iff.mp (apart g f hp)

end ValidLayout
end WaveSequencer
