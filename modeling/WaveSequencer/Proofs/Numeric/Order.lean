import WaveSequencer.Proofs.Numeric.Sums

/-!
The order of binary64 values and that of the numbers they stand for. Main statements: the two orders
are the same, the larger of two values has the larger number, and taking the same positive value
away from two values, rounded, keeps their order. What is not negative is never undefined.
-/
namespace WaveSequencer.Numeric
open Float.Model (Format UnpackedFloat)
open Float.Model.UnpackedFloat

section Unpacked
variable {m n : ℕ} {e t : ℤ} {f g : UnpackedFloat} {a b : WithTop ℚ}

/-- A full significand with a greater exponent is a greater number. -/
theorem Canonical.lt_of_exponent_lt (h : Canonical m e) (h' : Canonical n t) (lt : e < t) :
    (m : ℚ) * 2 ^ e < n * 2 ^ t := by
  have short : (m : ℚ) < 2 ^ (53 : ℤ) := by exact_mod_cast h.lt
  have least := h.least
  have full : (2 : ℚ) ^ (52 : ℤ) ≤ n := by
    exact_mod_cast h'.full.resolve_right (by omega)
  calc (m : ℚ) * 2 ^ e < 2 ^ (53 : ℤ) * 2 ^ e := by gcongr
    _ = 2 ^ (53 + e) := (zpow_add₀ two_ne_zero _ _).symm
    _ ≤ 2 ^ (52 + t) := zpow_le_zpow_right₀ one_le_two (by omega)
    _ = 2 ^ (52 : ℤ) * 2 ^ t := zpow_add₀ two_ne_zero _ _
    _ ≤ n * 2 ^ t := by gcongr

/-- Exponents decide first, and then significands. -/
theorem Canonical.compare_eq (h : Canonical m e) (h' : Canonical n t) :
    (compare e t).then (compare m n) = compare ((m : ℚ) * 2 ^ e) (n * 2 ^ t) := by
  rcases lt_trichotomy e t with lt | rfl | gt
  · rw [compare_lt_iff_lt.mpr lt, compare_lt_iff_lt.mpr (h.lt_of_exponent_lt h' lt)]
    rfl
  · have unit : (0 : ℚ) < 2 ^ e := by positivity
    rw [compare_eq_iff_eq.mpr rfl, Ordering.eq_then]
    rcases lt_trichotomy m n with lt | rfl | gt
    · rw [compare_lt_iff_lt.mpr lt, compare_lt_iff_lt.mpr (by gcongr)]
    · rw [compare_eq_iff_eq.mpr rfl, compare_eq_iff_eq.mpr rfl]
    · rw [compare_gt_iff_gt.mpr gt, compare_gt_iff_gt.mpr (by gcongr)]
  · rw [compare_gt_iff_gt.mpr gt, compare_gt_iff_gt.mpr (h'.lt_of_exponent_lt h gt)]
    rfl

theorem compare_coe (x y : ℚ) : compare (x : WithTop ℚ) y = compare x y := by
  rcases lt_trichotomy x y with lt | rfl | gt
  · rw [compare_lt_iff_lt.mpr lt, compare_lt_iff_lt.mpr (WithTop.coe_lt_coe.mpr lt)]
  · rw [compare_eq_iff_eq.mpr rfl, compare_eq_iff_eq.mpr rfl]
  · rw [compare_gt_iff_gt.mpr gt, compare_gt_iff_gt.mpr (WithTop.coe_lt_coe.mpr gt)]

theorem compare_neg_neg (x y : ℚ) : compare (-x) (-y) = (compare x y).swap := by
  rcases lt_trichotomy x y with lt | rfl | gt
  · rw [compare_lt_iff_lt.mpr lt, compare_gt_iff_gt.mpr (neg_lt_neg lt)]
    rfl
  · rw [compare_eq_iff_eq.mpr rfl, compare_eq_iff_eq.mpr rfl]
    rfl
  · rw [compare_gt_iff_gt.mpr gt, compare_lt_iff_lt.mpr (neg_lt_neg gt)]
    rfl

/-- Every sign and every zero are compared as their numbers are. -/
theorem HasValue.compare_eq (hf : HasValue f a) (hg : HasValue g b) :
    UnpackedFloat.compare f g = some (compare a b) := by
  cases hf with
  | zero s =>
    cases hg with
    | zero s' => rw [compare_eq_iff_eq.mpr rfl, UnpackedFloat.compare]
    | @finite s' n t pos' canonical' =>
      have number : (0 : ℚ) < n * 2 ^ t := by positivity
      cases s' with
      | positive => rw [compare_lt_iff_lt.mpr (by exact_mod_cast number), UnpackedFloat.compare]
      | negative =>
        rw [compare_gt_iff_gt.mpr (by exact_mod_cast neg_neg_of_pos number), UnpackedFloat.compare]
    | infinity =>
      rw [compare_lt_iff_lt.mpr (WithTop.coe_lt_top 0)]
      rfl
  | @finite s m e pos canonical =>
    have number : (0 : ℚ) < m * 2 ^ e := by positivity
    cases hg with
    | zero s' =>
      cases s with
      | positive => rw [compare_gt_iff_gt.mpr (by exact_mod_cast number), UnpackedFloat.compare]
      | negative =>
        rw [compare_lt_iff_lt.mpr (by exact_mod_cast neg_neg_of_pos number), UnpackedFloat.compare]
    | @finite s' n t pos' canonical' =>
      have number' : (0 : ℚ) < n * 2 ^ t := by positivity
      rw [compare_coe]
      cases s <;> cases s' <;> simp only [signed, UnpackedFloat.compare]
      · rw [canonical.compare_eq canonical', compare_neg_neg]
      · rw [compare_lt_iff_lt.mpr (by linarith)]
      · rw [compare_gt_iff_gt.mpr (by linarith)]
      · rw [canonical.compare_eq canonical']
    | infinity =>
      rw [compare_lt_iff_lt.mpr (WithTop.coe_lt_top _)]
      cases s <;> rfl
  | infinity =>
    cases hg with
    | zero s' =>
      rw [compare_gt_iff_gt.mpr (WithTop.coe_lt_top 0)]
      rfl
    | finite =>
      rw [compare_gt_iff_gt.mpr (WithTop.coe_lt_top _)]
      rfl
    | infinity =>
      rw [compare_eq_iff_eq.mpr rfl]
      rfl

theorem HasValue.isNaN_eq (h : HasValue f a) : f.isNaN = false := by
  cases h <;> rfl

end Unpacked

namespace Denotes
variable {x y : Float} {a b : WithTop ℚ}

theorem compare_eq (hx : Denotes x a) (hy : Denotes y b) :
    x.toModel.unpack.compare y.toModel.unpack = some (compare a b) := HasValue.compare_eq hx hy

theorem le_iff (hx : Denotes x a) (hy : Denotes y b) : x ≤ y ↔ a ≤ b := by
  have order : x ≤ y ↔ UnpackedFloat.le x.toModel.unpack y.toModel.unpack = true :=
    decide_eq_true_iff
  rw [order, UnpackedFloat.le, hx.compare_eq hy, ← compare_le_iff_le]
  cases compare a b <;> decide

theorem lt_iff (hx : Denotes x a) (hy : Denotes y b) : x < y ↔ a < b := by
  have order : x < y ↔ UnpackedFloat.lt x.toModel.unpack y.toModel.unpack = true :=
    decide_eq_true_iff
  rw [order, UnpackedFloat.lt, hx.compare_eq hy, ← compare_lt_iff_lt]
  cases compare a b <;> decide

theorem beq_iff (hx : Denotes x a) (hy : Denotes y b) : (x == y) = true ↔ a = b := by
  have order : (x == y) = UnpackedFloat.beq x.toModel.unpack y.toModel.unpack := rfl
  rw [order, UnpackedFloat.beq, hx.compare_eq hy, ← compare_eq_iff_eq (a := a) (b := b)]
  cases compare a b <;> decide

/-- Only the zeros are two floats for one number. -/
theorem eq_of_ne_zero (hx : Denotes x a) (hy : Denotes y a) (nonzero : a ≠ 0) : x = y := by
  have equal : x.toModel.unpack.beq y.toModel.unpack = true := by
    rw [UnpackedFloat.beq, hx.compare_eq hy, compare_eq_iff_eq.mpr rfl]
    rfl
  have zero {s : Sign} : x.toModel.unpack ≠ .zero s := by
    intro value
    rw [Denotes, value] at hx
    cases hx
    exact nonzero rfl
  obtain ⟨-, -, same | ⟨left, -⟩ | ⟨left, -⟩⟩ := (beq_iff_ne_notANumber_and_eq _ _).mp equal
  · have bits := (unpack_inj_of_valid x.toModel.valid y.toModel.valid (by decide)).mp same
    exact Float.toBits_inj.mp (UInt64.toBitVec_inj.mp bits)
  · exact absurd left zero
  · exact absurd left zero

theorem larger (hx : Denotes x a) (hy : Denotes y b) : Denotes (larger x y) (max a b) := by
  have defined : x.isNaN = false := HasValue.isNaN_eq hx
  rw [Numeric.larger, defined, Bool.or_false]
  by_cases h : x ≤ y
  · rw [if_pos (decide_eq_true h), max_eq_right ((hx.le_iff hy).mp h)]
    exact hy
  · rw [if_neg (by simpa using h), max_eq_left (le_of_not_ge (mt (hx.le_iff hy).mpr h))]
    exact hx

theorem mul {a b : ℚ} (hx : Denotes x a) (hy : Denotes y b) (left : 0 ≤ a) (right : 0 ≤ b)
    (bound : nearest (a * b) < 2 ^ (1024 : ℤ)) : Denotes (x * y) (nearest (a * b) : ℚ) := by
  apply HasValue.unpack_pack
  obtain ⟨s, value, rfl⟩ | ⟨m, e, pos, value, canonical, rfl⟩ := HasValue.of_nonneg hx left
  · obtain ⟨s', value', rfl⟩ | ⟨n, t, pos', value', -, rfl⟩ := HasValue.of_nonneg hy right
    · rw [value, value', zero_mul, nearest_zero]
      exact .zero _
    · rw [value, value', zero_mul, nearest_zero]
      exact .zero _
  · obtain ⟨s', value', rfl⟩ | ⟨n, t, pos', value', canonical', rfl⟩ := HasValue.of_nonneg hy right
    · rw [value, value', mul_zero, nearest_zero]
      exact .zero _
    · rw [value, value']
      exact hasValue_mul .positive .positive canonical canonical' bound

/-- A product is not rounded beyond a value. -/
theorem mul_le {a b : ℚ} (hx : Denotes x a) (hy : Denotes y b) (left : 0 ≤ a) (right : 0 ≤ b)
    {m : ℕ} {e : ℤ} (short : m < 2 ^ 53) (least : -1074 ≤ e) (largest : e ≤ 971)
    (le : a * b ≤ m * 2 ^ e) : ∃ c : ℚ, 0 ≤ c ∧ c ≤ m * 2 ^ e ∧ Denotes (x * y) c := by
  have nonneg := mul_nonneg left right
  have upper : nearest (a * b) ≤ m * 2 ^ e := by
    calc nearest (a * b) ≤ nearest (m * 2 ^ e) := nearest_mono nonneg le
      _ = m * 2 ^ e := nearest_of_short short least
  exact ⟨nearest (a * b), nearest_nonneg nonneg, upper,
    hx.mul hy left right (upper.trans_lt (lt_limit short largest))⟩

end Denotes

theorem denotes_zero : Denotes 0.0 0 := .zero .positive

theorem denotes_toFloat {n : UInt64} (short : n.toNat < 2 ^ 53) :
    Denotes n.toFloat (n.toNat : ℚ) := (hasValue_ofNat short).unpack_pack

theorem denotes_ofCount {n : ℕ} (short : n < 2 ^ 53) : Denotes (ofCount n) (n : ℚ) := by
  have count : n.toUInt64.toNat = n := Nat.mod_eq_of_lt (by omega)
  have value := denotes_toFloat (n := n.toUInt64) (by rwa [count])
  rwa [count] at value

theorem exists_denotes_of_isFinite {x : Float} (h : x.isFinite = true) :
    ∃ v : ℚ, Denotes x v := by
  have finite : UnpackedFloat.isFinite x.toModel.unpack = true := h
  unfold Denotes
  cases value : x.toModel.unpack with
  | notANumber =>
    rw [value] at finite
    cases finite
  | infinity s =>
    rw [value] at finite
    cases finite
  | zero s => exact ⟨0, .zero s⟩
  | finite s m e pos => exact ⟨_, .finite pos (canonical_of_unpack value)⟩

/-- What is not negative is defined. -/
theorem exists_denotes {x : Float} (h : 0.0 ≤ x) : ∃ v, 0 ≤ v ∧ Denotes x v := by
  have lower : UnpackedFloat.le (.zero .positive) x.toModel.unpack = true := of_decide_eq_true h
  unfold Denotes
  cases value : x.toModel.unpack with
  | notANumber =>
    rw [value] at lower
    cases lower
  | zero s => exact ⟨0, le_rfl, .zero s⟩
  | infinity s =>
    rw [value] at lower
    cases s with
    | negative => cases lower
    | positive => exact ⟨⊤, le_top, .infinity⟩
  | finite s m e pos =>
    have canonical := canonical_of_unpack value
    rw [value] at lower
    cases s with
    | negative => cases lower
    | positive =>
      have number : (0 : ℚ) ≤ m * 2 ^ e := by positivity
      exact ⟨_, by exact_mod_cast number, .finite pos canonical⟩

theorem IsPositive.exists_denotes {x : Float} (h : IsPositive x) :
    ∃ v : ℚ, 0 < v ∧ Denotes x v := by
  obtain ⟨v, hv⟩ := exists_denotes_of_isFinite h.1
  exact ⟨v, by exact_mod_cast (denotes_zero.lt_iff hv).mp h.2, hv⟩

theorem IsPositive.unpack_eq {x : Float} (h : IsPositive x) :
    ∃ m e pos, x.toModel.unpack = .finite .positive m e pos ∧ Canonical m e := by
  obtain ⟨v, pos, hv⟩ := h.exists_denotes
  obtain ⟨_, _, rfl⟩ | ⟨m, e, positive, value, canonical, -⟩ := HasValue.of_nonneg hv pos.le
  · exact absurd pos (lt_irrefl 0)
  · exact ⟨m, e, positive, value, canonical⟩

theorem Denotes.isPositive {x : Float} {v : ℚ} (h : Denotes x v) (pos : 0 < v) : IsPositive x := by
  have lower : 0.0 < x := (denotes_zero.lt_iff h).mpr (by exact_mod_cast pos)
  obtain ⟨_, _, rfl⟩ | ⟨m, e, positive, value, -, -⟩ := HasValue.of_nonneg h pos.le
  · exact absurd pos (lt_irrefl 0)
  · have finite : x.toModel.unpack.isFinite = true := by rw [value]; rfl
    exact ⟨finite, lower⟩

section Larger
variable {x y : Float}

theorem Denotes.le_larger {a b : WithTop ℚ} (hx : Denotes x a) (hy : Denotes y b) :
    y ≤ Numeric.larger x y := (hy.le_iff (hx.larger hy)).mpr (le_max_right a b)

theorem le_larger (hx : 0.0 ≤ x) (hy : 0.0 ≤ y) : y ≤ larger x y := by
  obtain ⟨a, -, ha⟩ := exists_denotes hx
  obtain ⟨b, -, hb⟩ := exists_denotes hy
  exact ha.le_larger hb

theorem larger_nonneg (hx : 0.0 ≤ x) (hy : 0.0 ≤ y) : 0.0 ≤ larger x y := by
  obtain ⟨a, -, ha⟩ := exists_denotes hx
  obtain ⟨b, nonneg, hb⟩ := exists_denotes hy
  exact (denotes_zero.le_iff (ha.larger hb)).mpr (nonneg.trans (le_max_right a b))

theorem larger_of_le (h : x ≤ y) : larger x y = y := by simp [larger, h]

/-- What is neither negative nor a zero is positive. -/
theorem pos_of_nonneg (h : 0.0 ≤ x) (nonzero : (x == 0.0) = false) : 0.0 < x := by
  obtain ⟨a, nonneg, ha⟩ := exists_denotes h
  have other : a ≠ 0 := by
    intro zero
    rw [(ha.beq_iff denotes_zero).mpr zero] at nonzero
    cases nonzero
  exact (denotes_zero.lt_iff ha).mpr (nonneg.lt_of_ne other.symm)

theorem not_pos_of_zero (h : 0.0 ≤ x) (zero : (x == 0.0) = true) : ¬0.0 < x := by
  obtain ⟨a, -, ha⟩ := exists_denotes h
  rw [denotes_zero.lt_iff ha, (ha.beq_iff denotes_zero).mp zero]
  exact lt_irrefl 0

/-- Two values are the same above zero if their numbers are. -/
theorem larger_zero_eq {v : WithTop ℚ} (hx : Denotes x v) (hy : Denotes y v) :
    larger x 0.0 = larger y 0.0 := by
  by_cases h : v = 0
  · rw [larger_of_le ((hx.le_iff denotes_zero).mpr h.le),
      larger_of_le ((hy.le_iff denotes_zero).mpr h.le)]
  · rw [hx.eq_of_ne_zero hy h]

/-- The same value is taken away from both before or after the comparison. -/
theorem larger_sub_sub {c : Float} (hx : 0.0 ≤ x) (hy : 0.0 ≤ y) (hc : IsPositive c) :
    larger (larger (x - c) (y - c)) 0.0 = larger (larger x y - c) 0.0 := by
  obtain ⟨a, left, ha⟩ := exists_denotes hx
  obtain ⟨b, right, hb⟩ := exists_denotes hy
  obtain ⟨v, pos, hv⟩ := hc.exists_denotes
  have mono : Monotone (WithTop.map fun u : ℚ => rounded (u - v)) :=
    Monotone.withTop_map fun u w h => rounded_mono (sub_le_sub_right h v)
  have before := (ha.sub hv left pos.le).larger (hb.sub hv right pos.le)
  rw [← mono.map_max] at before
  exact larger_zero_eq before ((ha.larger hb).sub hv (left.trans (le_max_left a b)) pos.le)

/-- What is left after taking away is defined, if only below zero. -/
theorem nonneg_larger_sub {c : Float} (hx : 0.0 ≤ x) (hc : IsPositive c) :
    0.0 ≤ larger (x - c) 0.0 := by
  obtain ⟨a, nonneg, ha⟩ := exists_denotes hx
  obtain ⟨v, pos, hv⟩ := hc.exists_denotes
  exact (ha.sub hv nonneg pos.le).le_larger denotes_zero

theorem denotes_infinity : Denotes infinity ⊤ := .infinity

theorem larger_infinity (hx : 0.0 ≤ x) : larger x infinity = infinity := by
  obtain ⟨a, -, ha⟩ := exists_denotes hx
  exact larger_of_le ((ha.le_iff denotes_infinity).mpr le_top)

end Larger

end WaveSequencer.Numeric
