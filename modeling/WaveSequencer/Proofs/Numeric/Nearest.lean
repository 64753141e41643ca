import Mathlib
import WaveSequencer.Proofs.Numeric.Canonical

/-!
Rounding to the nearest binary64 value. A positive number is written in units of the last place that
it will have, and the count of units is rounded to the nearest integer, of two to the even one. Main
statements: rounding keeps the order, also where the unit changes between two numbers, and it is
what becomes of a significand that is too long, unless the result is beyond the greatest value.
-/
namespace WaveSequencer.Numeric
open Float.Model (Format totalExponent UnpackedFloat)
open Float.Model.UnpackedFloat

section Rounding

/-- The nearest integer, and of two the even one. -/
def roundEven (v : ℚ) : ℤ :=
  if Int.fract v < 1 / 2 then ⌊v⌋
  else if 1 / 2 < Int.fract v then ⌊v⌋ + 1
  else ⌊v⌋ + ⌊v⌋ % 2

theorem roundEven_bounds (v : ℚ) : ⌊v⌋ ≤ roundEven v ∧ roundEven v ≤ ⌊v⌋ + 1 := by
  unfold roundEven
  split_ifs <;> omega

@[simp] theorem roundEven_intCast (n : ℤ) : roundEven n = n := by
  simp [roundEven]

theorem roundEven_mono {a b : ℚ} (h : a ≤ b) : roundEven a ≤ roundEven b := by
  rcases lt_or_eq_of_le (Int.floor_mono h) with below | same
  · exact (roundEven_bounds a).2.trans (le_trans below (roundEven_bounds b).1)
  · have order : Int.fract a ≤ Int.fract b := by
      rw [Int.fract, Int.fract, same]
      exact sub_le_sub_right h _
    unfold roundEven
    rw [same]
    split_ifs <;> first | omega | linarith

/-- The exponent of the last place of a value. -/
def lastPlace (v : ℚ) : ℤ := max (Int.log 2 v - 52) (-1074)

/-- The nearest value with no more than 53 bits, all of them from the least exponent on. -/
def nearest (v : ℚ) : ℚ := roundEven (v / 2 ^ lastPlace v) * 2 ^ lastPlace v

variable {a b v : ℚ}

/-- A multiple of a coarser unit is a multiple of the last place. -/
theorem multiple_of_le {e t : ℤ} (h : t ≤ e) (n : ℤ) : ∃ k : ℤ, (n : ℚ) * 2 ^ e = k * 2 ^ t := by
  refine ⟨n * 2 ^ (e - t).toNat, ?_⟩
  have exponent : e = (e - t).toNat + t := by omega
  conv_lhs => rw [exponent, zpow_add₀ two_ne_zero, zpow_natCast]
  push_cast
  ring

theorem nearest_le {n e : ℤ} (h : a ≤ n * 2 ^ e) (unit : lastPlace a ≤ e) :
    nearest a ≤ n * 2 ^ e := by
  obtain ⟨k, hk⟩ := multiple_of_le unit n
  have pos : (0 : ℚ) < 2 ^ lastPlace a := by positivity
  rw [hk] at h ⊢
  have count : roundEven (a / 2 ^ lastPlace a) ≤ k := by
    rw [← roundEven_intCast k]
    exact roundEven_mono ((div_le_iff₀ pos).mpr h)
  unfold nearest
  gcongr

theorem le_nearest {n e : ℤ} (h : n * 2 ^ e ≤ a) (unit : lastPlace a ≤ e) :
    n * 2 ^ e ≤ nearest a := by
  obtain ⟨k, hk⟩ := multiple_of_le unit n
  have pos : (0 : ℚ) < 2 ^ lastPlace a := by positivity
  rw [hk] at h ⊢
  have count : k ≤ roundEven (a / 2 ^ lastPlace a) := by
    rw [← roundEven_intCast k]
    exact roundEven_mono ((le_div_iff₀ pos).mpr h)
  unfold nearest
  gcongr

/-- A multiple of the last place is not rounded. -/
theorem nearest_eq_self {n e : ℤ} (h : v = n * 2 ^ e) (unit : lastPlace v ≤ e) :
    nearest v = v := by
  apply le_antisymm
  · rw [h] at unit ⊢
    exact nearest_le le_rfl unit
  · rw [h] at unit ⊢
    exact le_nearest le_rfl unit

@[simp] theorem nearest_zero : nearest 0 = 0 :=
  nearest_eq_self (n := 0) (e := lastPlace 0) (by simp) le_rfl

theorem nearest_nonneg (h : 0 ≤ v) : 0 ≤ nearest v := by
  have zero := le_nearest (a := v) (n := 0) (e := lastPlace v) (by simpa using h) le_rfl
  simpa using zero

theorem nearest_mono (nonneg : 0 ≤ a) (h : a ≤ b) : nearest a ≤ nearest b := by
  rcases nonneg.eq_or_lt with rfl | pos
  · rw [nearest_zero]
    exact nearest_nonneg h
  have units : lastPlace a ≤ lastPlace b :=
    max_le_max_right _ (sub_le_sub_right (Int.log_mono_right pos h) _)
  rcases units.eq_or_lt with same | finer
  · unfold nearest
    rw [same]
    have count : roundEven (a / 2 ^ lastPlace b) ≤ roundEven (b / 2 ^ lastPlace b) :=
      roundEven_mono (by gcongr)
    gcongr
  · -- The leading power of two of the larger number is between them, and a value itself.
    have leading : lastPlace a ≤ Int.log 2 b ∧ lastPlace b ≤ Int.log 2 b ∧
        Int.log 2 a + 1 ≤ Int.log 2 b := by
      unfold lastPlace at finer ⊢
      omega
    have above : a ≤ (1 : ℤ) * 2 ^ Int.log 2 b := by
      have power := Int.lt_zpow_succ_log_self (b := 2) (by decide) a
      have step : (2 : ℚ) ^ (Int.log 2 a + 1) ≤ 2 ^ Int.log 2 b :=
        zpow_le_zpow_right₀ one_le_two leading.2.2
      push_cast at power ⊢
      linarith
    have below : (1 : ℤ) * 2 ^ Int.log 2 b ≤ b := by
      have power := Int.zpow_log_le_self (b := 2) (by decide) (pos.trans_le h)
      push_cast at power ⊢
      linarith
    exact (nearest_le above leading.1).trans (le_nearest below leading.2.1)

/-- The nearest value on either side of zero. -/
def rounded (v : ℚ) : ℚ := if 0 ≤ v then nearest v else -nearest (-v)

theorem rounded_of_nonneg (h : 0 ≤ v) : rounded v = nearest v := if_pos h

theorem rounded_of_neg (h : v < 0) : rounded v = -nearest (-v) := if_neg (not_le.mpr h)

@[simp] theorem rounded_zero : rounded 0 = 0 := (rounded_of_nonneg le_rfl).trans nearest_zero

theorem rounded_mono : Monotone rounded := by
  intro a b h
  rcases lt_or_ge a 0 with below | above
  · rw [rounded_of_neg below]
    rcases lt_or_ge b 0 with below' | above'
    · rw [rounded_of_neg below']
      exact neg_le_neg (nearest_mono (neg_nonneg.mpr below'.le) (neg_le_neg h))
    · rw [rounded_of_nonneg above']
      have left := nearest_nonneg (neg_nonneg.mpr below.le)
      have right := nearest_nonneg above'
      linarith
  · rw [rounded_of_nonneg above, rounded_of_nonneg (above.trans h)]
    exact nearest_mono above h

end Rounding

section Significands

/-- A significand with its round bit and its sticky bit stands for a number. -/
def StandsFor : ExtendedMantissa → ℚ → Prop
  | ⟨m, false, false⟩, v => v = m
  | ⟨m, false, true⟩, v => (m : ℚ) < v ∧ v < m + 1 / 2
  | ⟨m, true, false⟩, v => v = m + 1 / 2
  | ⟨m, true, true⟩, v => m + 1 / 2 < v ∧ v < m + 1

namespace StandsFor
variable {em : ExtendedMantissa} {v : ℚ}

theorem floor_eq (h : StandsFor em v) : ⌊v⌋ = (em.mantissa : ℤ) := by
  obtain ⟨m, r, s⟩ := em
  rw [Int.floor_eq_iff]
  push_cast
  cases r <;> cases s <;> simp only [StandsFor] at h <;> constructor <;> linarith

theorem roundedMantissa_eq (h : StandsFor em v) : (em.roundedMantissa : ℤ) = roundEven v := by
  have floor := h.floor_eq
  obtain ⟨m, r, s⟩ := em
  unfold roundEven
  rw [Int.fract, floor]
  cases r <;> cases s <;> simp only [StandsFor] at h <;>
    simp only [ExtendedMantissa.roundedMantissa, ExtendedMantissa.accuracy,
      Accuracy.roundToNearestEven] <;> push_cast <;> split_ifs <;> first | rfl | linarith

/-- A bit that is shifted out becomes the round bit, and the round bit one of the bits behind it. -/
theorem shiftRightOne (h : StandsFor em v) : StandsFor em.shiftRightOne (v / 2) := by
  obtain ⟨m, r, s⟩ := em
  obtain ⟨q, rfl | rfl⟩ := m.even_or_odd'
  · have half : 2 * q / 2 = q := by omega
    cases r <;> cases s <;> simp [StandsFor, ExtendedMantissa.shiftRightOne, half] at h ⊢ <;>
      first | linarith | (constructor <;> linarith)
  · have half : (2 * q + 1) / 2 = q := by omega
    cases r <;> cases s <;> simp [StandsFor, ExtendedMantissa.shiftRightOne, half] at h ⊢ <;>
      first | linarith | (constructor <;> linarith)

theorem shiftRight (h : StandsFor em v) (k : ℕ) : StandsFor (em >>> k) (v / 2 ^ k) := by
  change StandsFor (k.repeat ExtendedMantissa.shiftRightOne em) (v / 2 ^ k)
  induction k with
  | zero => simpa [Nat.repeat] using h
  | succ k ih =>
    rw [pow_succ, ← div_div]
    exact ih.shiftRightOne

end StandsFor

theorem roundedMantissa_shiftRight (m k : ℕ) :
    ((ExtendedMantissa.mk m false false >>> k).roundedMantissa : ℤ) = roundEven (m / 2 ^ k) := by
  have exact : StandsFor ⟨m, false, false⟩ m := rfl
  exact (exact.shiftRight k).roundedMantissa_eq

theorem log_significand {m : ℕ} (pos : 0 < m) (e : ℤ) :
    Int.log 2 ((m : ℚ) * 2 ^ e) = m.log2 + e := by
  have number : (0 : ℚ) < m * 2 ^ e := by positivity
  have low : (2 : ℚ) ^ (m.log2 : ℤ) ≤ m := by
    exact_mod_cast Nat.log2_self_le (Nat.ne_of_gt pos)
  have high : (m : ℚ) < 2 ^ (m.log2 + 1 : ℤ) := by exact_mod_cast Nat.lt_log2_self
  apply le_antisymm
  · rw [← Int.lt_add_one_iff, ← Int.lt_zpow_iff_log_lt (by decide) number]
    push_cast
    calc (m : ℚ) * 2 ^ e < 2 ^ (m.log2 + 1 : ℤ) * 2 ^ e := by gcongr
      _ = 2 ^ ((m.log2 : ℤ) + e + 1) := by
        rw [← zpow_add₀ two_ne_zero]
        congr 1
        ring
  · rw [← Int.zpow_le_iff_le_log (by decide) number]
    push_cast
    rw [zpow_add₀ two_ne_zero]
    gcongr

theorem lastPlace_eq {m : ℕ} (pos : 0 < m) (e : ℤ) :
    lastPlace (m * 2 ^ e) = max ((m.log2 : ℤ) + e - 52) (-1074) := by
  rw [lastPlace, log_significand pos]

/-- What has at most 53 bits is not rounded. -/
theorem nearest_of_short {m : ℕ} {e : ℤ} (short : m < 2 ^ 53) (least : -1074 ≤ e) :
    nearest (m * 2 ^ e) = m * 2 ^ e := by
  rcases Nat.eq_zero_or_pos m with rfl | pos
  · simp
  · have bits : m.log2 < 53 := (Nat.log2_lt (Nat.ne_of_gt pos)).mpr short
    apply nearest_eq_self (n := m) (e := e) (by push_cast; rfl)
    rw [lastPlace_eq pos]
    omega

theorem nearest_natCast {n : ℕ} (short : n < 2 ^ 53) : nearest n = n := by
  have exact := nearest_of_short (e := 0) short (by decide)
  rwa [zpow_zero, mul_one] at exact

theorem Canonical.nearest_eq {m : ℕ} {e : ℤ} (h : Canonical m e) :
    nearest (m * 2 ^ e) = m * 2 ^ e := nearest_of_short h.lt h.least

/-- What is a value already is not rounded. -/
theorem Canonical.rounded_eq {m : ℕ} {e : ℤ} (h : Canonical m e) (s : Sign) :
    rounded (signed s (m * 2 ^ e)) = signed s (m * 2 ^ e) := by
  have nonneg : (0 : ℚ) ≤ m * 2 ^ e := by positivity
  cases s with
  | positive => exact (rounded_of_nonneg nonneg).trans h.nearest_eq
  | negative =>
    rcases nonneg.eq_or_lt with zero | pos
    · rw [← zero]
      simp [signed]
    · have number : signed .negative ((m : ℚ) * 2 ^ e) < 0 := neg_neg_of_pos pos
      rw [rounded_of_neg number, signed, neg_neg, h.nearest_eq]

theorem Canonical.nearest_lt {m : ℕ} {e : ℤ} (h : Canonical m e) {v : ℚ} (nonneg : 0 ≤ v)
    (le : v ≤ m * 2 ^ e) : nearest v < 2 ^ (1024 : ℤ) := by
  calc nearest v ≤ nearest (m * 2 ^ e) := nearest_mono nonneg le
    _ = m * 2 ^ e := h.nearest_eq
    _ < 2 ^ (1024 : ℤ) := lt_limit h.lt h.largest

variable {s : Sign} {m : ℕ} {e : ℤ}

/-- A significand is rounded to the units of its last place, which are no finer than its own. -/
theorem hasValue_roundWithAccuracy (pos : 0 < m) (fine : e ≤ lastPlace (m * 2 ^ e))
    (bound : nearest (m * 2 ^ e) < 2 ^ (1024 : ℤ)) :
    HasValue (roundWithAccuracy .binary64 s m e .exact) (signed s (nearest (m * 2 ^ e)) : ℚ) := by
  obtain ⟨t, ht⟩ : ∃ t, lastPlace (m * 2 ^ e) = t := ⟨_, rfl⟩
  obtain ⟨k, hk⟩ : ∃ k : ℕ, e + k = t := ⟨(t - e).toNat, by omega⟩
  obtain ⟨r, hr⟩ : ∃ r, (ExtendedMantissa.mk m false false >>> k).roundedMantissa = r := ⟨_, rfl⟩
  have target : max ((m.log2 : ℤ) + e - 52) (-1074) = t := by rw [← lastPlace_eq pos, ht]
  have units : (m : ℚ) * 2 ^ e / 2 ^ t = m / 2 ^ k := by
    rw [← hk, zpow_add₀ two_ne_zero, zpow_natCast, mul_comm, mul_div_mul_left _ _ (by positivity)]
  have count : (r : ℤ) = roundEven (m / 2 ^ k) := hr ▸ roundedMantissa_shiftRight m k
  have value : nearest (m * 2 ^ e) = r * 2 ^ t := by
    rw [nearest, ht, units, ← count]
    push_cast
    rfl
  have short : r ≤ 2 ^ 53 := by
    have bits : m ≤ 2 ^ 53 * 2 ^ k := by
      rw [← Nat.pow_add]
      exact Nat.le_of_lt (Nat.lt_of_lt_of_le Nat.lt_log2_self
        (Nat.pow_le_pow_right Nat.two_pos (by omega)))
    have quotient : (m : ℚ) / 2 ^ k ≤ ((2 ^ 53 : ℤ) : ℚ) := by
      rw [div_le_iff₀ (by positivity)]
      exact_mod_cast bits
    have order := roundEven_mono quotient
    rw [← count, roundEven_intCast] at order
    exact_mod_cast order
  have full : 2 ^ 52 ≤ r ∨ t = -1074 := by
    by_cases least : t = -1074
    · exact .inr least
    · have log : m.log2 = 52 + k := by omega
      have lead : 2 ^ 52 * 2 ^ k ≤ m := by
        rw [← Nat.pow_add, ← log]
        exact Nat.log2_self_le (Nat.ne_of_gt pos)
      have quotient : ((2 ^ 52 : ℤ) : ℚ) ≤ (m : ℚ) / 2 ^ k := by
        rw [le_div_iff₀ (by positivity)]
        exact_mod_cast lead
      have order := roundEven_mono quotient
      rw [← count, roundEven_intCast] at order
      exact .inl (by exact_mod_cast order)
  obtain ⟨n, u, hn, hu, canonical, same⟩ :=
    shiftToTargetExponent_rounded short (by omega) full (value ▸ bound)
  change HasValue (scaled s (shiftToTargetExponent .binary64
    (shiftToTargetExponent .binary64 m e .exact).1.roundedMantissa
    (shiftToTargetExponent .binary64 m e .exact).2 .exact).1.mantissa
    (shiftToTargetExponent .binary64 (shiftToTargetExponent .binary64 m e .exact).1.roundedMantissa
      (shiftToTargetExponent .binary64 m e .exact).2 .exact).2) _
  rw [shiftToTargetExponent_eq target hk, hr, hn, hu, value, ← same]
  exact canonical.hasValue_scaled s

/-- A short significand is first extended by zeros. -/
theorem hasValue_round (pos : 0 < m) (bound : nearest (m * 2 ^ e) < 2 ^ (1024 : ℤ)) :
    HasValue (UnpackedFloat.round .binary64 s m e) (signed s (nearest (m * 2 ^ e)) : ℚ) := by
  obtain ⟨k, hk⟩ : ∃ k : ℕ, (e - lastPlace (m * 2 ^ e)).toNat = k := ⟨_, rfl⟩
  have same : ((m <<< k : ℕ) : ℚ) * 2 ^ (e - k) = m * 2 ^ e := by
    rw [Nat.shiftLeft_eq, zpow_sub₀ two_ne_zero, zpow_natCast]
    push_cast
    field_simp
  have extended : UnpackedFloat.round .binary64 s m e =
      roundWithAccuracy .binary64 s (m <<< k) (e - k) .exact := by
    rw [lastPlace_eq pos] at hk
    simp only [UnpackedFloat.round, targetExponent_eq, decreaseExponent, hk]
  have positive : 0 < m <<< k := by
    rw [Nat.shiftLeft_eq]
    exact Nat.mul_pos pos (Nat.two_pow_pos k)
  rw [extended, ← same]
  apply hasValue_roundWithAccuracy positive
  · rw [same]
    omega
  · rw [same]
    exact bound

/-- One full factor fills the product; two others have the least exponent both. -/
theorem hasValue_mul (s s' : Sign) {m' : ℕ} {e' : ℤ} {pos : 0 < m} {pos' : 0 < m'}
    (canonical : Canonical m e) (canonical' : Canonical m' e')
    (bound : nearest (m * 2 ^ e * (m' * 2 ^ e')) < 2 ^ (1024 : ℤ)) :
    HasValue (UnpackedFloat.mul .binary64 (.finite s m e pos) (.finite s' m' e' pos'))
      (signed (s * s') (nearest (m * 2 ^ e * (m' * 2 ^ e'))) : ℚ) := by
  have product := Nat.mul_pos pos pos'
  have same : ((m * m' : ℕ) : ℚ) * 2 ^ (e + e') = m * 2 ^ e * (m' * 2 ^ e') := by
    rw [zpow_add₀ two_ne_zero]
    push_cast
    ring
  have fine : 52 ≤ (m * m').log2 ∨ e + e' ≤ -1074 := by
    rw [Nat.le_log2 (Nat.ne_of_gt product)]
    rcases canonical.full with full | rfl
    · exact .inl (Nat.le_trans full (Nat.le_mul_of_pos_right m pos'))
    · rcases canonical'.full with full' | rfl
      · exact .inl (Nat.le_trans full' (Nat.le_mul_of_pos_left m' pos))
      · exact .inr (by decide)
  change HasValue (roundWithAccuracy .binary64 (s * s') (m * m') (e + e') .exact) _
  rw [← same] at bound ⊢
  apply hasValue_roundWithAccuracy product _ bound
  rw [lastPlace_eq product]
  omega

/-- A sum or a difference of significands is rounded by its size, and keeps its sign. -/
theorem hasValue_normalize {n : ℤ} (bound : nearest |n * 2 ^ e| < 2 ^ (1024 : ℤ)) :
    HasValue (UnpackedFloat.normalize .binary64 n e .positive) (rounded (n * 2 ^ e) : ℚ) := by
  have unit : (0 : ℚ) < 2 ^ e := by positivity
  unfold UnpackedFloat.normalize
  rcases lt_trichotomy n 0 with neg | rfl | pos
  · have number : (n : ℚ) * 2 ^ e < 0 := mul_neg_of_neg_of_pos (by exact_mod_cast neg) unit
    have size : -((n : ℚ) * 2 ^ e) = ((-n).toNat : ℕ) * 2 ^ e := by
      have cast : (((-n).toNat : ℤ) : ℚ) = ((-n : ℤ) : ℚ) := by
        exact_mod_cast Int.toNat_of_nonneg (by omega)
      push_cast at cast ⊢
      rw [cast, neg_mul]
    rw [Int.compare_eq_lt.mpr neg, rounded_of_neg number]
    rw [abs_of_neg number] at bound
    rw [size] at bound ⊢
    exact hasValue_round (s := .negative) (by omega) bound
  · rw [Int.cast_zero, zero_mul, rounded_of_nonneg le_rfl, nearest_zero]
    exact .zero _
  · have number : 0 < (n : ℚ) * 2 ^ e := mul_pos (by exact_mod_cast pos) unit
    have size : (n : ℚ) * 2 ^ e = (n.toNat : ℕ) * 2 ^ e := by
      have cast : ((n.toNat : ℤ) : ℚ) = (n : ℚ) := by
        exact_mod_cast Int.toNat_of_nonneg (by omega)
      push_cast at cast
      rw [cast]
    rw [Int.compare_eq_gt.mpr pos, rounded_of_nonneg number.le]
    rw [abs_of_pos number] at bound
    rw [size] at bound ⊢
    exact hasValue_round (s := .positive) (by omega) bound

/-- A count of at most 53 bits is a value. -/
theorem hasValue_ofNat {n : ℕ} (short : n < 2 ^ 53) :
    HasValue (UnpackedFloat.ofNat .binary64 n) (n : ℚ) := by
  have number : (0 : ℚ) ≤ n := Nat.cast_nonneg n
  have same : ((n : ℤ) : ℚ) * 2 ^ (0 : ℤ) = n := by simp
  have value := hasValue_normalize (n := n) (e := 0) (by
    rw [same, abs_of_nonneg number, nearest_natCast short]
    exact natCast_lt_limit short)
  rwa [same, rounded_of_nonneg number, nearest_natCast short] at value

end Significands

end WaveSequencer.Numeric
