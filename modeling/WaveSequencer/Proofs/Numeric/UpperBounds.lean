import WaveSequencer.Proofs.Numeric.Order

/-!
Cutting off the fraction. A value that is not negative becomes the whole part of its number, clipped
to 64 bits. Main statement: the product of a count with half of a value from zero to one has a whole
part of at most half of the count, since rounding keeps the order and half of a count needs none.
-/
namespace WaveSequencer.Numeric
open Float.Model (UnpackedFloat)
open Float.Model.UnpackedFloat

/-- The bits behind the point are shifted out. -/
theorem floor_significand (m : ℕ) (e : ℤ) :
    ⌊(m : ℚ) * 2 ^ e⌋₊ = m <<< e.toNat / 2 ^ (0 - (e - e.toNat)).toNat := by
  have exponent : e = e.toNat - (0 - (e - e.toNat)).toNat := by omega
  have value : (m : ℚ) * 2 ^ e =
      ((m <<< e.toNat : ℕ) : ℚ) / (2 ^ (0 - (e - e.toNat)).toNat : ℕ) := by
    conv_lhs => rw [exponent, zpow_sub₀ two_ne_zero, zpow_natCast, zpow_natCast]
    rw [Nat.shiftLeft_eq]
    push_cast
    ring
  rw [value, Nat.floor_div_eq_div]

theorem toNat_ofNatClamp (n : ℕ) : (UInt64.ofNatClamp n).toNat = min n (2 ^ 64 - 1) := by
  unfold UInt64.ofNatClamp
  split
  · next small =>
    rw [UInt64.toNat_ofNatLT]
    exact (Nat.min_eq_left (Nat.le_pred_of_lt small)).symm
  · next large => exact (Nat.min_eq_right (Nat.le_trans (Nat.pred_le _) (Nat.not_lt.mp large))).symm

theorem HasValue.toNat_toUInt64 {f : UnpackedFloat} {v : ℚ} (h : HasValue f v) (nonneg : 0 ≤ v) :
    (UnpackedFloat.toUInt64 f).toNat = min ⌊v⌋₊ (2 ^ 64 - 1) := by
  unfold UnpackedFloat.toUInt64
  rw [toNat_ofNatClamp]
  obtain ⟨s, rfl, rfl⟩ | ⟨m, e, pos, rfl, -, rfl⟩ := h.of_nonneg nonneg
  · rw [Nat.floor_zero]
    rfl
  · have whole : UnpackedFloat.toInt 0 (UInt64.size - 1) (.finite .positive m e pos) =
        (m <<< e.toNat / 2 ^ (0 - (e - e.toNat)).toNat : ℕ) := by
      rw [← mantissa_shiftRight (ExtendedMantissa.mk (m <<< e.toNat) false false)]
      simp only [UnpackedFloat.toInt, roundToInt, decreaseExponent, Int.sub_zero]
      rfl
    rw [whole, Int.toNat_natCast, floor_significand]

/-- The whole part, unless 64 bits are too few for it. -/
theorem Denotes.truncate_eq {x : Float} {v : ℚ} (h : Denotes x v) (nonneg : 0 ≤ v) :
    truncate x = min ⌊v⌋₊ (2 ^ 64 - 1) := HasValue.toNat_toUInt64 h nonneg

theorem denotes_one : Denotes 1.0 (1 : ℚ) := by
  have value : (1 : ℚ) = signed .positive ((2 ^ 52 : ℕ) * 2 ^ (-52 : ℤ)) := by norm_num [signed]
  rw [value]
  exact .finite (by decide) ⟨by decide, by decide, by decide, by decide⟩

theorem denotes_half : Denotes 0.5 (1 / 2 : ℚ) := by
  have value : (1 / 2 : ℚ) = signed .positive ((2 ^ 52 : ℕ) * 2 ^ (-53 : ℤ)) := by
    norm_num [signed]
  rw [value]
  exact .finite (by decide) ⟨by decide, by decide, by decide, by decide⟩

/-- What lies between zero and one is a number. -/
theorem exists_denotes_of_le_one {x : Float} (nonneg : 0.0 ≤ x) (le : x ≤ 1.0) :
    ∃ v : ℚ, 0 ≤ v ∧ v ≤ 1 ∧ Denotes x v := by
  obtain ⟨v, lower, hv⟩ := exists_denotes nonneg
  have upper := (hv.le_iff denotes_one).mp le
  lift v to ℚ using ne_top_of_le_ne_top WithTop.coe_ne_top upper
  exact ⟨v, by exact_mod_cast lower, by exact_mod_cast upper, hv⟩

/-- Neither product is rounded beyond half of the count. -/
theorem truncate_half_le {x : Float} (nonneg : 0.0 ≤ x) (le : x ≤ 1.0) {n : ℕ} (h : n < 2 ^ 30) :
    truncate (x * 0.5 * ofCount n) ≤ n / 2 := by
  obtain ⟨v, lower, upper, hv⟩ := exists_denotes_of_le_one nonneg le
  have short : n < 2 ^ 53 := Nat.lt_trans h (by decide)
  have count : (0 : ℚ) ≤ n := Nat.cast_nonneg n
  obtain ⟨a, nonneg, first, ha⟩ := hv.mul_le denotes_half lower (by norm_num) (m := 1) (e := -1)
    (by decide) (by decide) (by decide) (by norm_num; linarith)
  have half : a * n ≤ n * 2 ^ (-1 : ℤ) := by
    rw [mul_comm]
    gcongr
    simpa using first
  obtain ⟨b, nonneg', second, hb⟩ := ha.mul_le (denotes_ofCount short) nonneg count short
    (by decide) (by decide) half
  have cut : (n : ℚ) ≤ 2 * (n / 2 : ℕ) + 1 := by
    exact_mod_cast (by omega : n ≤ 2 * (n / 2) + 1)
  have whole : ⌊b⌋₊ < n / 2 + 1 := by
    rw [Nat.floor_lt nonneg']
    rw [zpow_neg_one] at second
    push_cast
    linarith
  rw [hb.truncate_eq nonneg']
  exact (Nat.min_le_left _ _).trans (Nat.le_of_lt_succ whole)

end WaveSequencer.Numeric
