import WaveSequencer.Proofs.Numeric.UpperBounds

/-!
Rounding to the nearest integer. Main statement: rounding a number gives the one integer that is
nearest, or of two the one that is farther from zero, and what is not finite stays as it is. Below
`2 ^ 52` no step on the way is rounded, and from there on a value has no fraction.
-/
namespace WaveSequencer.Numeric
open Float.Model (Format UnpackedFloat)
open Float.Model.UnpackedFloat

/-- The nearest integer, and of two the one that is farther from zero. -/
structure RoundsAway (v : ℚ) (n : ℤ) : Prop where
  near : |v - n| ≤ 1 / 2
  tie : |v - n| = 1 / 2 → |v| < |(n : ℚ)|

namespace RoundsAway
variable {v : ℚ} {m n : ℤ}

theorem self (n : ℤ) : RoundsAway n n := by
  have distance : |(n : ℚ) - n| = 0 := by rw [sub_self, abs_zero]
  constructor
  · rw [distance]
    norm_num
  · intro tie
    rw [distance] at tie
    norm_num at tie

theorem neg (h : RoundsAway v n) : RoundsAway (-v) (-n) := by
  have distance : |-v - (-n : ℤ)| = |v - n| := by
    rw [Int.cast_neg, neg_sub_neg, abs_sub_comm]
  constructor
  · rw [distance]
    exact h.near
  · rw [distance, abs_neg, Int.cast_neg, abs_neg]
    exact h.tie

/-- The fraction decides, and one half goes away from zero. -/
theorem of_nonneg (nonneg : 0 ≤ v) :
    RoundsAway v (if 1 / 2 ≤ v - ⌊v⌋₊ then ⌊v⌋₊ + 1 else ⌊v⌋₊ : ℕ) := by
  have lower := Nat.floor_le nonneg
  have upper := Nat.lt_floor_add_one v
  split
  · next large =>
    have distance : |v - ((⌊v⌋₊ + 1 : ℕ) : ℤ)| = ⌊v⌋₊ + 1 - v := by
      rw [abs_sub_comm]
      push_cast
      exact abs_of_pos (by linarith)
    constructor
    · rw [distance]
      linarith
    · intro _
      push_cast
      rwa [abs_of_nonneg nonneg, abs_of_nonneg (by positivity)]
  · next small =>
    have distance : |v - ((⌊v⌋₊ : ℕ) : ℤ)| = v - ⌊v⌋₊ := by
      push_cast
      exact abs_of_nonneg (by linarith)
    constructor
    · rw [distance]
      exact (not_le.mp small).le
    · intro tie
      rw [distance] at tie
      exact absurd tie.ge small

/-- Two integers would be one unit apart, and the nearer to zero is not rounded to. -/
theorem le (h : RoundsAway v m) (h' : RoundsAway v n) : m ≤ n := by
  by_contra greater
  have apart : (n : ℚ) + 1 ≤ m := by exact_mod_cast not_le.mp greater
  have below := (abs_le.mp h.near).1
  have above := (abs_le.mp h'.near).2
  have middle : v = n + 1 / 2 := by linarith
  have next : (m : ℚ) = n + 1 := by linarith
  have first := h.tie (by rw [middle, next]; norm_num)
  have second := h'.tie (by rw [middle]; norm_num)
  rw [middle] at first second
  rw [next] at first
  rcases le_or_gt 0 n with nonneg | neg
  · have number : (0 : ℚ) ≤ n := by exact_mod_cast nonneg
    rw [abs_of_nonneg (by linarith), abs_of_nonneg number] at second
    linarith
  · have number : (n : ℚ) + 1 ≤ 0 := by exact_mod_cast neg
    rw [abs_of_nonpos (by linarith), abs_of_nonpos number] at first
    linarith

theorem iff_eq (h : RoundsAway v n) : RoundsAway v m ↔ m = n := by
  constructor
  · intro h'
    exact le_antisymm (h'.le h) (h.le h')
  · rintro rfl
    exact h

end RoundsAway

section Sign

theorem toNat_unpackSign (b : BitVec Format.binary64.numBits) :
    (unpackSign b).toNat = b.toNat / 2 ^ 63 := by
  have small : b.toNat < 2 ^ 64 := b.isLt
  simp only [unpackSign, BitVec.toNat_cast, BitVec.extractLsb, BitVec.extractLsb'_toNat]
  change (b.toNat >>> 63) % 2 ^ 1 = _
  rw [Nat.shiftRight_eq_div_pow]
  omega

theorem sign_of_unpack {b : BitVec Format.binary64.numBits} {s : Sign} {m : ℕ} {e : ℤ}
    {pos : 0 < m} (h : unpack .binary64 b = .finite s m e pos) :
    s = Sign.ofBitVec (unpackSign b) := by
  unfold unpack at h
  dsimp only at h
  split at h
  · split at h <;> cases h
  · split at h
    · split at h <;> cases h
      rfl
    · cases h
      rfl

theorem signBit_iff (x : Float) :
    signBit x = true ↔ @unpackSign .binary64 x.toBits.toBitVec ≠ 0#1 := by
  have small : x.toBits.toNat < 2 ^ 64 := x.toBits.toNat_lt
  have leading : (x.toBits >>> 63).toNat = x.toBits.toNat / 2 ^ 63 := by
    rw [UInt64.toNat_shiftRight, ← Nat.shiftRight_eq_div_pow]
    rfl
  rw [signBit, beq_iff_eq, ← UInt64.toNat_inj, leading, Ne, ← BitVec.toNat_inj, toNat_unpackSign]
  change x.toBits.toNat / 2 ^ 63 = 1 ↔ ¬x.toBits.toNat / 2 ^ 63 = 0
  omega

/-- The sign bit is that of the number. -/
theorem Denotes.eq_of_signBit {x : Float} {v : ℚ} (h : Denotes x v) :
    v = if signBit x then -|v| else |v| := by
  obtain ⟨s, -, rfl⟩ | ⟨s, m, e, pos, value, canonical, rfl⟩ := HasValue.of_coe h
  · simp
  · have sign : s = Sign.ofBitVec (@unpackSign .binary64 x.toBits.toBitVec) := sign_of_unpack value
    rw [abs_signed s (by positivity), sign, Sign.ofBitVec]
    split
    · next positive => rw [if_neg (fun bit => (signBit_iff x).mp bit positive), signed]
    · next negative => rw [if_pos ((signBit_iff x).mpr negative), signed]

end Sign

section Exact
variable {x : Float} {v : ℚ}

/-- What is behind the point has no more bits than the value. -/
theorem Denotes.nearest_fraction (h : Denotes x v) (nonneg : 0 ≤ v) :
    nearest (v - ⌊v⌋₊) = v - ⌊v⌋₊ := by
  obtain ⟨s, -, rfl⟩ | ⟨m, e, pos, -, canonical, rfl⟩ := HasValue.of_nonneg h nonneg
  · simp
  · rcases le_or_gt 0 e with whole | fraction
    · rw [← shiftLeft_zpow m whole, zpow_zero, mul_one, Nat.floor_natCast, sub_self, nearest_zero]
    · obtain ⟨k, hk⟩ : ∃ k, ⌊(m : ℚ) * 2 ^ e⌋₊ = k := ⟨_, rfl⟩
      have units : (k : ℚ) = (k <<< (0 - e).toNat : ℕ) * 2 ^ e := by
        rw [shiftLeft_zpow k fraction.le, zpow_zero, mul_one]
      have le : k <<< (0 - e).toNat ≤ m := by
        have order := Nat.floor_le nonneg
        rw [hk, units] at order
        exact_mod_cast le_of_mul_le_mul_right order (by positivity)
      rw [hk, units, ← sub_mul, ← Nat.cast_sub le]
      exact nearest_of_short (Nat.lt_of_le_of_lt (Nat.sub_le _ _) canonical.lt) canonical.least

/-- From `2 ^ 52` on the last place is not behind the point. -/
theorem Denotes.exists_intCast (h : Denotes x v) (large : 2 ^ 52 ≤ |v|) : ∃ n : ℤ, v = n := by
  obtain ⟨s, -, rfl⟩ | ⟨s, m, e, pos, -, canonical, rfl⟩ := HasValue.of_coe h
  · exact ⟨0, Int.cast_zero.symm⟩
  · have whole : 0 ≤ e := by
      by_contra fraction
      have size : (m : ℚ) * 2 ^ e < 2 ^ 52 := by
        have bits : (m : ℚ) < 2 ^ 53 := by exact_mod_cast canonical.lt
        have half : (2 : ℚ) ^ e ≤ 2 ^ (-1 : ℤ) := zpow_le_zpow_right₀ one_le_two (by omega)
        calc (m : ℚ) * 2 ^ e ≤ m * 2 ^ (-1 : ℤ) := by gcongr
          _ < 2 ^ 53 * 2 ^ (-1 : ℤ) := by gcongr
          _ = 2 ^ 52 := by norm_num
      rw [abs_signed s (by positivity)] at large
      exact absurd large (not_le.mpr size)
    refine ⟨s.apply m * 2 ^ e.toNat, ?_⟩
    rw [signed_mul, Int.cast_mul, Int.cast_pow, ← zpow_natCast, Int.toNat_of_nonneg whole]
    rfl

/-- Every step on the way to the nearest integer is exact. -/
theorem Denotes.round_size (h : Denotes x v) (nonneg : 0 ≤ v) (small : v < 2 ^ 52) :
    ∃ n : ℕ, RoundsAway v n ∧
      Denotes (if x - x.toUInt64.toFloat ≥ 0.5 then x.toUInt64.toFloat + 1.0
        else x.toUInt64.toFloat) (n : ℚ) := by
  have floor : ⌊v⌋₊ < 2 ^ 52 := (Nat.floor_lt nonneg).mpr (by exact_mod_cast small)
  have count : x.toUInt64.toNat = ⌊v⌋₊ := by
    have clipped := HasValue.toNat_toUInt64 h nonneg
    rw [Nat.min_eq_left (by omega)] at clipped
    exact clipped
  have whole : Denotes x.toUInt64.toFloat (⌊v⌋₊ : ℚ) := by
    rw [← count]
    exact denotes_toFloat (by omega)
  have rest : Denotes (x - x.toUInt64.toFloat) (v - ⌊v⌋₊ : ℚ) := by
    have difference := h.sub whole (by exact_mod_cast nonneg) (Nat.cast_nonneg _)
    rwa [WithTop.map_coe, rounded_of_nonneg (sub_nonneg.mpr (Nat.floor_le nonneg)),
      h.nearest_fraction nonneg] at difference
  have next : Denotes (x.toUInt64.toFloat + 1.0) ((⌊v⌋₊ + 1 : ℕ) : ℚ) := by
    have short : ⌊v⌋₊ + 1 < 2 ^ 53 := by omega
    have sum := whole.add denotes_one
    rw [← Nat.cast_add_one, abs_of_nonneg (Nat.cast_nonneg _),
      rounded_of_nonneg (Nat.cast_nonneg _), nearest_natCast short] at sum
    exact sum (natCast_lt_limit short)
  have upward : x - x.toUInt64.toFloat ≥ 0.5 ↔ 1 / 2 ≤ v - ⌊v⌋₊ := by
    rw [ge_iff_le, denotes_half.le_iff rest, WithTop.coe_le_coe]
  refine ⟨_, .of_nonneg nonneg, ?_⟩
  by_cases large : 1 / 2 ≤ v - ⌊v⌋₊
  · rw [if_pos large, if_pos (upward.mpr large)]
    exact next
  · rw [if_neg large, if_neg (mt upward.mp large)]
    exact whole

theorem denotes_integral : Denotes 4503599627370496.0 (2 ^ 52 : ℚ) := by
  have value : (2 ^ 52 : ℚ) = signed .positive ((2 ^ 52 : ℕ) * 2 ^ (0 : ℤ)) := by
    norm_num [signed]
  rw [value]
  exact .finite (by decide) ⟨by decide, by decide, by decide, by decide⟩

/-- The result is the nearest integer, and of two the one that is farther from zero. -/
theorem Denotes.roundHalfAway (h : Denotes x v) :
    ∃ n : ℤ, Denotes (Numeric.roundHalfAway x) (n : ℚ) ∧ ∀ m, RoundsAway v m ↔ m = n := by
  unfold Numeric.roundHalfAway
  dsimp only
  by_cases small : |v| < 2 ^ 52
  · obtain ⟨n, rounds, value⟩ := h.abs.round_size (abs_nonneg v) small
    rw [if_pos ((h.abs.lt_iff denotes_integral).mpr (by exact_mod_cast small))]
    have sign := h.eq_of_signBit
    split
    · next negative =>
      rw [if_pos negative] at sign
      rw [sign]
      exact ⟨-n, by simpa using value.neg, fun _ => rounds.neg.iff_eq⟩
    · next positive =>
      rw [if_neg positive] at sign
      rw [sign]
      exact ⟨n, value, fun _ => rounds.iff_eq⟩
  · obtain ⟨n, rfl⟩ := h.exists_intCast (not_lt.mp small)
    rw [if_neg (mt (h.abs.lt_iff denotes_integral).mp (by exact_mod_cast small))]
    exact ⟨n, h, fun _ => (RoundsAway.self n).iff_eq⟩

/-- Adding one half first would round the second value up. -/
example : roundHalfAway (-2.5) = -3.0 ∧ roundHalfAway 0.49999999999999994 = 0.0 := by decide

/-- What is infinite or undefined stays so. -/
theorem roundHalfAway_of_not_isFinite (h : ¬x.isFinite = true) : Numeric.roundHalfAway x = x := by
  have unbounded : ¬UnpackedFloat.isFinite x.toModel.unpack = true := h
  have size : x.abs.toModel.unpack = unpack .binary64 (pack .binary64 x.toModel.unpack.abs) := rfl
  have large : ¬x.abs < 4503599627370496.0 := by
    intro below
    cases value : x.toModel.unpack with
    | notANumber =>
      have lower : UnpackedFloat.lt x.abs.toModel.unpack
          (4503599627370496.0 : Float).toModel.unpack = true := of_decide_eq_true below
      rw [size, value] at lower
      cases lower
    | infinity s =>
      have top : Denotes x.abs ⊤ := by
        rw [Denotes, size, value]
        exact HasValue.infinity.unpack_pack
      exact not_top_lt ((top.lt_iff denotes_integral).mp below)
    | zero s => exact unbounded (value ▸ rfl)
    | finite s m e pos => exact unbounded (value ▸ rfl)
  exact if_neg large

end Exact

end WaveSequencer.Numeric
