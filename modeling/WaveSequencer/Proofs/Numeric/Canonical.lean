import Mathlib
import WaveSequencer.Numeric.Rounding

/-!
Finite binary64 values as a significand and an exponent. Main statements: a value in this form is
what its bits say, and a significand of at most 53 bits and the power of two above them is brought
into this form without loss.
-/
namespace WaveSequencer.Numeric
open Float.Model (Format totalExponent UnpackedFloat)
open Float.Model.UnpackedFloat

/-- The significand and the exponent of a finite value: 53 bits, or fewer at the least exponent. -/
structure Canonical (m : ℕ) (e : ℤ) : Prop where
  lt : m < 2 ^ 53
  least : -1074 ≤ e
  largest : e ≤ 971
  full : 2 ^ 52 ≤ m ∨ e = -1074

/-- A significand with its exponent as a value, which is zero if the significand is. -/
def scaled (s : Sign) (m : ℕ) (e : ℤ) : UnpackedFloat :=
  if h : m = 0 then .zero s else .finite s m e (Nat.pos_of_ne_zero h)

/-- A number with a sign. -/
def signed : Sign → ℚ → ℚ
  | .positive, v => v
  | .negative, v => -v

theorem signed_neg (s : Sign) (v : ℚ) : signed (-s) v = -signed s v := by
  cases s with
  | positive => rfl
  | negative => exact (neg_neg v).symm

theorem abs_signed (s : Sign) {v : ℚ} (nonneg : 0 ≤ v) : |signed s v| = v := by
  cases s with
  | positive => exact abs_of_nonneg nonneg
  | negative => exact (abs_neg v).trans (abs_of_nonneg nonneg)

/-- The sign of a significand is that of the number. -/
theorem signed_mul (s : Sign) (m : ℕ) (v : ℚ) : signed s (m * v) = (s.apply m : ℤ) * v := by
  cases s with
  | positive => rfl
  | negative =>
    have negated : ((Sign.negative.apply m : ℤ) : ℚ) = -m := Int.cast_neg (m : ℤ)
    rw [negated, neg_mul]
    rfl

/-- The number that a float stands for, or infinity. A zero may have either sign. -/
inductive HasValue : UnpackedFloat → WithTop ℚ → Prop
  | zero (s : Sign) : HasValue (.zero s) 0
  | finite {s : Sign} {m : ℕ} {e : ℤ} (pos : 0 < m) (canonical : Canonical m e) :
      HasValue (.finite s m e pos) (signed s (m * 2 ^ e) : ℚ)
  | infinity : HasValue (.infinity .positive) ⊤

theorem Canonical.hasValue_scaled {m : ℕ} {e : ℤ} (h : Canonical m e) (s : Sign) :
    HasValue (scaled s m e) (signed s (m * 2 ^ e) : ℚ) := by
  unfold scaled
  split
  · next zero =>
    have value : signed s ((m : ℚ) * 2 ^ e) = 0 := by cases s <;> simp [signed, zero]
    rw [value]
    exact .zero s
  · exact .finite _ h

theorem HasValue.eq_infinity {f : UnpackedFloat} (h : HasValue f ⊤) : f = .infinity .positive := by
  generalize hv : (⊤ : WithTop ℚ) = v at h
  cases h with
  | zero s => cases hv
  | finite => cases hv
  | infinity => rfl

/-- A number is zero, or a significand with a sign. -/
theorem HasValue.of_coe {f : UnpackedFloat} {v : ℚ} (h : HasValue f v) :
    (∃ s, f = .zero s ∧ v = 0) ∨
      ∃ s m e pos, f = .finite s m e pos ∧ Canonical m e ∧ v = signed s (m * 2 ^ e) := by
  generalize hw : (v : WithTop ℚ) = w at h
  cases h with
  | zero s => exact .inl ⟨s, rfl, WithTop.coe_injective hw⟩
  | finite pos canonical => exact .inr ⟨_, _, _, pos, rfl, canonical, WithTop.coe_injective hw⟩
  | infinity => exact absurd hw WithTop.coe_ne_top

/-- A number that is not negative has the positive sign, unless it is zero. -/
theorem HasValue.of_nonneg {f : UnpackedFloat} {v : ℚ} (h : HasValue f v) (nonneg : 0 ≤ v) :
    (∃ s, f = .zero s ∧ v = 0) ∨
      ∃ m e pos, f = .finite .positive m e pos ∧ Canonical m e ∧ v = m * 2 ^ e := by
  obtain zero | ⟨s, m, e, pos, rfl, canonical, rfl⟩ := h.of_coe
  · exact .inl zero
  · cases s with
    | positive => exact .inr ⟨m, e, pos, rfl, canonical, rfl⟩
    | negative =>
      have number : (0 : ℚ) < m * 2 ^ e := by positivity
      simp only [signed] at nonneg
      linarith

section Bits

theorem toNat_leading (v : BitVec 52) : (1#1 ++ v).toNat = 2 ^ 52 + v.toNat := by
  rw [BitVec.toNat_append, ← Nat.shiftLeft_add_eq_or_of_lt v.isLt]
  rfl

theorem canonical_of_unpack {b : BitVec Format.binary64.numBits} {s : Sign} {m : ℕ} {e : ℤ}
    {pos : 0 < m} (h : unpack .binary64 b = .finite s m e pos) : Canonical m e := by
  have mantissa : (unpackMantissa b).toNat < 2 ^ 52 := (unpackMantissa b).isLt
  have exponent : (unpackExponent b).toNat < 2 ^ 11 := (unpackExponent b).isLt
  unfold unpack at h
  dsimp only at h
  split at h
  · split at h <;> cases h
  · next inner =>
    have finite : (unpackExponent b).toNat ≠ 2047 := fun top => inner (BitVec.toNat_inj.mp top)
    split at h
    · next bottom =>
      split at h
      · cases h
      · cases h
        rw [bottom]
        exact ⟨by omega, by decide, by decide, .inr rfl⟩
    · next normal =>
      have positive : (unpackExponent b).toNat ≠ 0 := fun zero => normal (BitVec.toNat_inj.mp zero)
      have bias : (Format.binary64.exponentBias + Format.binary64.mantissaBitsWithoutImplicit : ℤ) =
          1075 := rfl
      cases h
      rw [bias, toNat_leading]
      exact ⟨by omega, by omega, by omega, .inl (by omega)⟩

theorem biased_eq (e : ℤ) :
    e + Format.binary64.exponentBias + Format.binary64.mantissaBitsWithoutImplicit = e + 1075 := by
  change e + 1023 + 52 = e + 1075
  omega

/-- A number between the reserved exponents keeps its value in the 11 bits of an exponent. -/
theorem toNat_exponent {n : ℕ} (h : n < 2047) : (BitVec.ofNat 11 n).toNat = n ∧
    BitVec.ofNat 11 n ≠ -1#11 ∧ (0 < n → BitVec.ofNat 11 n ≠ 0#11) := by
  have same : (BitVec.ofNat 11 n).toNat = n := Nat.mod_eq_of_lt (by omega)
  refine ⟨same, ?_, ?_⟩
  · intro top
    rw [top] at same
    exact Nat.ne_of_gt h same
  · intro pos bottom
    rw [bottom] at same
    exact Nat.ne_of_gt pos same.symm

theorem unpack_pack_normal {s : Sign} {m : ℕ} {e : ℤ} (pos : 0 < m) (lo : 2 ^ 52 ≤ m)
    (hi : m < 2 ^ 53) (least : -1074 ≤ e) (largest : e ≤ 971) :
    unpack .binary64 (pack .binary64 (.finite s m e pos)) = .finite s m e pos := by
  have inner : ¬2 ^ Format.binary64.exponentBits ≤ (e + 1075).toNat + 1 := by
    change ¬2048 ≤ (e + 1075).toNat + 1
    omega
  have log : m.log2 = 52 := (Nat.log2_eq_iff (Nat.ne_of_gt pos)).mpr ⟨lo, hi⟩
  have mantissa : (BitVec.ofNat 52 m).toNat = m - 2 ^ 52 := by
    rw [BitVec.toNat_ofNat]
    omega
  obtain ⟨exponent, top, bottom⟩ := toNat_exponent (n := (e + 1075).toNat) (by omega)
  have bias := biased_eq e
  simp only [pack, bias, if_neg inner]
  rw [if_pos (by rw [log]; rfl)]
  simp only [unpack, unpackExponent_packComponents, unpackMantissa_packComponents,
    unpackSign_packComponents, Sign.ofBitVec_toBitVec, if_neg top, if_neg (bottom (by omega)),
    exponent, finite.injEq, true_and]
  rw [toNat_leading, mantissa]
  constructor
  · omega
  · change ((e + 1075).toNat : ℤ) - (1023 + 52) = e
    omega

theorem unpack_pack_subnormal {s : Sign} {m : ℕ} (pos : 0 < m) (short : m < 2 ^ 52) :
    unpack .binary64 (pack .binary64 (.finite s m (-1074) pos)) = .finite s m (-1074) pos := by
  have log : ¬m.log2 + 1 = Format.binary64.mantissaBits := by
    have bits := (Nat.log2_lt (Nat.ne_of_gt pos)).mpr short
    change ¬m.log2 + 1 = 53
    omega
  have mantissa : (BitVec.ofNat 52 m).toNat = m := Nat.mod_eq_of_lt short
  have nonzero : BitVec.ofNat 52 m ≠ 0#52 := by
    intro zero
    rw [zero] at mantissa
    exact Nat.ne_of_gt pos mantissa.symm
  have bias := biased_eq (-1074)
  simp only [pack, bias]
  rw [if_neg (by decide), if_neg log]
  simp only [unpack, unpackExponent_packComponents, unpackMantissa_packComponents,
    unpackSign_packComponents, Sign.ofBitVec_toBitVec, dif_neg nonzero, mantissa]
  rfl

/-- A value is what its bits say. -/
theorem unpack_pack {s : Sign} {m : ℕ} {e : ℤ} (h : Canonical m e) (pos : 0 < m) :
    unpack .binary64 (pack .binary64 (.finite s m e pos)) = .finite s m e pos := by
  by_cases normal : 2 ^ 52 ≤ m
  · exact unpack_pack_normal pos normal h.lt h.least h.largest
  · obtain rfl := h.full.resolve_left normal
    exact unpack_pack_subnormal pos (Nat.not_le.mp normal)

theorem unpack_packedInfinity (s : Sign) :
    unpack .binary64 (packedInfinity .binary64 s) = .infinity s := by
  cases s <;> rfl

theorem HasValue.unpack_pack {f : UnpackedFloat} {v : WithTop ℚ} (h : HasValue f v) :
    HasValue (unpack .binary64 (pack .binary64 f)) v := by
  cases h with
  | zero s =>
    have same : unpack .binary64 (pack .binary64 (.zero s)) = .zero s := unpack_packedZero
    rw [same]
    exact .zero s
  | finite pos canonical =>
    rw [Numeric.unpack_pack canonical pos]
    exact .finite pos canonical
  | infinity =>
    have same : unpack .binary64 (pack .binary64 (.infinity .positive)) = .infinity .positive :=
      unpack_packedInfinity .positive
    rw [same]
    exact .infinity

end Bits

/-- At most 53 bits are below the power of two that is too large. -/
theorem lt_limit {m : ℕ} {e : ℤ} (short : m < 2 ^ 53) (largest : e ≤ 971) :
    (m : ℚ) * 2 ^ e < 2 ^ (1024 : ℤ) := by
  have bits : (m : ℚ) < 2 ^ (53 : ℤ) := by exact_mod_cast short
  calc (m : ℚ) * 2 ^ e < 2 ^ (53 : ℤ) * 2 ^ e := by gcongr
    _ = 2 ^ (53 + e) := (zpow_add₀ two_ne_zero _ _).symm
    _ ≤ 2 ^ (1024 : ℤ) := zpow_le_zpow_right₀ one_le_two (by omega)

theorem natCast_lt_limit {n : ℕ} (short : n < 2 ^ 53) : (n : ℚ) < 2 ^ (1024 : ℤ) := by
  have limit := lt_limit (e := 0) short (by decide)
  rwa [zpow_zero, mul_one] at limit

section Shifts

theorem mantissa_shiftRight (em : ExtendedMantissa) (k : ℕ) :
    (em >>> k).mantissa = em.mantissa / 2 ^ k := by
  change (k.repeat ExtendedMantissa.shiftRightOne em).mantissa = _
  induction k with
  | zero => simp [Nat.repeat]
  | succ k ih =>
    change (k.repeat ExtendedMantissa.shiftRightOne em).mantissa / 2 = _
    rw [ih, Nat.div_div_eq_div_mul, Nat.pow_succ]

theorem targetExponent_eq (m : ℕ) (e : ℤ) :
    Format.binary64.targetExponent (totalExponent m e) = max (m.log2 + e - 52) (-1074) := by
  simp only [Format.targetExponent, totalExponent, Format.mantissaBits, Format.minExponent]
  norm_num
  omega

/-- A value that is finer than its target is shifted down to it. -/
theorem shiftToTargetExponent_eq {m k : ℕ} {e t : ℤ}
    (target : max ((m.log2 : ℤ) + e - 52) (-1074) = t) (shift : e + k = t) :
    shiftToTargetExponent .binary64 m e .exact = (ExtendedMantissa.mk m false false >>> k, t) := by
  have amount : (t - e).toNat = k := by omega
  simp only [shiftToTargetExponent, targetExponent_eq, target, shiftToExponent, amount, shift]
  rfl

/-- A value below the power of two that is too large is not too large itself. -/
theorem exponent_le {m : ℕ} {e : ℤ} (full : 2 ^ 52 ≤ m ∨ e = -1074)
    (bound : (m : ℚ) * 2 ^ e < 2 ^ (1024 : ℤ)) : e ≤ 971 := by
  rcases full with full | rfl
  · have lead : (2 : ℚ) ^ (52 : ℤ) ≤ m := by exact_mod_cast full
    have power : (2 : ℚ) ^ (52 + e) < 2 ^ (1024 : ℤ) := by
      calc (2 : ℚ) ^ (52 + e) = 2 ^ (52 : ℤ) * 2 ^ e := zpow_add₀ two_ne_zero _ _
        _ ≤ m * 2 ^ e := by gcongr
        _ < 2 ^ (1024 : ℤ) := bound
    have order := (zpow_lt_zpow_iff_right₀ one_lt_two).mp power
    omega
  · decide

/-- A rounded significand of 54 bits can only be the power of two, which is halved without loss. -/
theorem shiftToTargetExponent_rounded {r : ℕ} {t : ℤ} (hr : r ≤ 2 ^ 53) (least : -1074 ≤ t)
    (full : 2 ^ 52 ≤ r ∨ t = -1074) (bound : (r : ℚ) * 2 ^ t < 2 ^ (1024 : ℤ)) :
    ∃ m e, (shiftToTargetExponent .binary64 r t .exact).1.mantissa = m ∧
      (shiftToTargetExponent .binary64 r t .exact).2 = e ∧ Canonical m e ∧
      (m : ℚ) * 2 ^ e = r * 2 ^ t := by
  rcases Nat.lt_or_eq_of_le hr with lt | rfl
  · have target : max ((r.log2 : ℤ) + t - 52) (-1074) = t := by
      rcases full with full | rfl
      · have log : r.log2 = 52 :=
          (Nat.log2_eq_iff (Nat.ne_of_gt (Nat.lt_of_lt_of_le (by decide) full))).mpr ⟨full, lt⟩
        omega
      · have log : r.log2 ≤ 52 := by
          by_cases zero : r = 0
          · simp [zero]
          · exact Nat.le_of_lt_succ ((Nat.log2_lt zero).mpr lt)
        omega
    rw [shiftToTargetExponent_eq target (k := 0) (Int.add_zero t)]
    exact ⟨r, t, rfl, rfl, ⟨lt, least, exponent_le full bound, full⟩, rfl⟩
  · have target : max (((2 ^ 53).log2 : ℤ) + t - 52) (-1074) = t + 1 := by
      rw [Nat.log2_two_pow]
      omega
    have same : ((2 ^ 52 : ℕ) : ℚ) * 2 ^ (t + 1) = ((2 ^ 53 : ℕ) : ℚ) * 2 ^ t := by
      rw [zpow_add₀ two_ne_zero]
      push_cast
      ring
    have short : 2 ^ 52 < 2 ^ 53 := Nat.pow_lt_pow_right (by decide) (by decide)
    have filled : 2 ^ 52 ≤ 2 ^ 52 ∨ t + 1 = -1074 := .inl (Nat.le_refl _)
    rw [shiftToTargetExponent_eq target (k := 1) rfl]
    exact ⟨2 ^ 52, t + 1, rfl, rfl,
      ⟨short, by omega, exponent_le filled (same ▸ bound), filled⟩, same⟩

end Shifts

end WaveSequencer.Numeric
