import WaveSequencer.Proofs.Numeric.Order

/-!
Products and quotients of times. A float is unsigned if it is neither negative nor undefined, and
not the negative zero, by which a quotient would become negative. Main statements: a product and a
quotient with a positive float are unsigned, and so are counts.
-/
namespace WaveSequencer.Numeric
open Float.Model (Format UnpackedFloat)
open Float.Model.UnpackedFloat

inductive Unsigned : UnpackedFloat → Prop
  | zero : Unsigned (.zero .positive)
  | finite {m : ℕ} {e : ℤ} (pos : 0 < m) : Unsigned (.finite .positive m e pos)
  | infinity : Unsigned (.infinity .positive)

/-- Rounding keeps the sign, whatever it cuts off. -/
theorem unsigned_roundWithAccuracy (m : ℕ) (e : ℤ) (accuracy : Accuracy) :
    Unsigned (roundWithAccuracy .binary64 .positive m e accuracy) := by
  simp only [roundWithAccuracy]
  split
  · exact .zero
  · exact .finite _

theorem unsigned_ofNat (n : ℕ) : Unsigned (UnpackedFloat.ofNat .binary64 n) := by
  simp only [UnpackedFloat.ofNat, UnpackedFloat.ofInt, UnpackedFloat.normalize]
  split
  · next neg => exact absurd (Int.compare_eq_lt.mp neg) (by omega)
  · exact .zero
  · exact unsigned_roundWithAccuracy _ _ _

section Operations
variable {f : UnpackedFloat} {m : ℕ}

/-- A finite factor is not zero here, so that the product with infinity is defined. -/
theorem Unsigned.mul (h : Unsigned f) (e : ℤ) (pos : 0 < m) :
    Unsigned (UnpackedFloat.mul .binary64 (.finite .positive m e pos) f) := by
  cases h with
  | zero => exact .zero
  | finite pos' => exact unsigned_roundWithAccuracy _ _ _
  | infinity => exact .infinity

theorem Unsigned.div (h : Unsigned f) (e : ℤ) (pos : 0 < m) :
    Unsigned (UnpackedFloat.div .binary64 f (.finite .positive m e pos)) := by
  cases h with
  | zero => exact .zero
  | finite pos' => exact unsigned_roundWithAccuracy _ _ _
  | infinity => exact .infinity

theorem Unsigned.div_into (h : Unsigned f) (e : ℤ) (pos : 0 < m) :
    Unsigned (UnpackedFloat.div .binary64 (.finite .positive m e pos) f) := by
  cases h with
  | zero => exact .infinity
  | finite pos' => exact unsigned_roundWithAccuracy _ _ _
  | infinity => exact .zero

end Operations

/-- Bits with the positive sign and less than the greatest exponent. -/
theorem unsigned_unpack_packComponents {exponent : BitVec 11} (inner : exponent ≠ -1#11)
    (mantissa : BitVec 52) :
    Unsigned (unpack .binary64 (packComponents .binary64 .positive exponent mantissa)) := by
  simp only [unpack, unpackExponent_packComponents, unpackMantissa_packComponents,
    unpackSign_packComponents, Sign.ofBitVec_toBitVec, if_neg inner]
  split
  · split
    · exact .zero
    · exact .finite _
  · exact .finite _

theorem Unsigned.unpack_pack {f : UnpackedFloat} (h : Unsigned f) :
    Unsigned (unpack .binary64 (pack .binary64 f)) := by
  cases h with
  | zero =>
    have same : unpack .binary64 (pack .binary64 (.zero .positive)) = .zero .positive :=
      unpack_packedZero
    rw [same]
    exact .zero
  | infinity => exact .infinity
  | @finite m e pos =>
    have bias := biased_eq e
    simp only [pack, bias]
    split
    · exact .infinity
    · next inner =>
      have biased : (e + 1075).toNat < 2047 := by
        change ¬2048 ≤ (e + 1075).toNat + 1 at inner
        omega
      split
      · exact unsigned_unpack_packComponents (toNat_exponent biased).2.1 _
      · exact unsigned_unpack_packComponents (by decide) _

/-- A float that is neither negative nor undefined, and not the negative zero. -/
def IsUnsigned (x : Float) : Prop := Unsigned x.toModel.unpack

variable {x y : Float}

theorem IsUnsigned.nonneg (h : IsUnsigned x) : 0.0 ≤ x := by
  have order : UnpackedFloat.le (.zero .positive) x.toModel.unpack = true := by
    unfold IsUnsigned at h
    generalize x.toModel.unpack = f at h
    cases h <;> rfl
  exact decide_eq_true order

theorem IsPositive.isUnsigned (h : IsPositive x) : IsUnsigned x := by
  obtain ⟨m, e, pos, value, -⟩ := h.unpack_eq
  rw [IsUnsigned, value]
  exact .finite pos

theorem isUnsigned_ofCount (n : ℕ) : IsUnsigned (ofCount n) := (unsigned_ofNat _).unpack_pack

theorem isUnsigned_toFloat (n : UInt64) : IsUnsigned n.toFloat := (unsigned_ofNat _).unpack_pack

theorem IsPositive.mul (hx : IsPositive x) (hy : IsUnsigned y) : IsUnsigned (x * y) := by
  obtain ⟨m, e, pos, value, -⟩ := hx.unpack_eq
  have product := Unsigned.mul hy e pos
  rw [← value] at product
  exact product.unpack_pack

theorem IsUnsigned.div (hx : IsUnsigned x) (hy : IsPositive y) : IsUnsigned (x / y) := by
  obtain ⟨m, e, pos, value, -⟩ := hy.unpack_eq
  have quotient := Unsigned.div hx e pos
  rw [← value] at quotient
  exact quotient.unpack_pack

theorem IsPositive.div (hx : IsPositive x) (hy : IsUnsigned y) : IsUnsigned (x / y) := by
  obtain ⟨m, e, pos, value, -⟩ := hx.unpack_eq
  have quotient := Unsigned.div_into hy e pos
  rw [← value] at quotient
  exact quotient.unpack_pack

end WaveSequencer.Numeric
