import WaveSequencer.Proofs.Numeric.Nearest

/-!
Signs, sums and differences of binary64 values. Main statements: a float stands for the opposite
number once it is negated and for the size of a number without its sign; a sum and a difference
stand for what they are in exact arithmetic, rounded, unless that is too large for a value.
-/
namespace WaveSequencer.Numeric
open Float.Model (UnpackedFloat)
open Float.Model.UnpackedFloat

section Unpacked
variable {f g : UnpackedFloat} {x y : ℚ}

theorem HasValue.neg (h : HasValue f x) : HasValue (UnpackedFloat.neg f) (-x : ℚ) := by
  obtain ⟨s, rfl, rfl⟩ | ⟨s, m, e, pos, rfl, canonical, rfl⟩ := h.of_coe
  · rw [neg_zero]
    exact .zero _
  · rw [← signed_neg]
    exact .finite pos canonical

theorem HasValue.abs (h : HasValue f x) : HasValue (UnpackedFloat.abs f) (|x| : ℚ) := by
  obtain ⟨s, rfl, rfl⟩ | ⟨s, m, e, pos, rfl, canonical, rfl⟩ := h.of_coe
  · rw [abs_zero]
    exact .zero _
  · rw [abs_signed s (by positivity)]
    exact .finite (s := .positive) pos canonical

/-- Significands over the smaller of two exponents. -/
theorem shiftLeft_zpow (m : ℕ) {e t : ℤ} (h : t ≤ e) :
    ((m <<< (e - t).toNat : ℕ) : ℚ) * 2 ^ t = m * 2 ^ e := by
  have exponent : e = (e - t).toNat + t := by omega
  conv_rhs => rw [exponent, zpow_add₀ two_ne_zero, zpow_natCast]
  rw [Nat.shiftLeft_eq]
  push_cast
  ring

theorem HasValue.add (hf : HasValue f x) (hg : HasValue g y)
    (bound : nearest |x + y| < 2 ^ (1024 : ℤ)) :
    HasValue (UnpackedFloat.add .binary64 f g) (rounded (x + y) : ℚ) := by
  obtain ⟨s, rfl, rfl⟩ | ⟨s, m, e, pos, rfl, canonical, rfl⟩ := hf.of_coe
  · obtain ⟨s', rfl, rfl⟩ | ⟨s', n, t, pos', rfl, canonical', rfl⟩ := hg.of_coe
    · rw [add_zero, rounded_zero]
      cases s <;> cases s' <;> exact .zero _
    · rw [zero_add, canonical'.rounded_eq]
      exact .finite pos' canonical'
  · obtain ⟨s', rfl, rfl⟩ | ⟨s', n, t, pos', rfl, canonical', rfl⟩ := hg.of_coe
    · rw [add_zero, canonical.rounded_eq]
      exact .finite pos canonical
    · have sum : signed s ((m : ℚ) * 2 ^ e) + signed s' (n * 2 ^ t) =
          (s.apply (m <<< (e - min e t).toNat : ℕ) + s'.apply (n <<< (t - min e t).toNat : ℕ) : ℤ) *
            2 ^ min e t := by
        rw [← shiftLeft_zpow m (min_le_left e t), ← shiftLeft_zpow n (min_le_right e t),
          signed_mul, signed_mul, Int.cast_add, add_mul]
      rw [sum] at bound ⊢
      exact hasValue_normalize bound

theorem sub_eq_add_negated (f g : UnpackedFloat) : UnpackedFloat.sub .binary64 f g =
    UnpackedFloat.add .binary64 f (UnpackedFloat.neg g) := by
  cases f <;> cases g <;> try rfl
  case finite.finite s m e _ s' n t _ =>
    cases s' with
    | positive => rfl
    | negative =>
      have negated (k : ℤ) : -(Sign.negative.apply k) = k := neg_neg k
      simp only [UnpackedFloat.sub, UnpackedFloat.add, UnpackedFloat.neg, sub_eq_add_neg, negated]
      rfl

theorem HasValue.sub (hf : HasValue f x) (hg : HasValue g y)
    (bound : nearest |x - y| < 2 ^ (1024 : ℤ)) :
    HasValue (UnpackedFloat.sub .binary64 f g) (rounded (x - y) : ℚ) := by
  rw [sub_eq_add_neg] at bound ⊢
  rw [sub_eq_add_negated]
  exact hf.add hg.neg bound

/-- The difference of two numbers on the same side of zero is not too large. -/
theorem HasValue.nearest_sub_lt (hf : HasValue f x) (hg : HasValue g y) (nonneg : 0 ≤ x)
    (nonneg' : 0 ≤ y) : nearest |x - y| < 2 ^ (1024 : ℤ) := by
  have limit {h : UnpackedFloat} {v w : ℚ} (hv : HasValue h v) (lower : 0 ≤ w) (upper : w ≤ v) :
      nearest w < 2 ^ (1024 : ℤ) := by
    obtain ⟨s, -, rfl⟩ | ⟨m, e, -, -, canonical, rfl⟩ := hv.of_nonneg (lower.trans upper)
    · rw [le_antisymm upper lower, nearest_zero]
      positivity
    · exact canonical.nearest_lt lower upper
  rcases le_total x y with le | ge
  · exact limit hg (abs_nonneg _) (abs_le.mpr ⟨by linarith, by linarith⟩)
  · exact limit hf (abs_nonneg _) (abs_le.mpr ⟨by linarith, by linarith⟩)

end Unpacked

/-- A float stands for a number, or for infinity. -/
def Denotes (x : Float) (v : WithTop ℚ) : Prop := HasValue x.toModel.unpack v

namespace Denotes
variable {x y : Float} {a b : ℚ}

theorem neg (h : Denotes x a) : Denotes (-x) (-a : ℚ) := (HasValue.neg h).unpack_pack

theorem abs (h : Denotes x a) : Denotes x.abs (|a| : ℚ) := (HasValue.abs h).unpack_pack

theorem add (hx : Denotes x a) (hy : Denotes y b) (bound : nearest |a + b| < 2 ^ (1024 : ℤ)) :
    Denotes (x + y) (rounded (a + b) : ℚ) := (HasValue.add hx hy bound).unpack_pack

/-- What is left of infinity is infinite. -/
theorem sub {a : WithTop ℚ} (hx : Denotes x a) (hy : Denotes y b) (nonneg : 0 ≤ a)
    (nonneg' : 0 ≤ b) : Denotes (x - y) (a.map fun v => rounded (v - b)) := by
  apply HasValue.unpack_pack
  induction a using WithTop.recTopCoe with
  | top =>
    rw [HasValue.eq_infinity hx]
    obtain ⟨s, value, -⟩ | ⟨n, t, positive, value, -, -⟩ := HasValue.of_nonneg hy nonneg'
    · rw [value]
      exact .infinity
    · rw [value]
      exact .infinity
  | coe a =>
    exact HasValue.sub hx hy (HasValue.nearest_sub_lt hx hy (by exact_mod_cast nonneg) nonneg')

end Denotes

end WaveSequencer.Numeric
