/-!
Arithmetic on 64-bit addresses and lengths. A result that 64 bits do not hold is refused, never
wrapped.
-/
namespace WaveSequencer.Wire

/-- `a` if 64 bits hold it. -/
def address? (a : Nat) : Option Nat := if a < UInt64.size then some a else none

@[simp] theorem address?_eq_some_iff {a b : Nat} : address? a = some b ↔ a < UInt64.size ∧ a = b := by
  simp [address?]

@[simp] theorem address?_eq_none_iff {a : Nat} : address? a = none ↔ UInt64.size ≤ a := by
  simp [address?]

end WaveSequencer.Wire
