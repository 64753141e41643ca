import WaveSequencer.Proofs.Wire.Slice
import WaveSequencer.Wire.Reader

/-!
Computations that yield a known value exactly under a known condition, and otherwise find the
bytes malformed. Sequences of such computations are of the same sort, under the conjunction of
the conditions; the reads of a buffer are the ones to begin with.
-/
namespace WaveSequencer
open Wire

/-- The arithmetic on what the bytes announce leaves 64 bits. -/
def MalformedFault.IsOverflow : MalformedFault → Prop
  | .sampleCount .. | .stepCount .. | .stepIndex .. | .stepSize .. => True
  | _ => False

/-- The value is `a` under the condition. Without it the bytes are found malformed, and never
because a number has become too large. -/
structure YieldsIff {α : Type} (x : Except Fault α) (condition : Prop) (a : α) : Prop where
  ok : condition → x = .ok a
  malformed : ¬condition → ∃ cause, x = .error (.malformed cause) ∧ ¬cause.IsOverflow

namespace YieldsIff
variable {α β : Type} {x : Except Fault α} {c d : Prop} {a b : α} {fault : Fault}

theorem of_iff (h : YieldsIff x c a) (same : c ↔ d) : YieldsIff x d a :=
  ⟨fun hd => h.ok (same.mpr hd), fun hd => h.malformed fun hc => hd (same.mp hc)⟩

theorem exists_malformed (h : YieldsIff x c a) (hc : ¬c) : ∃ cause, x = .error (.malformed cause) :=
  (h.malformed hc).imp fun _ found => found.1

theorem eq_ok_iff (h : YieldsIff x c a) : x = .ok b ↔ c ∧ a = b := by
  by_cases hc : c
  · rw [h.ok hc, and_iff_right hc, Except.ok.injEq]
  · obtain ⟨cause, hx⟩ := h.exists_malformed hc
    rw [hx]
    constructor
    · intro hb
      cases hb
    · intro hb
      exact absurd hb.1 hc

theorem exists_iff (h : YieldsIff x c a) : (∃ b, x = .ok b) ↔ c := by
  constructor
  · rintro ⟨b, hb⟩
    exact (h.eq_ok_iff.mp hb).1
  · intro hc
    exact ⟨a, h.ok hc⟩

theorem malformed_of_eq_error (h : YieldsIff x c a) (failed : x = .error fault) :
    ∃ cause, fault = .malformed cause ∧ ¬cause.IsOverflow := by
  by_cases hc : c
  · rw [h.ok hc] at failed
    cases failed
  · obtain ⟨cause, hx, hcause⟩ := h.malformed hc
    exact ⟨cause, Except.error.inj (failed.symm.trans hx), hcause⟩

theorem exists_of_eq_error (h : YieldsIff x c a) (failed : x = .error fault) :
    ∃ cause, fault = .malformed cause :=
  (h.malformed_of_eq_error failed).imp fun _ found => found.1

theorem pure (a : α) : YieldsIff (.ok a) True a := ⟨fun _ => rfl, fun h => absurd trivial h⟩

/-- A check that fails with a fault of the bytes. -/
theorem check [Decidable c] {cause : MalformedFault} (h : ¬cause.IsOverflow) :
    YieldsIff (if c then .ok a else .error (.malformed cause)) c a :=
  ⟨fun hc => if_pos hc, fun hc => ⟨cause, if_neg hc, h⟩⟩

/-- A computation behind such a check. -/
theorem refuse [Decidable c] {cause : MalformedFault} (h : ¬cause.IsOverflow)
    (hx : ¬c → YieldsIff x d a) :
    YieldsIff (if c then .error (.malformed cause) else x) (¬c ∧ d) a := by
  by_cases hc : c
  · rw [if_pos hc]
    constructor
    · intro hd
      exact absurd hc hd.1
    · intro _
      exact ⟨cause, rfl, h⟩
  · rw [if_neg hc]
    exact (hx hc).of_iff (and_iff_right hc).symm

theorem map (h : YieldsIff x c a) (f : α → β) : YieldsIff (x.map f) c (f a) := by
  constructor
  · intro hc
    rw [h.ok hc]
    rfl
  · intro hc
    obtain ⟨cause, hx, hcause⟩ := h.malformed hc
    rw [hx]
    exact ⟨cause, rfl, hcause⟩

/-- The second computation only has to be known for the value that the first one yields. -/
theorem bind {f : α → Except Fault β} {y : β} (h : YieldsIff x c a)
    (hf : c → YieldsIff (f a) d y) : YieldsIff (x >>= f) (c ∧ d) y := by
  constructor
  · rintro ⟨hc, hd⟩
    rw [h.ok hc]
    exact (hf hc).ok hd
  · intro hcd
    by_cases hc : c
    · rw [h.ok hc]
      apply (hf hc).malformed
      intro hd
      exact hcd ⟨hc, hd⟩
    · obtain ⟨cause, hx, hcause⟩ := h.malformed hc
      rw [hx]
      exact ⟨cause, rfl, hcause⟩

/-- One computation for each item: all of them succeed, or the first one that fails is the fault. -/
theorem mapM {f : α → Except Fault β} {g : α → β} {p : α → Prop} {xs : List α}
    (h : ∀ x ∈ xs, YieldsIff (f x) (p x) (g x)) :
    YieldsIff (xs.mapM f) (∀ x ∈ xs, p x) (xs.map g) := by
  induction xs with
  | nil => exact (pure []).of_iff (by simp)
  | cons x rest ih =>
    obtain ⟨first, others⟩ := List.forall_mem_cons.mp h
    rw [List.mapM_cons, List.map_cons]
    refine (first.bind fun _ => ?_).of_iff List.forall_mem_cons.symm
    exact (ih others).map (g x :: ·)

end YieldsIff

theorem Wire.address?_of_lt {a : Nat} (h : a < 2 ^ 64) : address? a = some a :=
  address?_eq_some_iff.mpr ⟨h, rfl⟩

namespace Wire.Reader
variable (r : Reader)

theorem bytesAt_yieldsIff (offset length : Nat) (h : offset + length < 2 ^ 64) :
    YieldsIff (r.bytesAt offset length) (offset + length ≤ r.bytes.length)
      (slice r.bytes offset length) := by
  rw [bytesAt, address?_of_lt h]
  exact YieldsIff.check id

theorem wordAt_yieldsIff (offset : Nat) (h : offset + 4 < 2 ^ 64) :
    YieldsIff (r.wordAt offset) (offset + 4 ≤ r.bytes.length)
      (numberAt r.bytes offset 4).toUInt32 :=
  ((r.bytesAt_yieldsIff _ _ h).map leValue).map Nat.toUInt32

theorem longAt_yieldsIff (offset : Nat) (h : offset + 8 < 2 ^ 64) :
    YieldsIff (r.longAt offset) (offset + 8 ≤ r.bytes.length)
      (numberAt r.bytes offset 8).toUInt64 :=
  ((r.bytesAt_yieldsIff _ _ h).map leValue).map Nat.toUInt64

theorem samplesAt_yieldsIff (offset count : Nat) (h : offset + 2 * count < 2 ^ 64) :
    YieldsIff (r.samplesAt offset count) (offset + 2 * count ≤ r.bytes.length)
      (samplesOfBytes (slice r.bytes offset (2 * count))) := by
  rw [samplesAt, Nat.mul_comm count 2, address?_of_lt (by omega)]
  exact (r.bytesAt_yieldsIff _ _ h).map samplesOfBytes

theorem pairsAt_yieldsIff (offset count : Nat) (h : offset + 4 * count < 2 ^ 64) :
    YieldsIff (r.pairsAt offset count) (offset + 4 * count ≤ r.bytes.length)
      (IqSamples.ofPairs (samplesOfBytes (slice r.bytes offset (4 * count)))) := by
  rw [pairsAt, Nat.mul_comm count 4, address?_of_lt (by omega)]
  exact (r.bytesAt_yieldsIff _ _ h).map (IqSamples.ofPairs ∘ samplesOfBytes)

end Wire.Reader
end WaveSequencer
