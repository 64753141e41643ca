/-!
Sample lists: repetition of a cycle, padding, rotation, and the interleaving of two channels.
-/
namespace WaveSequencer

/-- The samples of an in-phase and a quadrature channel. -/
structure IqSamples where
  i : List Int16
  q : List Int16
  deriving BEq, DecidableEq, Repr

namespace Samples
variable {α : Type}

/-- The list `n` times in a row. No repetition is built for an empty list. -/
def repeated (n : Nat) (xs : List α) : List α :=
  if xs.isEmpty then [] else (List.replicate n xs).flatten

theorem repeated_eq (n : Nat) (xs : List α) : repeated n xs = (List.replicate n xs).flatten := by
  unfold repeated
  split
  · next h => simp [List.isEmpty_iff.mp h]
  · rfl

@[simp] theorem repeated_zero (xs : List α) : repeated 0 xs = [] := by simp [repeated_eq]

theorem repeated_succ (n : Nat) (xs : List α) : repeated (n + 1) xs = xs ++ repeated n xs := by
  simp [repeated_eq, List.replicate_succ]

@[simp] theorem length_repeated (n : Nat) (xs : List α) :
    (repeated n xs).length = xs.length * n := by
  induction n with
  | zero => simp
  | succ n ih => rw [repeated_succ, List.length_append, ih, Nat.mul_succ, Nat.add_comm]

/-- A position in a repetition shows the cycle at the position modulo its length. -/
theorem getElem?_repeated (n : Nat) (xs : List α) (k : Nat) (h : k < xs.length * n) :
    (repeated n xs)[k]? = xs[k % xs.length]? := by
  induction n generalizing k with
  | zero => simp at h
  | succ n ih =>
    rw [repeated_succ]
    by_cases hk : k < xs.length
    · rw [List.getElem?_append_left hk, Nat.mod_eq_of_lt hk]
    · have hle := Nat.not_lt.mp hk
      rw [List.getElem?_append_right hle, ih _ (by rw [Nat.mul_succ] at h; omega)]
      rw [Nat.mod_eq_sub_mod hle]

def padded (length : Nat) (xs : List Int16) : List Int16 :=
  xs ++ List.replicate (length - xs.length) 0

theorem length_padded (length : Nat) (xs : List Int16) :
    (padded length xs).length = max length xs.length := by
  simp only [padded, List.length_append, List.length_replicate]
  omega

/-- The cycle from position `a` on, then what comes before. -/
def rotated (a : Nat) (xs : List α) : List α := xs.drop a ++ xs.take a

@[simp] theorem length_rotated (a : Nat) (xs : List α) : (rotated a xs).length = xs.length := by
  simp only [rotated, List.length_append, List.length_drop, List.length_take]
  omega

/-- The last `k` values of a cycle, then what comes before. -/
def rotatedRight (k : Nat) (xs : List α) : List α := rotated (xs.length - k) xs

@[simp] theorem length_rotatedRight (k : Nat) (xs : List α) :
    (rotatedRight k xs).length = xs.length := length_rotated _ xs

/-- The values of two channels in turns, the first channel first. -/
def interleaved : List α → List α → List α
  | a :: as, b :: bs => a :: b :: interleaved as bs
  | _, _ => []

/-- The values at even and at odd positions. -/
def channels (xs : List α) : List α × List α :=
  xs.foldr (fun x (even, odd) => (x :: odd, even)) ([], [])

@[simp] theorem channels_nil : channels ([] : List α) = ([], []) := rfl

@[simp] theorem channels_cons (x : α) (xs : List α) :
    channels (x :: xs) = (x :: (channels xs).2, (channels xs).1) := rfl

theorem channels_interleaved {as bs : List α} (h : as.length = bs.length) :
    channels (interleaved as bs) = (as, bs) := by
  induction as generalizing bs with
  | nil => cases bs <;> simp_all [interleaved]
  | cons a as ih =>
    cases bs with
    | nil => simp at h
    | cons b bs => simp [interleaved, ih (Nat.succ.inj h)]

/-- The channels of an even number of values are equally long and interleave to the values. -/
theorem interleaved_channels : (xs : List α) → xs.length % 2 = 0 →
    (channels xs).1.length = (channels xs).2.length ∧
      interleaved (channels xs).1 (channels xs).2 = xs
  | [], _ => by simp [interleaved]
  | [x], h => by simp at h
  | x :: y :: rest, h => by
    have ih := interleaved_channels rest (by simpa [Nat.add_assoc] using h)
    simp [interleaved, ih.1, ih.2]

end Samples

/-- Splits samples that are stored in pairs, each with the in-phase value first. -/
def IqSamples.ofPairs (samples : List Int16) : IqSamples :=
  ⟨(Samples.channels samples).1, (Samples.channels samples).2⟩

end WaveSequencer
