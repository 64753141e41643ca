import Mathlib
import WaveSequencer.Proofs.Wire.Slice

/-!
Reading a wire form from front to back. A scan takes the bytes it needs and leaves the rest, so
that scans follow each other without any position. Main statement: what a scan gets back from
written bytes tells them apart from the beginning of all other written bytes.
-/
namespace WaveSequencer.Wire

abbrev Scan : Type → Type := StateT (List UInt8) Option

namespace Scan
variable {α β : Type}

/-- The first bytes, if there are as many. -/
def front (count : Nat) : Scan (List UInt8) := fun bytes =>
  if count ≤ bytes.length then some (bytes.take count, bytes.drop count) else none

def number (width : Nat) : Scan Nat := leValue <$> front width

def word : Scan UInt32 := Nat.toUInt32 <$> number 4

def float : Scan Float := (Float.ofBits ·.toUInt64) <$> number 8

def flag : Scan Bool := (· != 0) <$> word

def count : Scan Nat := number 4

def samples (count : Nat) : Scan (List Int16) := samplesOfBytes <$> front (2 * count)

/-- The given bytes and no others. -/
def expected (bytes : List UInt8) : Scan Unit := do
  let found ← front bytes.length
  guard (found = bytes)

def times (scan : Scan α) : Nat → Scan (List α)
  | 0 => pure []
  | n + 1 => do
    let a ← scan
    let rest ← times scan n
    return a :: rest

/-- A part of the given length, of which the scan has to take everything. -/
def within (count : Nat) (scan : Scan α) : Scan α := do
  let part ← front count
  match scan part with
  | some (a, []) => pure a
  | _ => failure

/-- One value after the other up to the end. Each has to take some bytes. -/
def toEnd (scan : Scan α) : List UInt8 → Option (List α)
  | [] => some []
  | b :: bytes => do
    let (a, rest) ← scan (b :: bytes)
    if rest.length < bytes.length + 1 then
      let later ← toEnd scan rest
      return a :: later
    else none
termination_by bytes => bytes.length

end Scan

/-- The scan gets the value back from these bytes, whatever follows them, and takes no others. -/
def Reads {α : Type} (scan : Scan α) (bytes : List UInt8) (a : α) : Prop :=
  ∀ rest, scan (bytes ++ rest) = some (a, rest)

namespace Reads
variable {α β : Type} {p : Scan α} {xs ys : List UInt8} {a b : α}

theorem pure (a : α) : Reads (Pure.pure a) [] a := fun _ => rfl

theorem bind {f : α → Scan β} {c : β} (first : Reads p xs a) (second : Reads (f a) ys c) :
    Reads (p >>= f) (xs ++ ys) c := by
  intro rest
  change (p (xs ++ ys ++ rest)).bind (fun r => f r.1 r.2) = _
  rw [List.append_assoc, first (ys ++ rest)]
  exact second rest

theorem result {f : α → β} (h : Reads p xs a) : Reads (p >>= fun a => Pure.pure (f a)) xs (f a) := by
  have last := h.bind (f := fun a => Pure.pure (f a)) (pure (f a))
  rwa [List.append_nil] at last

theorem map (f : α → β) (h : Reads p xs a) : Reads (f <$> p) xs (f a) := by
  rw [map_eq_pure_bind]
  exact h.result

/-- Bytes that a scan reads do not begin with other bytes that it reads. -/
theorem eq_of_begins (hx : Reads p xs a) (hy : Reads p ys b) (h : xs <+: ys) : xs = ys ∧ a = b := by
  obtain ⟨rest, rfl⟩ := h
  -- Knowing only `xs`, the scan leaves `rest`; knowing `ys`, it leaves nothing.
  have whole := hy []
  rw [List.append_nil, hx rest] at whole
  obtain ⟨rfl, rfl⟩ := Prod.mk.inj (Option.some.inj whole)
  exact ⟨(List.append_nil xs).symm, rfl⟩

theorem unique (hx : Reads p xs a) (hy : Reads p xs b) : a = b :=
  (hx.eq_of_begins hy List.prefix_rfl).2

theorem begins_iff (hx : Reads p xs a) (hy : Reads p ys b) : xs <+: ys ↔ xs = ys := by
  constructor
  · intro begins
    exact (hx.eq_of_begins hy begins).1
  · intro same
    exact same ▸ List.prefix_rfl

theorem front (bytes : List UInt8) : Reads (Scan.front bytes.length) bytes bytes := by
  intro rest
  rw [Scan.front, if_pos (by rw [List.length_append]; omega), List.take_left, List.drop_left]

theorem number {width n : Nat} (h : n < 256 ^ width) :
    Reads (Scan.number width) (leBytes width n) n := by
  have written := (front (leBytes width n)).map leValue
  rwa [leValue_leBytes h, length_leBytes] at written

theorem word (x : UInt32) : Reads Scan.word (wordBytes x) x := by
  have fits : x.toNat < 256 ^ 4 := x.toNat_lt
  have written := (number fits).map Nat.toUInt32
  rwa [Nat.toUInt32_eq, UInt32.ofNat_toNat] at written

theorem float (x : Float) : Reads Scan.float (floatBytes x) x := by
  have fits : x.toBits.toNat < 256 ^ 8 := x.toBits.toNat_lt
  have written := (number fits).map (Float.ofBits ·.toUInt64)
  simp only [Nat.toUInt64_eq, UInt64.ofNat_toNat, Float.ofBits_toBits] at written
  exact written

theorem flag (b : Bool) : Reads Scan.flag (flagBytes b) b := by
  have written := (word (if b then 1 else 0)).map (· != 0)
  cases b <;> exact written

/-- A count that 32 bits hold. -/
theorem count {n : Nat} (fits : n < 2 ^ 32) : Reads Scan.count (countBytes n) n := by
  rw [countBytes_eq fits]
  exact number fits

theorem samples (values : List Int16) :
    Reads (Scan.samples values.length) (samplesBytes values) values := by
  have written := (front (samplesBytes values)).map samplesOfBytes
  rwa [samplesOfBytes_samplesBytes, length_samplesBytes] at written

theorem expected (bytes : List UInt8) : Reads (Scan.expected bytes) bytes () := by
  have found : Reads (guard (bytes = bytes)) [] () := by
    rw [guard, if_pos rfl]
    exact pure ()
  have whole := (front bytes).bind (f := fun found => guard (found = bytes)) found
  rwa [List.append_nil] at whole

/-- Parts that follow each other without any separator. -/
theorem times {scan : Scan α} {form : β → List UInt8} {value : β → α} {parts : List β}
    (h : ∀ x ∈ parts, Reads scan (form x) (value x)) :
    Reads (scan.times parts.length) (parts.flatMap form) (parts.map value) := by
  induction parts with
  | nil => exact pure []
  | cons x rest ih =>
    have later := ih fun y hy => h y (List.mem_cons_of_mem x hy)
    rw [List.flatMap_cons]
    exact (h x List.mem_cons_self).bind later.result

/-- Parts that are read as they are. -/
theorem times_self {form : α → List UInt8} {parts : List α} (h : ∀ x ∈ parts, Reads p (form x) x) :
    Reads (p.times parts.length) (parts.flatMap form) parts := by
  have read : Reads _ _ (parts.map id) := times h
  rwa [List.map_id] at read

theorem within (h : Reads p xs a) : Reads (Scan.within xs.length p) xs a := by
  have all := h []
  rw [List.append_nil] at all
  have taken : Reads (match p xs with | some (a, []) => Pure.pure a | _ => failure) [] a := by
    rw [all]
    exact pure a
  have whole := (front xs).bind (f := fun part => match p part with
    | some (a, []) => Pure.pure a
    | _ => failure) taken
  rwa [List.append_nil] at whole

/-- Parts that are not counted, up to the end. -/
theorem toEnd {form : α → List UInt8} {parts : List α} (h : ∀ x ∈ parts, Reads p (form x) x)
    (filled : ∀ x ∈ parts, form x ≠ []) : p.toEnd (parts.flatMap form) = some parts := by
  induction parts with
  | nil => rw [List.flatMap_nil, Scan.toEnd]
  | cons x rest ih =>
    have later := ih (fun y hy => h y (List.mem_cons_of_mem x hy))
      (fun y hy => filled y (List.mem_cons_of_mem x hy))
    have first := h x List.mem_cons_self (rest.flatMap form)
    obtain ⟨b, bytes, written⟩ := List.exists_cons_of_ne_nil (filled x List.mem_cons_self)
    rw [written, List.cons_append] at first
    have shorter : (rest.flatMap form).length < (bytes ++ rest.flatMap form).length + 1 := by
      rw [List.length_append]
      omega
    rw [List.flatMap_cons, written, List.cons_append, Scan.toEnd, first, Option.bind_eq_bind,
      Option.bind_some]
    dsimp only
    rw [if_pos shorter, later]
    rfl

end Reads
end WaveSequencer.Wire
