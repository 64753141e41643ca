import WaveSequencer.Capture.Window

/-!
Digital outputs: timed bit patterns, played one after the other after a start delay.
-/
namespace WaveSequencer
open Numeric Wire

/-- Eight output bits, held for a time in ns. -/
structure DigitalEntry where
  value : UInt8
  duration : Float
  deriving DecidableEq

structure DigitalVector where
  /-- Start delay in ns. -/
  delay : Float
  entries : List DigitalEntry
  delay_range : IsDelay delay

namespace DigitalVector

instance : DecidableEq DigitalVector := fun a b =>
  decidable_of_iff (a.delay = b.delay ∧ a.entries = b.entries) (by cases a; cases b; simp)

def create (delay : Float) : Except Fault DigitalVector :=
  if h : IsDelay delay then .ok ⟨delay, [], h⟩ else .error (.argument (.delay delay))

def append (v : DigitalVector) (value : UInt8) (duration : Float) : Except Fault DigitalVector :=
  if ¬(0.0 < duration ∧ duration ≤ Limits.digitalDuration) then
    .error (.argument (.digitalDuration duration))
  else if Limits.digitalEntries ≤ v.entries.length then .error (.argument .digitalEntries)
  else .ok { v with entries := v.entries ++ [⟨value, duration⟩] }

/-- Time of all patterns in ns, without the delay. The sum of none is the neutral value of binary64
addition, negative zero. -/
def duration (v : DigitalVector) : Float := v.entries.foldl (fun sum e => sum + e.duration) (-0.0)

def entryBytes (e : DigitalEntry) : List UInt8 :=
  wordBytes e.value.toUInt32 ++ floatBytes e.duration

def bytes (v : DigitalVector) : List UInt8 :=
  floatBytes v.delay ++ countBytes v.entries.length ++ v.entries.flatMap entryBytes

@[simp] theorem length_entryBytes (e : DigitalEntry) : (entryBytes e).length = 12 := by
  simp [entryBytes]

@[simp] theorem length_bytes (v : DigitalVector) :
    v.bytes.length = 12 + 12 * v.entries.length := by
  have entries (es : List DigitalEntry) : (es.flatMap entryBytes).length = 12 * es.length := by
    induction es with
    | nil => rfl
    | cons e rest ih =>
      simp only [List.flatMap_cons, List.length_append, length_entryBytes, ih, List.length_cons]
      omega
  simp [bytes, entries, ← Nat.add_assoc]

end DigitalVector

end WaveSequencer
