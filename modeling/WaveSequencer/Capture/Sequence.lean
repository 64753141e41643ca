import WaveSequencer.Capture.Window
import WaveSequencer.Wave.Header

/-!
Sequences of captures for one capture device. Steps are listed by ascending number.
-/
namespace WaveSequencer
open Wire

structure CaptureSequence where
  rate : SamplingRate
  isIq : Bool
  steps : BoundedMap UInt32 Capture
  deriving DecidableEq

namespace CaptureSequence

def empty (rate : SamplingRate) (isIq : Bool) : CaptureSequence :=
  ⟨rate, isIq, .empty Limits.steps⟩

def create (rate : Float) (isIq : Bool) : Except Fault CaptureSequence :=
  (SamplingRate.check rate).map (empty · isIq)

def add (s : CaptureSequence) (id : UInt32) (capture : Capture) : Except Fault CaptureSequence :=
  match s.steps.insert id capture with
  | .ok steps => .ok { s with steps }
  | .error cause => .error (.argument (.captureStep id cause))

def capture? (s : CaptureSequence) (id : UInt32) : Option Capture := s.steps.get? id

def sampleCount? (s : CaptureSequence) (id : UInt32) : Option Nat :=
  (s.steps.get? id).map (·.sampleCount s.rate.val)

def stepBytes (entry : UInt32 × Capture) : List UInt8 := wordBytes entry.1 ++ entry.2.bytes

/-- The wire form, which has no tag of its own. -/
def bytes (s : CaptureSequence) : List UInt8 :=
  floatBytes s.rate.val ++ flagBytes s.isIq ++ countBytes s.steps.size ++
    s.steps.toList.flatMap stepBytes

@[simp] theorem length_stepBytes (entry : UInt32 × Capture) : (stepBytes entry).length = 32 := by
  simp [stepBytes]

@[simp] theorem length_bytes (s : CaptureSequence) :
    s.bytes.length = 16 + 32 * s.steps.size := by
  have steps (entries : List (UInt32 × Capture)) :
      (entries.flatMap stepBytes).length = 32 * entries.length := by
    induction entries with
    | nil => rfl
    | cons e rest ih =>
      simp only [List.flatMap_cons, List.length_append, length_stepBytes, ih, List.length_cons]
      omega
  simp [bytes, steps, BoundedMap.toList, BoundedMap.size, SortedMap.size, ← Nat.add_assoc]

end CaptureSequence

end WaveSequencer
