import WaveSequencer.Digital.Vector

/-!
Digital outputs attached to wave steps, listed by ascending step number.
-/
namespace WaveSequencer
open Wire

/-- Digital outputs by the wave step that they accompany. -/
structure DigitalSequence where
  steps : BoundedMap UInt32 DigitalVector
  deriving DecidableEq

namespace DigitalSequence

def empty : DigitalSequence := ⟨.empty Limits.steps⟩

def add (s : DigitalSequence) (id : UInt32) (vector : DigitalVector) :
    Except Fault DigitalSequence :=
  match s.steps.insert id vector with
  | .ok steps => .ok ⟨steps⟩
  | .error cause => .error (.argument (.digitalStep cause))

def vector? (s : DigitalSequence) (id : UInt32) : Option DigitalVector := s.steps.get? id

def stepBytes (entry : UInt32 × DigitalVector) : List UInt8 := wordBytes entry.1 ++ entry.2.bytes

def bytes (s : DigitalSequence) : List UInt8 :=
  tagBytes ['D', 'S', 'E', 'Q'] ++ countBytes s.steps.size ++ s.steps.toList.flatMap stepBytes

end DigitalSequence
end WaveSequencer
