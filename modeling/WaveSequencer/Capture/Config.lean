import WaveSequencer.Capture.Sequence
import WaveSequencer.Log.Logged

/-!
The configuration that assigns capture sequences to devices, listed by ascending device number.
-/
namespace WaveSequencer
open Wire

/-- Sequences by the number of the device that they are for. -/
structure CaptureConfig where
  sequences : BoundedMap UInt32 CaptureSequence
  deriving DecidableEq

namespace CaptureConfig

def empty : CaptureConfig := ⟨.empty Limits.captureDevices⟩

def add (c : CaptureConfig) (device : UInt32) (sequence : CaptureSequence) :
    Except Fault CaptureConfig :=
  if Limits.captureDevices ≤ device.toNat then .error (.argument (.captureDevice device))
  else match c.sequences.insert device sequence with
    | .ok sequences => .ok ⟨sequences⟩
    | .error cause => .error (.argument (.captureAssignment device cause))

def sequence? (c : CaptureConfig) (device : UInt32) : Option CaptureSequence :=
  c.sequences.get? device

def deviceBytes (entry : UInt32 × CaptureSequence) : List UInt8 :=
  wordBytes entry.1 ++ countBytes entry.2.bytes.length ++ entry.2.bytes

/-- The wire form: a tag and the devices, which go on to the end. -/
def bytes (c : CaptureConfig) : List UInt8 :=
  tagBytes ['C', 'P', 'C', 'F'] ++ c.sequences.toList.flatMap deviceBytes

def serialize (c : CaptureConfig) : Logged (List UInt8) := do
  Logged.emit (.capturesSerialized c.sequences.size c.bytes.length)
  return c.bytes

end CaptureConfig
end WaveSequencer
