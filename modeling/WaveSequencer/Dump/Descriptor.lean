import WaveSequencer.Wire.Reader

/-!
The descriptor of a programmed wave sequence: a header of 16 bytes with the number of steps, the
kind and the sampling rate, then a record of 8 bytes for each step in the order of execution.
-/
namespace WaveSequencer
open Wire

structure StepRecord where
  id : UInt32
  /-- The step repeats its wave until the sequence is stopped. -/
  endless : Bool
  deriving DecidableEq, Repr

structure Descriptor where
  isIq : Bool
  /-- The sampling rate in Msps as stored, since not all undefined values have the same bits. -/
  rateBits : UInt64
  steps : List StepRecord
  deriving DecidableEq, Repr

def StepRecord.bytes (r : StepRecord) : List UInt8 := wordBytes r.id ++ flagBytes r.endless

@[simp] theorem StepRecord.length_bytes (r : StepRecord) : r.bytes.length = 8 := by
  simp [StepRecord.bytes]

namespace Descriptor

def rate (d : Descriptor) : Float := Float.ofBits d.rateBits

instance : BEq Descriptor :=
  ⟨fun a b => a.isIq == b.isIq && a.rate == b.rate && a.steps == b.steps⟩

/-- Reads the record of one step. -/
def recordAt (reader : Reader) (index : Nat) : Except Fault StepRecord := do
  let id ← reader.wordAt (16 + 8 * index)
  let endless ← reader.wordAt (16 + 8 * index + 4)
  return ⟨id, endless != 0⟩

/-- Reads the records of all steps, once it is known that the bytes of all of them are there. -/
def recordsAt (reader : Reader) (count : Nat) : Except Fault (List StepRecord) :=
  match address? (16 + 8 * count) with
  | none => .error (.malformed (.stepCount count))
  | some needed =>
    if reader.bytes.length < needed then
      .error (.malformed (.missingRecords count needed reader.bytes.length))
    else (List.range count).mapM (recordAt reader)

/-- Reads a descriptor, which may be followed by other bytes. -/
def parse (data : List UInt8) : Except Fault Descriptor := do
  let reader : Reader := ⟨data, .descriptor⟩
  let count ← reader.wordAt 0
  let kind ← reader.wordAt 4
  let rateBits ← reader.longAt 8
  let steps ← recordsAt reader count.toNat
  return ⟨kind != 0, rateBits, steps⟩

def bytes (d : Descriptor) : List UInt8 :=
  countBytes d.steps.length ++ flagBytes d.isIq ++ longBytes d.rateBits ++
    d.steps.flatMap StepRecord.bytes

end Descriptor
end WaveSequencer
