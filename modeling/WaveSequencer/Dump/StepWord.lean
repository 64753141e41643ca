import WaveSequencer.Dump.StepLayout
import WaveSequencer.Units
import WaveSequencer.Wire.Reader

/-!
Step words: where the samples of one step are stored and how often they are played. A step plays
its primary samples for all cycles but the last one, which has samples of its own.
-/
namespace WaveSequencer
open Wire

/-- Addresses are byte offsets into the wave RAM. Counts are numbers of samples, those of both
channels together where there are two. -/
structure StepWord where
  startAddress : UInt32 := 0
  sampleCount : UInt32 := 0
  lastStartAddress : UInt32 := 0
  lastSampleCount : UInt32 := 0
  cycles : UInt32 := 0
  /-- From the start of this step to the start of the next one, in clock ticks. -/
  interval : UInt64 := 0
  deriving DecidableEq, Repr

namespace StepWord

def field (w : StepWord) : WordField → Nat
  | .startAddress => w.startAddress.toNat
  | .sampleCount => w.sampleCount.toNat
  | .lastStartAddress => w.lastStartAddress.toNat
  | .lastSampleCount => w.lastSampleCount.toNat
  | .cycles => w.cycles.toNat
  | .interval => w.interval.toNat

/-- The block at the given index of a region of blocks. All of it has to be there. -/
def blockAt (region : List UInt8) (index : Nat) (l : StepLayout) : Except Fault (List UInt8) :=
  match address? (index * l.blockSize) with
  | some base => Reader.bytesAt ⟨region, .stepWords⟩ base l.blockSize
  | none => .error (.malformed (.stepIndex index))

def ofBlock (block : List UInt8) (l : StepLayout) : Except Fault StepWord := do
  let reader : Reader := ⟨block, .stepWord⟩
  let startAddress ← reader.wordAt l.startAddress
  let sampleCount ← reader.wordAt l.sampleCount
  let lastStartAddress ← reader.wordAt l.lastStartAddress
  let lastSampleCount ← reader.wordAt l.lastSampleCount
  let cycles ← reader.wordAt l.cycles
  let interval ← reader.longAt l.interval
  return { startAddress, sampleCount, lastStartAddress, lastSampleCount, cycles, interval }

def read (region : List UInt8) (index : Nat) (l : StepLayout) : Except Fault StepWord := do
  l.validate
  let block ← blockAt region index l
  ofBlock block l

def overwrite (block : List UInt8) (offset : Nat) (bytes : List UInt8) : List UInt8 :=
  block.take offset ++ bytes ++ block.drop (offset + bytes.length)

/-- The block of a word; bytes outside the fields are zero. -/
def block (w : StepWord) (l : StepLayout) : List UInt8 :=
  WordField.all.foldl (fun block f => overwrite block (l.offset f) (leBytes f.width (w.field f)))
    (List.replicate l.blockSize 0)

def bytes (w : StepWord) (l : StepLayout) : Except Fault (List UInt8) := do
  l.validate
  return w.block l

/-- Time from the start of this step to the start of the next one in ns. -/
def intervalTime (w : StepWord) : Float := Units.tickTime w.interval

theorem length_overwrite {block bytes : List UInt8} {offset : Nat}
    (h : offset + bytes.length ≤ block.length) :
    (overwrite block offset bytes).length = block.length := by
  simp only [overwrite, List.length_append, List.length_take, List.length_drop]
  omega

end StepWord
end WaveSequencer
