/-!
The fields of a step word, which tells the hardware where the samples of one step are stored.
-/
namespace WaveSequencer

inductive WordField where
  | startAddress
  | sampleCount
  | lastStartAddress
  | lastSampleCount
  | cycles
  | interval
  deriving DecidableEq, Repr

namespace WordField

/-- All fields, in the order in which a layout is checked. -/
def all : List WordField :=
  [startAddress, sampleCount, lastStartAddress, lastSampleCount, cycles, interval]

def name : WordField → String
  | startAddress => "start_addr"
  | sampleCount => "num_samples"
  | lastStartAddress => "last_cycle_start_addr"
  | lastSampleCount => "last_cycle_num_samples"
  | cycles => "num_cycles"
  | interval => "interval_ticks"

/-- Bytes that a field takes: the interval is a 64-bit word, the others have 32 bits. -/
def width : WordField → Nat
  | interval => 8
  | _ => 4

@[simp] theorem mem_all (f : WordField) : f ∈ all := by cases f <;> decide

theorem width_pos (f : WordField) : 0 < f.width := by cases f <;> decide

end WordField
end WaveSequencer
