import WaveSequencer.Fault
import WaveSequencer.Numeric.Rounding
import WaveSequencer.Wire.LittleEndian

/-!
Capture windows: a single one, which may accumulate, or one that is repeated into the same
samples, without end if so asked.
-/
namespace WaveSequencer
open Numeric Wire

/-- A start delay that the hardware accepts. -/
abbrev IsDelay (delay : Float) : Prop := 0.0 ≤ delay ∧ delay ≤ Limits.delay

inductive Windows where
  | single (accumulate : Bool)
  | count (n : UInt32) (n_pos : 0 < n)
  | endless
  deriving DecidableEq, Repr

/-- A capture with its times in ns. -/
structure Capture where
  /-- Length of one window. -/
  time : Float
  delay : Float
  windows : Windows
  time_positive : IsPositive time
  delay_range : IsDelay delay
  deriving DecidableEq

namespace Windows

def accumulates : Windows → Bool
  | single accumulate => accumulate
  | _ => true

/-- The repeat count of the wire form, zero for an endless capture. -/
def repeatCount : Windows → UInt32
  | single _ => 1
  | count n _ => n
  | endless => 0

def isEndless : Windows → Bool
  | endless => true
  | _ => false

/-- A positive number of windows that 32 bits hold. -/
def ofCount? (n : Nat) : Option Windows :=
  if h : 0 < n ∧ n < UInt32.size then
    some (.count n.toUInt32 (by
      rw [UInt32.lt_iff_toNat_lt, Nat.toUInt32_eq, UInt32.toNat_ofNat_of_lt' h.2]
      exact h.1))
  else none

end Windows

namespace Capture

/-- A window with checked times, the time first. -/
def ofTimes (time delay : Float) (windows : Windows) : Except Fault Capture :=
  if ht : IsPositive time then
    if hd : IsDelay delay then .ok ⟨time, delay, windows, ht, hd⟩
    else .error (.argument (.delay delay))
  else .error (.argument (.captureTime time))

def single (time delay : Float) (accumulate : Bool) : Except Fault Capture :=
  ofTimes time delay (.single accumulate)

/-- A window repeated `count` times, or until the capture is stopped if `count` is negative. -/
def windowed (time : Float) (count : Int) (delay : Float) : Except Fault Capture := do
  let endless ← ofTimes time delay .endless
  if count = 0 then .error (.argument .noWindows)
  else if count < 0 then .ok endless
  else match Windows.ofCount? count.toNat with
    | some windows => .ok { endless with windows }
    | none => .error (.argument (.windows count))

/-- Capture time of all windows in ns, without the delay. -/
def duration (c : Capture) : Float :=
  if c.windows.isEndless then infinity else c.time * c.windows.repeatCount.toFloat

def sampleCount (rate : Float) (c : Capture) : Nat :=
  truncate (roundHalfAway (c.time * rate / 1000.0))

def bytes (c : Capture) : List UInt8 :=
  floatBytes c.time ++ floatBytes c.delay ++ flagBytes c.windows.accumulates ++
    wordBytes c.windows.repeatCount ++ flagBytes c.windows.isEndless

@[simp] theorem length_bytes (c : Capture) : c.bytes.length = 28 := by simp [bytes]

end Capture
end WaveSequencer
