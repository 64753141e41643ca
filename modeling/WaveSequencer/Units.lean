import WaveSequencer.Numeric.Remainder
import WaveSequencer.Numeric.Rounding

/-!
Units: frequencies in MHz, sampling rates in Msps, times in ns, and hardware intervals in ticks of
the 300 MHz sequencer clock.
-/
namespace WaveSequencer.Units
open Numeric

/-- Frequency of the sequencer clock in MHz. -/
def clockFrequency : Float := 300.0

/-- Length of a microsecond, the inverse of one MHz, in ns. -/
def microsecond : Float := 1000.0

/-- One clock period in ns. The hardware starts every step that much late. -/
def startLatency : Float := microsecond / clockFrequency

/-- Samples in one cycle of a wave: none if the wave is faster than the sampling rate, undefined
if 64 bits do not hold the count. -/
def samplesPerCycle? (rate frequency : Float) : Option Nat :=
  if rate < frequency then some 0 else truncate? (roundHalfAway (rate / frequency))

def cycleTime (cycles : UInt32) (frequency : Float) : Float :=
  microsecond * cycles.toFloat / frequency

def sampleTime (count : Nat) (rate : Float) : Float := microsecond * ofCount count / rate

def tickTime (ticks : UInt64) : Float := microsecond * ticks.toFloat / clockFrequency

/-- Clock ticks in a time, rounded, and none for a negative time. -/
def ticks (time : Float) : UInt64 := (roundHalfAway (time * clockFrequency / microsecond)).toUInt64

end WaveSequencer.Units
