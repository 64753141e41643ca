import WaveSequencer.Synthesis.Tiling

/-!
Sequences of waves for one output. A step is stored with the sampling rate of its sequence
attached. Steps are played by ascending number, whatever the order in which they were added.
-/
namespace WaveSequencer
open Numeric Wire

structure WaveStep where
  wave : Wave
  /-- The requested time in ns from the start of this step to the start of the next one. -/
  interval : Float
  deriving BEq, DecidableEq

namespace WaveStep

def duration (rate : Float) (step : WaveStep) : Float := step.wave.durationAt rate

/-- The interval that the hardware is told, never less than the wave. The hardware starts every step
one clock period late. -/
def effectiveInterval (rate : Float) (step : WaveStep) : Float :=
  larger (larger (step.interval - Units.startLatency) (step.duration rate - Units.startLatency)) 0.0

end WaveStep

structure WaveSequence where
  rate : SamplingRate
  /-- Whether all waves have two channels, or all have one. -/
  isIq : Bool
  steps : BoundedMap UInt32 WaveStep
  deriving BEq, DecidableEq

namespace WaveSequence

def empty (rate : SamplingRate) (isIq : Bool) : WaveSequence :=
  ⟨rate, isIq, .empty Limits.steps⟩

def create (rate : Float) (isIq : Bool) : Except Fault WaveSequence :=
  (SamplingRate.check rate).map (empty · isIq)

/-- Adds a wave under a new step number. The sequence stays as it was if the interval, the kind of
the wave, its size, or the number is refused, in this order. -/
def add (s : WaveSequence) (id : UInt32) (wave : Wave) (interval : Float) :
    Except Fault WaveSequence :=
  let wave := wave.attach s.rate
  if ¬IsNonnegative interval then .error (.argument (.interval interval))
  else if wave.isIq ≠ s.isIq then .error (.argument (.waveKind id s.isIq))
  else if wave.stepLength? s.rate.val = none then .error (.argument (.waveSize id s.rate.val))
  else match s.steps.insert id ⟨wave, interval⟩ with
    | .ok steps => .ok { s with steps }
    | .error cause => .error (.argument (.waveStep id cause))

def wave? (s : WaveSequence) (id : UInt32) : Option Wave := (s.steps.get? id).map (·.wave)

def interval? (s : WaveSequence) (id : UInt32) : Option Float := (s.steps.get? id).map (·.interval)

def duration? (s : WaveSequence) (id : UInt32) : Option Float :=
  (s.steps.get? id).map (·.duration s.rate.val)

def effectiveInterval? (s : WaveSequence) (id : UInt32) : Option Float :=
  (s.steps.get? id).map (·.effectiveInterval s.rate.val)

def stepBytes (rate : Float) (entry : UInt32 × WaveStep) : List UInt8 :=
  wordBytes entry.1 ++ floatBytes (entry.2.effectiveInterval rate) ++ entry.2.wave.bytesAt rate

def bytes (s : WaveSequence) : List UInt8 :=
  tagBytes ['W', 'S', 'E', 'Q'] ++ floatBytes s.rate.val ++ flagBytes s.isIq ++
    countBytes s.steps.size ++ s.steps.toList.flatMap (stepBytes s.rate.val)

def serialize (s : WaveSequence) : Logged (List UInt8) := do
  Logged.emit (.wavesSerialized s.steps.size s.bytes.length)
  return s.bytes

end WaveSequence
end WaveSequencer
