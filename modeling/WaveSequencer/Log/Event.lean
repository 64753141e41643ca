import WaveSequencer.Decimal.Positional
import WaveSequencer.Limits
import WaveSequencer.Wave.Kind

/-!
What is worth a log record. An event holds its data; its level, the part of the program that
speaks, and the text of the record are functions of it.
-/
namespace WaveSequencer
open Decimal

namespace Log

/-- Events of level `debug` are for diagnosis and can be switched off. -/
inductive Level where
  | info
  | warn
  | debug
  deriving DecidableEq, Repr

/-- The part of the program that speaks: one of this library, or the host that uses it. -/
inductive Source where
  | synthesis
  | playback
  | waves
  | captures
  | host
  deriving DecidableEq, Repr

inductive Event where
  /-- A wave too slow for the sampling rate. -/
  | cycleTooLong (frequency rate : Float)
  /-- A wave too fast for the sampling rate. -/
  | cycleEmpty (frequency rate : Float)
  | sampling (kind : WaveKind) (count : Nat)
  /-- Cycles that are too long together. -/
  | stepTooLong (cycles : UInt32) (count : Nat)
  | padding (i q : Nat)
  | wavesSerialized (steps bytes : Nat)
  | capturesSerialized (devices bytes : Nat)
  | stepDecoded (isIq : Bool) (step : UInt32) (count : Nat)
  | sequenceDecoded (isIq : Bool) (steps : Nat) (rate : Float)
  | host (level : Level) (message : String)
  deriving DecidableEq

namespace Event

def level : Event → Level
  | cycleTooLong .. | cycleEmpty .. | stepTooLong .. | padding .. => .warn
  | sampling .. | wavesSerialized .. | capturesSerialized .. | stepDecoded .. => .debug
  | sequenceDecoded .. => .info
  | host level _ => level

def source : Event → Source
  | cycleTooLong .. | cycleEmpty .. | sampling .. | stepTooLong .. | padding .. => .synthesis
  | wavesSerialized .. => .waves
  | capturesSerialized .. => .captures
  | stepDecoded .. | sequenceDecoded .. => .playback
  | host .. => .host

def message : Event → String
  | cycleTooLong f r =>
    s!"Frequency {text f} MHz at {text r} Msps needs more than {Limits.samplesPerCycle} samples " ++
      "per cycle, the wave has no samples"
  | cycleEmpty f r =>
    s!"Frequency {text f} MHz exceeds the sampling rate {text r} Msps, the wave has no samples"
  | sampling kind n => s!"Sampling {kind.name} wave with {n} samples per cycle"
  | stepTooLong cycles n =>
    s!"{cycles} cycles of {n} samples exceed {Limits.samplesPerStep} samples, " ++
      "the wave has no samples"
  | padding i q =>
    s!"I and Q cycles differ in length ({i} vs {q} samples), zero-padding the shorter one"
  | wavesSerialized steps n => s!"Serialized wave sequence with {steps} steps into {n} bytes"
  | capturesSerialized devices n =>
    s!"Serialized capture config for {devices} devices into {n} bytes"
  | stepDecoded true step n => s!"Decoded IQ step {step} with {n} samples per channel"
  | stepDecoded false step n => s!"Decoded step {step} with {n} samples"
  | sequenceDecoded true steps r => s!"Decoded IQ wave sequence with {steps} steps at {text r} Msps"
  | sequenceDecoded false steps r =>
    s!"Decoded real-valued wave sequence with {steps} steps at {text r} Msps"
  | host _ message => message

end Event
end Log
end WaveSequencer
