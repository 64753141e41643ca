import WaveSequencer.Dump.Descriptor
import WaveSequencer.Dump.WaveRam
import WaveSequencer.Playback

/-!
Memory dumps of a programmed wave sequence, decoded into samples: a descriptor, one step word for
each of its records, and the wave RAM. Every decoded step is reported, and at the end the whole
sequence.
-/
namespace WaveSequencer
open Numeric

structure Dump where
  descriptor : List UInt8
  stepWords : List UInt8
  waveRam : List UInt8

/-- How steps with one channel and steps with two differ. -/
structure ChannelFormat (α : Type) where
  decode : StepWord → List UInt8 → Except Fault α
  /-- Samples per channel. -/
  length : α → Nat
  /-- How many samples of output time a stored sample takes. -/
  timeFactor : Float
  isIq : Bool

namespace ChannelFormat
variable {α : Type}

def real : ChannelFormat (List Int16) where
  decode := StepWord.decodeReal
  length := List.length
  timeFactor := 1.0
  isIq := false

/-- Two channels are stored at half of the output rate, between which the hardware interpolates. -/
def iq : ChannelFormat IqSamples where
  decode := StepWord.decodeIq
  length samples := samples.i.length
  timeFactor := 2.0
  isIq := true

def timed (format : ChannelFormat α) (rate : Float) (endless : Bool) (word : StepWord)
    (samples : α) : PlayedStep α :=
  let duration :=
    if endless then infinity
    else format.timeFactor * Units.sampleTime (format.length samples) rate
  ⟨samples, duration, larger word.intervalTime duration⟩

/-- The step of one record, whose word has the given index. -/
def decodeStep (format : ChannelFormat α) (layout : ValidLayout) (rate : Float) (dump : Dump)
    (index : Nat) (record : StepRecord) : Except Fault (PlayedStep α) := do
  let word ← StepWord.read dump.stepWords index layout.toStepLayout
  let samples ← format.decode word dump.waveRam
  return format.timed rate record.endless word samples

/-- Decodes the steps of the given records, of which the first has the given index, in addition to
those that are decoded already. -/
def decodeSteps (format : ChannelFormat α) (layout : ValidLayout) (rate : Float) (dump : Dump) :
    Nat → List StepRecord → SortedMap UInt32 (PlayedStep α) →
      Attempt (SortedMap UInt32 (PlayedStep α))
  | _, [], steps => return steps
  | index, record :: rest, steps => do
    if steps.contains record.id then
      throw (.malformed (.repeatedStep record.id))
    else
      let step ← Attempt.ofExcept (format.decodeStep layout rate dump index record)
      Attempt.ofLogged
        (Logged.emit (.stepDecoded format.isIq record.id (format.length step.samples)))
      decodeSteps format layout rate dump (index + 1) rest (steps.insert record.id step)

end ChannelFormat

namespace Dump

/-- The sampling rate of a descriptor, which has to be a positive number. -/
def checkRate (d : Descriptor) : Except Fault Float :=
  if IsPositive d.rate then .ok d.rate else .error (.malformed (.samplingRate d.rate))

def header (dump : Dump) : Except Fault (Descriptor × Float) := do
  let descriptor ← Descriptor.parse dump.descriptor
  let rate ← checkRate descriptor
  return (descriptor, rate)

/-- All steps, in the kind that the descriptor says. -/
def decode (layout : ValidLayout) (dump : Dump) : Attempt Playback := do
  let (descriptor, rate) ← Attempt.ofExcept dump.header
  let playback ←
    if descriptor.isIq then do
      let steps ← ChannelFormat.iq.decodeSteps layout rate dump 0 descriptor.steps .empty
      pure (Playback.iq ⟨rate, steps⟩)
    else do
      let steps ← ChannelFormat.real.decodeSteps layout rate dump 0 descriptor.steps .empty
      pure (Playback.real ⟨rate, steps⟩)
  Attempt.ofLogged
    (Logged.emit (.sequenceDecoded descriptor.isIq descriptor.steps.length rate))
  return playback

end Dump
end WaveSequencer
