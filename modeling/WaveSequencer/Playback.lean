import WaveSequencer.Attempt
import WaveSequencer.Wave.Sequence

/-!
Sequences as plain samples with their times, each step by its number. They come from sampling the
waves of a sequence, or from a memory dump.
-/
namespace WaveSequencer
open Numeric

/-- The samples of one step, of one channel or of two. -/
structure PlayedStep (α : Type) where
  samples : α
  /-- Output time of the samples in ns, infinite for a step that repeats without end. -/
  duration : Float
  /-- Time from the start of this step to the start of the next one in ns. -/
  interval : Float
  deriving DecidableEq

structure PlayedSequence (α : Type) where
  rate : Float
  steps : SortedMap UInt32 (PlayedStep α)
  deriving DecidableEq

inductive Playback where
  | real (sequence : PlayedSequence (List Int16))
  | iq (sequence : PlayedSequence IqSamples)
  deriving DecidableEq

/-- The samples as complex numbers, in-phase part first. -/
def IqSamples.complex (samples : IqSamples) : List (Float × Float) :=
  (samples.i.zip samples.q).map fun (i, q) => (i.toFloat, q.toFloat)

namespace PlayedSequence
variable {α : Type}

def durations (s : PlayedSequence α) : SortedMap UInt32 Float := s.steps.mapValues (·.duration)

def intervals (s : PlayedSequence α) : SortedMap UInt32 Float := s.steps.mapValues (·.interval)

end PlayedSequence

namespace Playback

def isIq : Playback → Bool
  | real _ => false
  | iq _ => true

def rate : Playback → Float
  | real s => s.rate
  | iq s => s.rate

def ids : Playback → List UInt32
  | real s => s.steps.keys
  | iq s => s.steps.keys

end Playback

namespace WaveSequence
variable {α : Type}

/-- Looks up a step by its number and samples its wave. -/
def playStep (missing : UInt32 → ArgumentFault) (sample : UInt32 → Wave → Attempt α)
    (s : WaveSequence) (id : UInt32) : Attempt (UInt32 × PlayedStep α) :=
  match s.wave? id, s.duration? id, s.interval? id with
  | some wave, some duration, some interval => do
    let samples ← sample id wave
    return (id, ⟨samples, duration, larger interval duration⟩)
  | _, _, _ => throw (.argument (missing id))

def playWith (missing : UInt32 → ArgumentFault) (sample : UInt32 → Wave → Attempt α)
    (s : WaveSequence) : Attempt (PlayedSequence α) := do
  let steps ← s.steps.keys.mapM (s.playStep missing sample)
  return ⟨s.rate.val, .ofList steps⟩

def playReal (s : WaveSequence) : Attempt (PlayedSequence (List Int16)) :=
  if s.isIq then throw (.argument (.sequenceKind false))
  else s.playWith .missingStep fun id wave => match wave with
    | .single w => Attempt.ofLogged (w.synthesize s.rate.val)
    | .iq _ => throw (.argument (.stepKind id false))

def playIq (s : WaveSequence) : Attempt (PlayedSequence IqSamples) :=
  if s.isIq then
    s.playWith (.stepKind · true) fun id wave => match wave with
      | .iq w => Attempt.ofLogged (w.synthesize s.rate.val)
      | .single _ => throw (.argument (.stepKind id true))
  else throw (.argument (.sequenceKind true))

def play (s : WaveSequence) : Attempt Playback :=
  if s.isIq then .iq <$> s.playIq else .real <$> s.playReal

end WaveSequence
end WaveSequencer
