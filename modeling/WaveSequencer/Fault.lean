import WaveSequencer.Decimal.Positional
import WaveSequencer.Dump.WordField
import WaveSequencer.Limits
import WaveSequencer.SortedMap.Bounded

/-!
Everything that can be wrong with an argument, with the state of an object, or with the bytes of
a memory dump. A fault is a cause with its data; `Fault.message` words it.
-/
namespace WaveSequencer
open Decimal

/-- An argument out of range, or at odds with another one or with its container. -/
inductive ArgumentFault where
  | samplingRate (rate : Float)
  | frequency (frequency : Float)
  | phase (phase : Float)
  | amplitude (amplitude : Float)
  | offset (offset : Float)
  | cycles (cycles : UInt32)
  | dutyCycle (percent : Float)
  | crest (position : Float)
  | variance (variance : Float)
  | domain (lower upper : Float)
  | noSamples
  | cycleMismatch (i q : UInt32)
  | interval (interval : Float)
  /-- A wave of the wrong kind for its sequence, which is an IQ sequence or is none. -/
  | waveKind (step : UInt32) (iqSequence : Bool)
  | waveSize (step : UInt32) (rate : Float)
  | waveStep (step : UInt32) (cause : InsertFault UInt32)
  | captureTime (time : Float)
  | delay (delay : Float)
  | noWindows
  | windows (count : Int)
  | captureStep (step : UInt32) (cause : InsertFault UInt32)
  | captureDevice (device : UInt32)
  | captureAssignment (device : UInt32) (cause : InsertFault UInt32)
  | digitalDuration (duration : Float)
  | digitalEntries
  | digitalStep (cause : InsertFault UInt32)
  | blockSize (size : Nat)
  | fieldOutside (field : WordField) (offset block : Nat)
  | fieldsOverlap (first second : WordField)
  /-- A sequence of the wrong kind, where an IQ sequence was expected or one was not. -/
  | sequenceKind (iqExpected : Bool)
  /-- A number under which a sequence has no step. -/
  | missingStep (step : UInt32)
  /-- A step of the wrong kind within a sequence. -/
  | stepKind (step : UInt32) (iqExpected : Bool)
  deriving DecidableEq

/-- State that is asked for before it is there. -/
inductive OperationFault where
  | noSamplingRate
  deriving DecidableEq

inductive Buffer where
  | descriptor
  | stepWords
  | stepWord
  | waveRam
  deriving DecidableEq

/-- Bytes that do not hold what they announce. -/
inductive MalformedFault where
  | truncated (buffer : Buffer) (length offset size : Nat)
  | sampleCount (buffer : Buffer) (count : Nat)
  | stepCount (count : Nat)
  | missingRecords (count needed size : Nat)
  | stepIndex (index : Nat)
  | noCycles
  | oddCount (field : WordField) (count : UInt32)
  | stepSize (cycles : UInt32) (length : Nat)
  | samplingRate (rate : Float)
  | repeatedStep (step : UInt32)
  deriving DecidableEq

inductive Fault where
  | argument (cause : ArgumentFault)
  | operation (cause : OperationFault)
  | malformed (cause : MalformedFault)
  deriving DecidableEq

def ArgumentFault.message : ArgumentFault → String
  | samplingRate r => s!"Sampling rate must be a positive number, got {text r}"
  | frequency f => s!"Frequency must be a positive number, got {text f}"
  | phase p => s!"Phase must be finite, got {text p}"
  | amplitude a => s!"Amplitude must be a non-negative number, got {text a}"
  | offset o => s!"Offset must be finite, got {text o}"
  | cycles n => s!"num_cycles must be in [1, 0xFFFFFFFE], got {n}"
  | dutyCycle d => s!"Duty cycle must be in [0, 100], got {text d}"
  | crest c => s!"Crest position must be in [0.0, 1.0], got {text c}"
  | variance v => s!"Variance must be a positive number, got {text v}"
  | domain l u => s!"Domain must satisfy begin < end, got [{text l}, {text u}]"
  | noSamples => "Arbitrary wave needs at least one sample"
  | cycleMismatch i q => s!"I and Q waves must have the same number of cycles, got {i} and {q}"
  | interval t => s!"Interval must be a non-negative number of ns, got {text t}"
  | waveKind step true => s!"Step {step}: this sequence accepts only an IQ wave"
  | waveKind step false => s!"Step {step}: this sequence accepts only a non-IQ wave"
  | waveSize step r => s!"Step {step}: wave has too many samples at {text r} Msps"
  | waveStep step cause => s!"Step {step}: {cause.message}"
  | captureTime t => s!"Capture time must be a positive number of ns, got {text t}"
  | delay t => s!"Delay must be in [0, 1.4e10] ns, got {text t}"
  | noWindows => "num_windows must be nonzero"
  | windows n => s!"num_windows must fit into 32 bits, got {n}"
  | captureStep step cause => s!"Capture step {step}: {cause.message}"
  | captureDevice d => s!"Capture device id must be in [0, {Limits.captureDevices}), got {d}"
  | captureAssignment d cause => s!"Capture device {d}: {cause.message}"
  | digitalDuration t => s!"Digital output duration must be in (0, 1e10] ns, got {text t}"
  | digitalEntries => s!"A digital output vector holds at most {Limits.digitalEntries} entries"
  | digitalStep cause => cause.message
  | blockSize n => s!"Step word block of {n} bytes exceeds {Limits.stepWordBlock} bytes"
  | fieldOutside f place block =>
    s!"Step word field \x60{f.name}\x60 at offset {place} exceeds the {block} byte block"
  | fieldsOverlap a b => s!"Step word fields \x60{a.name}\x60 and \x60{b.name}\x60 overlap"
  | sequenceKind true => "Expected an IQ wave sequence, got a real-valued sequence"
  | sequenceKind false => "Expected a real-valued wave sequence, got an IQ sequence"
  | missingStep step => s!"Step {step} is missing from the sequence"
  | stepKind step true => s!"Step {step} does not hold an IQ wave"
  | stepKind step false => s!"Step {step} holds an IQ wave"

def OperationFault.message : OperationFault → String
  | noSamplingRate =>
    "Frequency of an arbitrary wave is undefined until a sampling rate is attached"

def Buffer.name : Buffer → String
  | descriptor => "wave sequence descriptor"
  | stepWords => "step parameter region"
  | stepWord => "step parameter word"
  | waveRam => "wave RAM"

def MalformedFault.message : MalformedFault → String
  | truncated b length offset size =>
    s!"{b.name} is truncated: needs {length} bytes at offset {offset}, has {size} bytes"
  | sampleCount b count => s!"{b.name}: sample count {count} overflows"
  | stepCount count => s!"Step count {count} overflows"
  | missingRecords count needed size =>
    s!"Wave sequence descriptor advertises {count} steps ({needed} bytes), got {size} bytes"
  | stepIndex i => s!"Step index {i} is out of range"
  | noCycles => "Step word has zero cycles"
  | oddCount f n => s!"IQ step word has an odd \x60{f.name}\x60 of {n}"
  | stepSize n length => s!"Step of {n} cycles x {length} samples is too large"
  | samplingRate r => s!"Descriptor holds an invalid sampling rate of {text r} Msps"
  | repeatedStep step => s!"Descriptor lists step {step} twice"

def Fault.message : Fault → String
  | argument cause => "Invalid argument: " ++ cause.message
  | operation cause => "Invalid operation: " ++ cause.message
  | malformed cause => "Malformed input: " ++ cause.message

end WaveSequencer
