import WaveSequencer.Proofs.Containers.Calls
import WaveSequencer.Proofs.Wire.Scan

/-!
Reading the wire form of a capture configuration. Devices are not counted, but each one says how
many bytes it takes, so that they are read up to the end of the buffer. Main statement: reading
gives back all that is written, which is all of a configuration but for a single accumulating
window, which is written as a repetition of one window.
-/
namespace WaveSequencer
open Numeric Wire

/-- A capture on the wire. -/
structure WireCapture where
  time : Float
  delay : Float
  accumulates : Bool
  repeatCount : UInt32
  isEndless : Bool
  deriving DecidableEq

/-- A sequence of captures on the wire, the captures by step number. -/
structure WireCaptures where
  rate : Float
  isIq : Bool
  steps : List (UInt32 × WireCapture)
  deriving DecidableEq

namespace WireCapture

def bytes (c : WireCapture) : List UInt8 :=
  floatBytes c.time ++ floatBytes c.delay ++ flagBytes c.accumulates ++ wordBytes c.repeatCount ++
    flagBytes c.isEndless

def scan : Scan WireCapture := do
  let time ← Scan.float
  let delay ← Scan.float
  let accumulates ← Scan.flag
  let repeatCount ← Scan.word
  let isEndless ← Scan.flag
  return { time, delay, accumulates, repeatCount, isEndless }

def stepBytes (e : UInt32 × WireCapture) : List UInt8 := wordBytes e.1 ++ e.2.bytes

def scanStep : Scan (UInt32 × WireCapture) := do
  let number ← Scan.word
  let capture ← scan
  return (number, capture)

theorem reads_bytes (c : WireCapture) : Reads scan c.bytes c := by
  simp only [bytes, List.append_assoc]
  exact (Reads.float _).bind <| (Reads.float _).bind <| (Reads.flag _).bind <|
    (Reads.word _).bind <| (Reads.flag _).result

theorem reads_stepBytes (e : UInt32 × WireCapture) : Reads scanStep (stepBytes e) e :=
  (Reads.word e.1).bind e.2.reads_bytes.result

end WireCapture

namespace WireCaptures

def bytes (s : WireCaptures) : List UInt8 :=
  floatBytes s.rate ++ flagBytes s.isIq ++ countBytes s.steps.length ++
    s.steps.flatMap WireCapture.stepBytes

def scan : Scan WireCaptures := do
  let rate ← Scan.float
  let isIq ← Scan.flag
  let count ← Scan.count
  let steps ← WireCapture.scanStep.times count
  return { rate, isIq, steps }

def deviceBytes (e : UInt32 × WireCaptures) : List UInt8 :=
  wordBytes e.1 ++ countBytes e.2.bytes.length ++ e.2.bytes

/-- A device, whose captures have to take exactly the bytes that are announced for them. -/
def scanDevice : Scan (UInt32 × WireCaptures) := do
  let device ← Scan.word
  let length ← Scan.count
  let captures ← scan.within length
  return (device, captures)

theorem reads_bytes {s : WireCaptures} (fits : s.steps.length < 2 ^ 32) :
    Reads scan s.bytes s := by
  have steps : Reads (WireCapture.scanStep.times s.steps.length)
      (s.steps.flatMap WireCapture.stepBytes) s.steps :=
    Reads.times_self fun e _ => WireCapture.reads_stepBytes e
  simp only [bytes, List.append_assoc]
  exact (Reads.float _).bind <| (Reads.flag _).bind <| (Reads.count fits).bind steps.result

end WireCaptures

/-- A whole configuration, up to the end of the bytes. -/
def CaptureConfig.read (bytes : List UInt8) : Option (List (UInt32 × WireCaptures)) := do
  let (_, rest) ← Scan.expected (tagBytes ['C', 'P', 'C', 'F']) bytes
  WireCaptures.scanDevice.toEnd rest

namespace Windows

/-- One repetition. -/
def once : Windows := .count 1 (by decide)

/-- Only a single accumulating window and one repetition are written in the same way. -/
theorem eq_or_once {v w : Windows} (accumulates : v.accumulates = w.accumulates)
    (repeatCount : v.repeatCount = w.repeatCount) (isEndless : v.isEndless = w.isEndless) :
    v = w ∨ (v = .single true ∧ w = once) ∨ (v = once ∧ w = .single true) := by
  cases v with
  | single a =>
    cases w with
    | single b => exact .inl (congrArg single accumulates)
    | count n _ =>
      obtain rfl : a = true := accumulates
      obtain rfl : 1 = n := repeatCount
      exact .inr (.inl ⟨rfl, rfl⟩)
    | endless => cases isEndless
  | count m _ =>
    cases w with
    | single b =>
      obtain rfl : true = b := accumulates
      obtain rfl : m = 1 := repeatCount
      exact .inr (.inr ⟨rfl, rfl⟩)
    | count n _ =>
      obtain rfl : m = n := repeatCount
      exact .inl rfl
    | endless => cases isEndless
  | endless =>
    cases w with
    | single b => cases isEndless
    | count n _ => cases isEndless
    | endless => exact .inl rfl

end Windows

namespace Capture

/-- The capture as it is read from the wire. -/
def wireForm (c : Capture) : WireCapture :=
  ⟨c.time, c.delay, c.windows.accumulates, c.windows.repeatCount, c.windows.isEndless⟩

/-- One window that accumulates, and the same window with one repetition. -/
def AccumulatesOnce (a b : Capture) : Prop :=
  ∃ time delay, single time delay true = .ok a ∧ windowed time 1 delay = .ok b

/-- Equal, or distinct in nothing but how a single accumulating window was asked for. -/
def SameOnWire (a b : Capture) : Prop := a = b ∨ a.AccumulatesOnce b ∨ b.AccumulatesOnce a

theorem ext {a b : Capture} (time : a.time = b.time) (delay : a.delay = b.delay)
    (windows : a.windows = b.windows) : a = b := by
  obtain ⟨_, _, _, _, _⟩ := a
  obtain ⟨_, _, _, _, _⟩ := b
  subst time delay windows
  rfl

theorem ofTimes_eq_ok_iff {time delay : Float} {windows : Windows} {c : Capture} :
    ofTimes time delay windows = .ok c ↔
      c.time = time ∧ c.delay = delay ∧ c.windows = windows := by
  constructor
  · intro created
    unfold ofTimes at created
    split at created
    · split at created
      · rw [← Except.ok.inj created]
        exact ⟨rfl, rfl, rfl⟩
      · cases created
    · cases created
  · rintro ⟨rfl, rfl, rfl⟩
    rw [ofTimes, dif_pos c.time_positive, dif_pos c.delay_range]

theorem windowed_one_eq_ok_iff {time delay : Float} {c : Capture} :
    windowed time 1 delay = .ok c ↔
      c.time = time ∧ c.delay = delay ∧ c.windows = .once := by
  have count : Windows.ofCount? (Int.toNat 1) = some .once := rfl
  simp only [windowed, except_bind_eq_ok_iff, ofTimes_eq_ok_iff, count]
  constructor
  · rintro ⟨endless, ⟨rfl, rfl, _⟩, created⟩
    rw [← Except.ok.inj created]
    exact ⟨rfl, rfl, rfl⟩
  · rintro ⟨rfl, rfl, once⟩
    refine ⟨{ c with windows := .endless }, ⟨rfl, rfl, rfl⟩, ?_⟩
    exact congrArg Except.ok (ext rfl rfl once.symm)

theorem accumulatesOnce_iff {a b : Capture} : a.AccumulatesOnce b ↔
    a.time = b.time ∧ a.delay = b.delay ∧ a.windows = .single true ∧ b.windows = .once := by
  simp only [AccumulatesOnce, single, ofTimes_eq_ok_iff, windowed_one_eq_ok_iff]
  constructor
  · rintro ⟨_, _, ⟨rfl, rfl, single⟩, time, delay, once⟩
    exact ⟨time.symm, delay.symm, single, once⟩
  · rintro ⟨time, delay, single, once⟩
    exact ⟨_, _, ⟨rfl, rfl, single⟩, time.symm, delay.symm, once⟩

theorem wireForm_eq_iff {a b : Capture} : a.wireForm = b.wireForm ↔ a.SameOnWire b := by
  rw [SameOnWire, accumulatesOnce_iff, accumulatesOnce_iff]
  constructor
  · intro same
    obtain ⟨time, delay, accumulates, repeatCount, isEndless⟩ := WireCapture.mk.inj same
    rcases Windows.eq_or_once accumulates repeatCount isEndless with equal | once | once
    · exact .inl (ext time delay equal)
    · exact .inr (.inl ⟨time, delay, once⟩)
    · exact .inr (.inr ⟨time.symm, delay.symm, once.2, once.1⟩)
  · rintro (rfl | ⟨time, delay, single, once⟩ | ⟨time, delay, single, once⟩)
    · rfl
    · rw [wireForm, wireForm, time, delay, single, once]
      rfl
    · rw [wireForm, wireForm, time, delay, single, once]
      rfl

end Capture

namespace CaptureSequence

/-- From a new sequence, after calls to add captures, of which any may be refused. -/
def Reachable (s : CaptureSequence) : Prop :=
  ∃ rate isIq start calls, create rate isIq = .ok start ∧ s = afterCalls addCall start calls

/-- The sequence as it is read from the wire. -/
def wireForm (s : CaptureSequence) : WireCaptures :=
  ⟨s.rate.val, s.isIq, (s.steps.entries.mapValues Capture.wireForm).toList⟩

/-- The same steps, apart from how a single accumulating window was asked for. -/
structure SameOnWire (s t : CaptureSequence) : Prop where
  rate : s.rate = t.rate
  kind : s.isIq = t.isIq
  ids : s.steps.keys = t.steps.keys
  captures : ∀ id a b, s.capture? id = some a → t.capture? id = some b → a.SameOnWire b

theorem Reachable.filled {s : CaptureSequence} (h : s.Reachable) :
    s.steps.Filled Limits.steps fun _ => True := by
  obtain ⟨rate, isIq, start, calls, created, rfl⟩ := h
  obtain ⟨positive, rfl⟩ := create_eq_ok_iff.mp created
  obtain ⟨m, same, filled⟩ := (insertsInto ⟨rate, positive⟩ isIq).exists_filled (fun _ => True)
    (fun c (_ : c ∈ calls) => trivial) Limits.steps
  rw [empty, same]
  exact filled

theorem wireForm_eq_iff {s t : CaptureSequence} (hs : s.Reachable) (ht : t.Reachable) :
    s.wireForm = t.wireForm ↔ s.SameOnWire t := by
  have steps := SortedMap.Ascending.mapValues_eq_iff (f := Capture.wireForm) hs.filled.ascending
    ht.filled.ascending
  simp only [Capture.wireForm_eq_iff] at steps
  constructor
  · intro same
    obtain ⟨rate, kind, listed⟩ := WireCaptures.mk.inj same
    obtain ⟨ids, captures⟩ := steps.mp (congrArg SortedMap.mk listed)
    exact ⟨Subtype.ext rate, kind, ids, captures⟩
  · rintro ⟨rate, kind, ids, captures⟩
    rw [wireForm, wireForm, rate, kind, steps.mpr ⟨ids, captures⟩]

end CaptureSequence

namespace CaptureConfig

/-- From an empty configuration, after calls to add sequences, of which any may be refused. -/
def Reachable (c : CaptureConfig) : Prop :=
  ∃ calls, (∀ call ∈ calls, call.2.Reachable) ∧ c = afterCalls addCall empty calls

/-- The configuration as it is read from the wire. -/
def wireForm (c : CaptureConfig) : List (UInt32 × WireCaptures) :=
  (c.sequences.entries.mapValues CaptureSequence.wireForm).toList

/-- The same devices, apart from how single accumulating windows were asked for. -/
structure SameOnWire (c d : CaptureConfig) : Prop where
  devices : c.sequences.keys = d.sequences.keys
  sequences : ∀ device s t, c.sequence? device = some s → d.sequence? device = some t →
    s.SameOnWire t

theorem Reachable.filled {c : CaptureConfig} (h : c.Reachable) :
    c.sequences.Filled Limits.captureDevices (·.2.Reachable) := by
  obtain ⟨calls, sequences, rfl⟩ := h
  obtain ⟨m, same, filled⟩ := insertsInto.exists_filled (·.2.Reachable) sequences
    Limits.captureDevices
  rw [empty, same]
  exact filled

theorem Reachable.sequence {c : CaptureConfig} (h : c.Reachable) {device : UInt32}
    {s : CaptureSequence} (found : c.sequence? device = some s) : s.Reachable :=
  h.filled.entries (device, s) (SortedMap.mem_of_get? found)

theorem wireForm_eq_iff {c d : CaptureConfig} (hc : c.Reachable) (hd : d.Reachable) :
    c.wireForm = d.wireForm ↔ c.SameOnWire d := by
  have entries := SortedMap.Ascending.mapValues_eq_iff (f := CaptureSequence.wireForm)
    hc.filled.ascending hd.filled.ascending
  constructor
  · intro same
    obtain ⟨devices, sequences⟩ := entries.mp (congrArg SortedMap.mk same)
    refine ⟨devices, ?_⟩
    intro device s t left right
    exact (CaptureSequence.wireForm_eq_iff (hc.sequence left) (hd.sequence right)).mp
      (sequences device s t left right)
  · rintro ⟨devices, sequences⟩
    apply congrArg SortedMap.toList
    refine entries.mpr ⟨devices, ?_⟩
    intro device s t left right
    exact (CaptureSequence.wireForm_eq_iff (hc.sequence left) (hd.sequence right)).mpr
      (sequences device s t left right)

/-- The announced lengths stand on the wire as they are. -/
theorem bytes_eq {c : CaptureConfig} (h : c.Reachable) : c.bytes =
    tagBytes ['C', 'P', 'C', 'F'] ++ c.sequences.toList.flatMap fun e =>
      wordBytes e.1 ++ leBytes 4 (16 + 32 * e.2.steps.size) ++ e.2.bytes := by
  rw [bytes]
  congr 1
  apply List.flatMap_congr
  intro e he
  have few : e.2.steps.size ≤ 32 := (h.filled.entries e he).filled.room
  rw [deviceBytes, CaptureSequence.length_bytes, countBytes_eq (by omega)]

end CaptureConfig
end WaveSequencer
