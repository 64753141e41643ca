import WaveSequencer.Proofs.SortedMap.Order
import WaveSequencer.Proofs.Waves.CycleLimit
import WaveSequencer.Proofs.Wire.Scan

/-!
Reading the wire form of a sequence of waves. Blocks follow each other without separators: how long
one is shows in its kind and its number of samples, and how many there are in the kind of the
sequence. Main statement: reading gives all of a sequence back, so that no two sequences with
different contents have the same bytes, nor bytes of which one begin with the other.
-/
namespace WaveSequencer
open Numeric Wire

/-- One channel on the wire: the header, and the samples that follow the header of a wave that is
given by samples. -/
structure WaveBlock where
  header : WaveHeader
  samples : List Int16

structure WireStep where
  number : UInt32
  interval : Float
  blocks : List WaveBlock

structure WireSequence where
  rate : Float
  isIq : Bool
  steps : List WireStep

def WaveHeader.scan : Scan WaveHeader := do
  let kind ← Scan.word
  let frequency ← Scan.float
  let phase ← Scan.float
  let amplitude ← Scan.float
  let offset ← Scan.float
  let cycles ← Scan.word
  let dutyCycle ← Scan.float
  let crest ← Scan.float
  let variance ← Scan.float
  let lower ← Scan.float
  let upper ← Scan.float
  let sampleCount ← Scan.word
  return { kind, frequency, phase, amplitude, offset, cycles, dutyCycle, crest, variance, lower,
           upper, sampleCount := sampleCount.toNat }

def WaveBlock.scan : Scan WaveBlock := do
  let header ← WaveHeader.scan
  let samples ← Scan.samples (if header.kind = WaveHeader.sampledCode then header.sampleCount else 0)
  return ⟨header, samples⟩

def WireStep.scan (isIq : Bool) : Scan WireStep := do
  let number ← Scan.word
  let interval ← Scan.float
  let blocks ← WaveBlock.scan.times (if isIq then 2 else 1)
  return ⟨number, interval, blocks⟩

def WireSequence.scan : Scan WireSequence := do
  Scan.expected (tagBytes ['W', 'S', 'E', 'Q'])
  let rate ← Scan.float
  let isIq ← Scan.flag
  let count ← Scan.word
  let steps ← (WireStep.scan isIq).times count.toNat
  return ⟨rate, isIq, steps⟩

theorem WaveHeader.reads_bytes {h : WaveHeader} (fits : h.sampleCount < 2 ^ 32) :
    Reads scan h.bytes h := by
  have count : h.sampleCount.toUInt32.toNat = h.sampleCount := Nat.mod_eq_of_lt fits
  have last := (Reads.word h.sampleCount.toUInt32).result (f := fun n : UInt32 =>
    { h with sampleCount := n.toNat })
  rw [count] at last
  simp only [bytes, List.append_assoc]
  exact (Reads.word _).bind <| (Reads.float _).bind <| (Reads.float _).bind <|
    (Reads.float _).bind <| (Reads.float _).bind <| (Reads.word _).bind <| (Reads.float _).bind <|
    (Reads.float _).bind <| (Reads.float _).bind <| (Reads.float _).bind <|
    (Reads.float _).bind last

theorem WaveBlock.reads_bytes {b : WaveBlock} (fits : b.header.sampleCount < 2 ^ 32)
    (length : b.samples.length =
      if b.header.kind = WaveHeader.sampledCode then b.header.sampleCount else 0) :
    Reads scan (b.header.bytes ++ samplesBytes b.samples) b := by
  have samples := Reads.samples b.samples
  rw [length] at samples
  exact (WaveHeader.reads_bytes fits).bind (samples.result (f := WaveBlock.mk b.header))

/-- No kind of parametric waves has the number of the waves that are given by samples. -/
theorem WaveKind.code_ne_sampledCode (k : WaveKind) : k.code ≠ WaveHeader.sampledCode := by
  cases k <;> decide

namespace ChannelWave
variable {rate : Float}

/-- The channel as it is read from the wire. -/
def block (rate : Float) : ChannelWave → WaveBlock
  | parametric w => ⟨w.header, []⟩
  | sampled w => ⟨w.headerAt rate, w.samples.toList⟩

theorem reads_bytesAt {c : ChannelWave} (fits : c.bufferLength < 2 ^ 32) :
    Reads WaveBlock.scan (c.bytesAt rate) (c.block rate) := by
  cases c with
  | parametric w =>
    have whole := WaveBlock.reads_bytes (b := (parametric w).block rate) (Nat.two_pow_pos 32)
      (if_neg w.kind.code_ne_sampledCode).symm
    rwa [block, samplesBytes, List.flatMap_nil, List.append_nil] at whole
  | sampled w => exact WaveBlock.reads_bytes (b := (sampled w).block rate) fits rfl

end ChannelWave

namespace Wave
variable {rate : Float}

theorem bytesAt_eq_flatMap (rate : Float) (w : Wave) :
    w.bytesAt rate = w.channels.flatMap (·.bytesAt rate) := by
  cases w with
  | single w => exact (List.append_nil _).symm
  | iq w => exact congrArg (w.i.bytesAt rate ++ ·) (List.append_nil _).symm

theorem length_channels (w : Wave) : w.channels.length = if w.isIq then 2 else 1 := by
  cases w <;> rfl

end Wave

namespace WaveSequence

/-- A step as it is read from the wire. -/
def wireStep (rate : Float) (e : UInt32 × WaveStep) : WireStep :=
  ⟨e.1, e.2.effectiveInterval rate, e.2.wave.channels.map (·.block rate)⟩

/-- The sequence as it is read from the wire. -/
def wireForm (s : WaveSequence) : WireSequence :=
  ⟨s.rate.val, s.isIq, s.steps.toList.map (wireStep s.rate.val)⟩

/-- All samples that are given are within the limit of one cycle. -/
def BuffersFit (s : WaveSequence) : Prop :=
  ∀ e ∈ s.steps.toList, ∀ c ∈ e.2.wave.channels, c.bufferLength ≤ Limits.samplesPerCycle

/-- The same but for the requested intervals, of which the hardware is told only so much. -/
structure SameOnWire (s t : WaveSequence) : Prop where
  rate : s.rate = t.rate
  kind : s.isIq = t.isIq
  ids : s.steps.keys = t.steps.keys
  interval : ∀ id, s.effectiveInterval? id = t.effectiveInterval? id
  wave : ∀ id, s.wave? id = t.wave? id

theorem reads_stepBytes {rate : Float} {isIq : Bool} {e : UInt32 × WaveStep}
    (kind : e.2.wave.isIq = isIq)
    (fits : ∀ c ∈ e.2.wave.channels, c.bufferLength ≤ Limits.samplesPerCycle) :
    Reads (WireStep.scan isIq) (stepBytes rate e) (wireStep rate e) := by
  have blocks : Reads (WaveBlock.scan.times e.2.wave.channels.length) (e.2.wave.bytesAt rate)
      (e.2.wave.channels.map (·.block rate)) := by
    rw [Wave.bytesAt_eq_flatMap]
    apply Reads.times
    intro c hc
    exact ChannelWave.reads_bytesAt (Nat.lt_of_le_of_lt (fits c hc) (by decide))
  rw [Wave.length_channels, kind] at blocks
  rw [stepBytes, List.append_assoc]
  exact (Reads.word e.1).bind <| (Reads.float _).bind <|
    blocks.result (f := WireStep.mk e.1 (e.2.effectiveInterval rate))

theorem reads_bytes {s : WaveSequence} (hs : s.Reachable) (fits : s.BuffersFit) :
    Reads WireSequence.scan s.bytes s.wireForm := by
  have inv := hs.invariant
  -- The count on the wire keeps only 32 bits, which is enough for the steps that there can be.
  have count : s.steps.size.toUInt32.toNat = s.steps.toList.length :=
    Nat.mod_eq_of_lt (Nat.lt_of_le_of_lt inv.size (by decide))
  have steps : Reads ((WireStep.scan s.isIq).times s.steps.size.toUInt32.toNat)
      (s.steps.toList.flatMap (stepBytes s.rate.val))
      (s.steps.toList.map (wireStep s.rate.val)) := by
    rw [count]
    apply Reads.times
    intro e he
    exact reads_stepBytes (inv.admitted e he).kind (fits e he)
  simp only [bytes, List.append_assoc]
  exact (Reads.expected _).bind <| (Reads.float s.rate.val).bind <| (Reads.flag s.isIq).bind <|
    (Reads.word _).bind <| steps.result (f := WireSequence.mk s.rate.val s.isIq)

/-- What the hardware is told about each step. -/
def wireContent (s : WaveSequence) : SortedMap UInt32 (Wave × Float) :=
  s.steps.entries.mapValues fun step => (step.wave, step.effectiveInterval s.rate.val)

theorem wave?_eq (s : WaveSequence) (id : UInt32) :
    s.wave? id = (s.wireContent.get? id).map (·.1) := by
  rw [wave?, wireContent, SortedMap.get?_mapValues, Option.map_map]
  rfl

theorem effectiveInterval?_eq (s : WaveSequence) (id : UInt32) :
    s.effectiveInterval? id = (s.wireContent.get? id).map (·.2) := by
  rw [effectiveInterval?, wireContent, SortedMap.get?_mapValues, Option.map_map]
  rfl

theorem keys_wireContent (s : WaveSequence) : s.wireContent.keys = s.steps.keys :=
  SortedMap.keys_mapValues _ _

theorem bytes_eq_wireContent (s : WaveSequence) : s.bytes =
    tagBytes ['W', 'S', 'E', 'Q'] ++ floatBytes s.rate.val ++ flagBytes s.isIq ++
      countBytes s.wireContent.toList.length ++ s.wireContent.toList.flatMap fun e =>
        wordBytes e.1 ++ floatBytes e.2.2 ++ e.2.1.bytesAt s.rate.val := by
  rw [wireContent, SortedMap.mapValues, List.length_map, List.flatMap_map]
  rfl

theorem SameOnWire.of_wireContent {s t : WaveSequence} (rate : s.rate = t.rate)
    (kind : s.isIq = t.isIq) (h : s.wireContent = t.wireContent) : s.SameOnWire t where
  rate := rate
  kind := kind
  ids := by rw [← keys_wireContent, ← keys_wireContent, h]
  interval id := by rw [effectiveInterval?_eq, effectiveInterval?_eq, h]
  wave id := by rw [wave?_eq, wave?_eq, h]

/-- Steps with the same waves and the same intervals on the wire are told alike. -/
theorem wireContent_eq_of {s t : WaveSequence} (hs : s.Invariant) (ht : t.Invariant)
    (waves : ∀ id, s.wave? id = t.wave? id)
    (intervals : ∀ id, s.effectiveInterval? id = t.effectiveInterval? id) :
    s.wireContent = t.wireContent := by
  apply (hs.ascending.mapValues _).ext (ht.ascending.mapValues _)
  intro id
  have wave := waves id
  have interval := intervals id
  rw [wave?_eq, wave?_eq] at wave
  rw [effectiveInterval?_eq, effectiveInterval?_eq] at interval
  change s.wireContent.get? id = t.wireContent.get? id
  cases found : s.wireContent.get? id with
  | none =>
    rw [found] at wave
    exact (Option.map_eq_none_iff.mp wave.symm).symm
  | some a =>
    rw [found] at wave interval
    obtain ⟨b, found', first⟩ := Option.map_eq_some_iff.mp wave.symm
    rw [found'] at interval
    rw [found', Prod.ext first (Option.some.inj interval).symm]

theorem SameOnWire.bytes_eq {s t : WaveSequence} (hs : s.Invariant) (ht : t.Invariant)
    (h : s.SameOnWire t) : s.bytes = t.bytes := by
  rw [bytes_eq_wireContent, bytes_eq_wireContent, wireContent_eq_of hs ht h.wave h.interval, h.rate,
    h.kind]

/-- A parametric channel beside samples, and before it a step with samples in both channels. -/
def paired : WaveSequence :=
  ((empty .thousand true).withStep 9
    ⟨(Wave.iq .toneAndBuffer).attach .thousand, 0.0⟩).withStep 2
    ⟨(Wave.iq .buffers).attach .thousand, 50.0⟩

/-- The same samples in a single channel. -/
def lone : WaveSequence :=
  (empty .thousand false).withStep 2 ⟨(Wave.single .buffer).attach .thousand, 50.0⟩

theorem lone_reachable : lone.Reachable := by
  have added : (empty .thousand false).add 2 (.single .buffer) 50.0 = .ok lone :=
    add_eq_ok_iff.mpr ⟨⟨by decide, rfl, by decide⟩, rfl, by decide, rfl⟩
  exact (reachable_empty .thousand false).add added

end WaveSequence
end WaveSequencer
