import WaveSequencer.Dump.Decode
import WaveSequencer.Proofs.Dump.Words
import WaveSequencer.Proofs.SortedMap.Entries

/-!
Memory dumps as functions of their bytes, and which of them decode. Main statements: a well-formed
dump decodes to the playback that its bytes spell out, and every other dump is found malformed.
-/
namespace WaveSequencer
open Numeric Wire

namespace Dump
variable (dump : Dump)

/-- The number of steps that the descriptor announces. -/
def stepCount : Nat := numberAt dump.descriptor 0 4

def isIq : Bool := numberAt dump.descriptor 4 4 != 0

def rateBits : UInt64 := (numberAt dump.descriptor 8 8).toUInt64

def rate : Float := Float.ofBits dump.rateBits

def record (i : Nat) : StepRecord :=
  ⟨(numberAt dump.descriptor (16 + 8 * i) 4).toUInt32,
    numberAt dump.descriptor (16 + 8 * i + 4) 4 != 0⟩

def word (layout : StepLayout) (i : Nat) : StepWord := .inRegion dump.stepWords i layout

/-- All that the decoder needs is in the buffers, and no step comes twice. -/
structure WellFormed (layout : StepLayout) : Prop where
  header : 16 ≤ dump.descriptor.length
  records : 16 + 8 * dump.stepCount ≤ dump.descriptor.length
  rate : IsPositive dump.rate
  distinct : ((List.range dump.stepCount).map fun i => (dump.record i).id).Nodup
  blocks : ∀ i < dump.stepCount, (i + 1) * layout.blockSize ≤ dump.stepWords.length
  playable : ∀ i < dump.stepCount, (dump.word layout i).Playable dump.waveRam
  paired : dump.isIq = true → ∀ i < dump.stepCount, (dump.word layout i).Paired

/-- What the descriptor says. -/
def announced : Descriptor :=
  ⟨dump.isIq, dump.rateBits, (List.range dump.stepCount).map dump.record⟩

theorem toNat_word (bytes : List UInt8) (offset : Nat) :
    (numberAt bytes offset 4).toUInt32.toNat = numberAt bytes offset 4 :=
  Nat.mod_eq_of_lt (numberAt_lt bytes offset 4)

/-- A word is zero if its bytes are. -/
theorem word_bne_zero (bytes : List UInt8) (offset : Nat) :
    ((numberAt bytes offset 4).toUInt32 != 0) = (numberAt bytes offset 4 != 0) := by
  rw [Bool.eq_iff_iff, bne_iff_ne, bne_iff_ne, ne_eq, ← UInt32.toNat_inj, toNat_word]
  rfl

theorem recordAt_yieldsIff {index : Nat} (h : index < 2 ^ 32) :
    YieldsIff (Descriptor.recordAt ⟨dump.descriptor, .descriptor⟩ index)
      (16 + 8 * (index + 1) ≤ dump.descriptor.length) (dump.record index) := by
  have id := Reader.wordAt_yieldsIff ⟨dump.descriptor, .descriptor⟩ (16 + 8 * index) (by omega)
  have endless := Reader.wordAt_yieldsIff ⟨dump.descriptor, .descriptor⟩ (16 + 8 * index + 4)
    (by omega)
  rw [record, ← word_bne_zero]
  refine (id.bind fun _ => endless.map (StepRecord.mk _ <| · != 0)).of_iff ?_
  dsimp only
  omega

/-- The end of any number of records that a word can announce is an address. -/
theorem recordsAt_yieldsIff {count : Nat} (h : count < 2 ^ 32) :
    YieldsIff (Descriptor.recordsAt ⟨dump.descriptor, .descriptor⟩ count)
      (16 + 8 * count ≤ dump.descriptor.length) ((List.range count).map dump.record) := by
  have records : YieldsIff
      ((List.range count).mapM (Descriptor.recordAt ⟨dump.descriptor, .descriptor⟩))
      (∀ i ∈ List.range count, 16 + 8 * (i + 1) ≤ dump.descriptor.length)
      ((List.range count).map dump.record) :=
    .mapM fun i hi => dump.recordAt_yieldsIff (Nat.lt_trans (List.mem_range.mp hi) h)
  have small : 16 + 8 * count < 2 ^ 64 := by omega
  rw [Descriptor.recordsAt, Wire.address?_of_lt small]
  refine (YieldsIff.refuse id fun _ => records).of_iff ?_
  rw [Nat.not_lt]
  apply and_iff_left_of_imp
  intro complete i hi
  have inside := List.mem_range.mp hi
  exact Nat.le_trans (by omega) complete

theorem parse_yieldsIff : YieldsIff (Descriptor.parse dump.descriptor)
    (16 ≤ dump.descriptor.length ∧ 16 + 8 * dump.stepCount ≤ dump.descriptor.length)
    dump.announced := by
  have count := Reader.wordAt_yieldsIff ⟨dump.descriptor, .descriptor⟩ 0 (by decide)
  have kind := Reader.wordAt_yieldsIff ⟨dump.descriptor, .descriptor⟩ 4 (by decide)
  have bits := Reader.longAt_yieldsIff ⟨dump.descriptor, .descriptor⟩ 8 (by decide)
  have records := dump.recordsAt_yieldsIff (numberAt_lt dump.descriptor 0 4)
  rw [← toNat_word dump.descriptor 0] at records
  have flag : dump.isIq = ((numberAt dump.descriptor 4 4).toUInt32 != 0) :=
    (word_bne_zero dump.descriptor 4).symm
  rw [announced, stepCount, ← toNat_word dump.descriptor 0, flag]
  refine (count.bind fun _ => kind.bind fun _ => bits.bind fun _ =>
    records.map (Descriptor.mk _ _)).of_iff ?_
  dsimp only
  omega

theorem header_yieldsIff : YieldsIff dump.header
    ((16 ≤ dump.descriptor.length ∧ 16 + 8 * dump.stepCount ≤ dump.descriptor.length) ∧
      IsPositive dump.rate)
    (dump.announced, dump.rate) := by
  have positive : YieldsIff (checkRate dump.announced) (IsPositive dump.rate) dump.rate :=
    YieldsIff.check id
  exact dump.parse_yieldsIff.bind fun _ => positive.map (dump.announced, ·)

end Dump

namespace ChannelFormat
variable {α : Type} (format : ChannelFormat α) {plays : StepWord → Prop} {samples : StepWord → α}
  (layout : ValidLayout) (rate : Float) (dump : Dump)

/-- The steps that are decoded for records whose words start at the given index. -/
def entries (samples : StepWord → α) (index : Nat) (records : List StepRecord) :
    List (UInt32 × PlayedStep α) :=
  (records.zipIdx index).map fun (record, i) =>
    let word := dump.word layout.toStepLayout i
    (record.id, format.timed rate record.endless word (samples word))

theorem decodeStep_yieldsIff
    (h : ∀ w, YieldsIff (format.decode w dump.waveRam) (plays w) (samples w)) {index : Nat}
    (hi : index < 2 ^ 32) (record : StepRecord) :
    YieldsIff (format.decodeStep layout rate dump index record)
      ((index + 1) * layout.blockSize ≤ dump.stepWords.length ∧
        plays (dump.word layout.toStepLayout index))
      (format.timed rate record.endless (dump.word layout.toStepLayout index)
        (samples (dump.word layout.toStepLayout index))) := by
  refine (StepWord.read_yieldsIff dump.stepWords layout (layout.blocks_fit hi)).bind fun _ => ?_
  exact (h (dump.word layout.toStepLayout index)).map
    (format.timed rate record.endless (dump.word layout.toStepLayout index))

theorem value_decodeSteps_cons (index : Nat) (record : StepRecord) (rest : List StepRecord)
    (steps : SortedMap UInt32 (PlayedStep α)) (d : Bool) :
    (format.decodeSteps layout rate dump index (record :: rest) steps).value d =
      if steps.contains record.id = true then .error (.malformed (.repeatedStep record.id))
      else format.decodeStep layout rate dump index record >>= fun step =>
        (format.decodeSteps layout rate dump (index + 1) rest (steps.insert record.id step)).value d
    := by
  rw [decodeSteps]
  split
  · rfl
  · rw [Attempt.value_bind, Attempt.value_ofExcept]
    rfl

/-- One pass over the records: no number is taken or comes again, and every word plays. -/
theorem decodeSteps_yieldsIff
    (h : ∀ w, YieldsIff (format.decode w dump.waveRam) (plays w) (samples w))
    {records : List StepRecord} {index : Nat} (hi : index + records.length ≤ 2 ^ 32)
    (steps : SortedMap UInt32 (PlayedStep α)) (d : Bool) :
    YieldsIff ((format.decodeSteps layout rate dump index records steps).value d)
      ((records.map (·.id)).Nodup ∧ (∀ r ∈ records, r.id ∉ steps.keys) ∧
        ∀ k < records.length, (index + k + 1) * layout.blockSize ≤ dump.stepWords.length ∧
          plays (dump.word layout.toStepLayout (index + k)))
      ((format.entries layout rate dump samples index records).foldl
        (fun m e => m.insert e.1 e.2) steps) := by
  induction records generalizing index steps with
  | nil => exact (YieldsIff.pure steps).of_iff (by simp)
  | cons record rest ih =>
    simp only [List.length_cons] at hi
    have here : index < 2 ^ 32 := by omega
    have there : index + 1 + rest.length ≤ 2 ^ 32 := by omega
    have first := format.decodeStep_yieldsIff layout rate dump h here record
    have later := ih there
      (steps.insert record.id (format.timed rate record.endless
        (dump.word layout.toStepLayout index) (samples (dump.word layout.toStepLayout index))))
    rw [value_decodeSteps_cons]
    refine (YieldsIff.refuse id fun _ => first.bind fun _ => later).of_iff ?_
    have shift (k : Nat) : index + 1 + k = index + (k + 1) := by omega
    simp only [SortedMap.contains_eq_true_iff, SortedMap.mem_keys_insert, List.map_cons,
      List.nodup_cons, List.mem_map, List.mem_cons, List.length_cons, Nat.forall_lt_succ_left,
      forall_eq_or_imp, shift, Nat.add_zero, not_or, not_exists, not_and]
    constructor
    · rintro ⟨free, fits, distinct, fresh, rest⟩
      exact ⟨⟨fun r hr => (fresh r hr).1, distinct⟩, ⟨free, fun r hr => (fresh r hr).2⟩, fits, rest⟩
    · rintro ⟨⟨other, distinct⟩, ⟨free, fresh⟩, fits, rest⟩
      exact ⟨free, fits, distinct, fun r hr => ⟨other r hr, fresh r hr⟩, rest⟩

end ChannelFormat

namespace Dump
variable (layout : ValidLayout) (dump : Dump)

/-- What the bytes of a well-formed dump say. -/
def playback : Playback :=
  if dump.isIq then
    .iq ⟨dump.rate, .ofList (ChannelFormat.iq.entries layout dump.rate dump
      (·.iqSamples dump.waveRam) 0 dump.announced.steps)⟩
  else
    .real ⟨dump.rate, .ofList (ChannelFormat.real.entries layout dump.rate dump
      (·.realSamples dump.waveRam) 0 dump.announced.steps)⟩

theorem value_decode (d : Bool) : (dump.decode layout).value d =
    dump.header >>= fun (descriptor, rate) =>
      if descriptor.isIq then
        ((ChannelFormat.iq.decodeSteps layout rate dump 0 descriptor.steps .empty).value d).map
          fun steps => .iq ⟨rate, steps⟩
      else
        ((ChannelFormat.real.decodeSteps layout rate dump 0 descriptor.steps .empty).value d).map
          fun steps => .real ⟨rate, steps⟩ := by
  rw [decode, Attempt.value_bind, Attempt.value_ofExcept]
  congr 1
  funext ⟨descriptor, rate⟩
  dsimp only
  split
  · rw [Attempt.value_bind]
    cases (ChannelFormat.iq.decodeSteps layout rate dump 0 descriptor.steps .empty).value d <;> rfl
  · rw [Attempt.value_bind]
    cases (ChannelFormat.real.decodeSteps layout rate dump 0 descriptor.steps .empty).value d <;>
      rfl

theorem wellFormed_iff {l : StepLayout} : dump.WellFormed l ↔
    ((16 ≤ dump.descriptor.length ∧ 16 + 8 * dump.stepCount ≤ dump.descriptor.length) ∧
      IsPositive dump.rate) ∧
    ((List.range dump.stepCount).map fun i => (dump.record i).id).Nodup ∧
    ∀ i < dump.stepCount, (i + 1) * l.blockSize ≤ dump.stepWords.length ∧
      (dump.word l i).Playable dump.waveRam ∧ (dump.isIq = true → (dump.word l i).Paired) := by
  constructor
  · intro h
    refine ⟨⟨⟨h.header, h.records⟩, h.rate⟩, h.distinct, ?_⟩
    intro i hi
    exact ⟨h.blocks i hi, h.playable i hi, fun kind => h.paired kind i hi⟩
  · rintro ⟨⟨⟨header, records⟩, rate⟩, distinct, steps⟩
    exact ⟨header, records, rate, distinct, fun i hi => (steps i hi).1,
      fun i hi => (steps i hi).2.1, fun kind i hi => (steps i hi).2.2 kind⟩

theorem decode_yieldsIff (d : Bool) : YieldsIff ((dump.decode layout).value d)
    (dump.WellFormed layout.toStepLayout) (dump.playback layout) := by
  have length : dump.announced.steps.length = dump.stepCount := by simp [announced]
  have count : 0 + dump.announced.steps.length ≤ 2 ^ 32 := by
    have small : dump.stepCount < 2 ^ 32 := numberAt_lt dump.descriptor 0 4
    omega
  have ids : dump.announced.steps.map (·.id) =
      (List.range dump.stepCount).map fun i => (dump.record i).id := by
    rw [announced, List.map_map]
    rfl
  have iq := (ChannelFormat.iq.decodeSteps_yieldsIff layout dump.rate dump
    (fun w => w.decodeIq_yieldsIff dump.waveRam) count .empty d).map
      fun steps => Playback.iq ⟨dump.rate, steps⟩
  have real := (ChannelFormat.real.decodeSteps_yieldsIff layout dump.rate dump
    (fun w => w.decodeReal_yieldsIff dump.waveRam) count .empty d).map
      fun steps => Playback.real ⟨dump.rate, steps⟩
  simp only [ids, length, Nat.zero_add] at iq real
  rw [value_decode]
  refine (dump.header_yieldsIff.bind fun _ => ?_).of_iff dump.wellFormed_iff.symm
  cases kind : dump.isIq with
  | true =>
    simp only [announced, kind, playback, if_true, forall_const]
    exact iq.of_iff (and_congr_right fun _ => and_iff_right fun _ _ => List.not_mem_nil)
  | false =>
    simp only [announced, kind, playback]
    refine real.of_iff (and_congr_right fun _ => ?_)
    simp [SortedMap.keys, SortedMap.empty]

/-- Exactly the well-formed dumps decode. Every other one is found malformed, and never because a
position or a length has left 64 bits. -/
theorem decodes_iff_wellFormed (d : Bool) :
    ((∃ playback, (dump.decode layout).value d = .ok playback) ↔
      dump.WellFormed layout.toStepLayout) ∧
    (¬dump.WellFormed layout.toStepLayout →
      ∃ cause, (dump.decode layout).value d = .error (.malformed cause) ∧ ¬cause.IsOverflow) := by
  have verdict := decode_yieldsIff layout dump d
  exact ⟨verdict.exists_iff, verdict.malformed⟩

end Dump
end WaveSequencer
