import Mathlib
import WaveSequencer.Proofs.Dump.WellFormed

/-!
The bytes that a dump is decoded from: the header and the announced records, the fields of as many
step words, and the ranges of the wave RAM that these refer to. Main statement: a dump with the
same bytes there is decoded to the same playback, and a dump that ends before them is malformed.
-/
namespace WaveSequencer
open Numeric Wire

namespace StepWord

/-- Where the later one of the two ranges of samples ends. -/
def ramEnd (w : StepWord) : Nat :=
  max (w.startAddress.toNat + 2 * w.sampleCount.toNat)
    (w.lastStartAddress.toNat + 2 * w.lastSampleCount.toNat)

theorem playable_iff {w : StepWord} {ram : List UInt8} :
    w.Playable ram ↔ 1 ≤ w.cycles.toNat ∧ w.ramEnd ≤ ram.length := by
  rw [ramEnd, max_le_iff]
  constructor
  · intro h
    exact ⟨h.cycles, h.primary, h.last⟩
  · rintro ⟨cycles, primary, last⟩
    exact ⟨cycles, primary, last⟩

/-- Both ranges of samples hold the same bytes. -/
structure SameSamples (w : StepWord) (ram ram' : List UInt8) : Prop where
  primary : SameIn ram ram' w.startAddress.toNat (2 * w.sampleCount.toNat)
  last : SameIn ram ram' w.lastStartAddress.toNat (2 * w.lastSampleCount.toNat)

section
variable {w : StepWord} {ram ram' : List UInt8}

theorem SameSamples.primarySamples_eq (h : w.SameSamples ram ram') :
    w.primarySamples ram' = w.primarySamples ram :=
  congrArg samplesOfBytes h.primary.slice_eq

theorem SameSamples.lastSamples_eq (h : w.SameSamples ram ram') :
    w.lastSamples ram' = w.lastSamples ram :=
  congrArg samplesOfBytes h.last.slice_eq

theorem SameSamples.realSamples_eq (h : w.SameSamples ram ram') :
    w.realSamples ram' = w.realSamples ram := by
  rw [realSamples, h.primarySamples_eq, h.lastSamples_eq, realSamples]

theorem SameSamples.iqSamples_eq (h : w.SameSamples ram ram') :
    w.iqSamples ram' = w.iqSamples ram := by
  rw [iqSamples, h.primarySamples_eq, h.lastSamples_eq, iqSamples]

end

end StepWord

namespace Dump

/-- The end of the last range of the wave RAM that a step refers to. -/
def ramEnd (dump : Dump) (l : StepLayout) : Nat :=
  (Finset.range dump.stepCount).sup fun i => (dump.word l i).ramEnd

theorem ramEnd_le_iff {dump : Dump} {l : StepLayout} {n : Nat} :
    dump.ramEnd l ≤ n ↔ ∀ i < dump.stepCount, (dump.word l i).ramEnd ≤ n := by
  simp only [ramEnd, Finset.sup_le_iff, Finset.mem_range]

/-- The second dump has all bytes that the first one is decoded from. Of the two words that are
only compared with zero, it may have another value on the same side. -/
structure SameWhereRead (l : StepLayout) (a b : Dump) : Prop where
  count : SameIn a.descriptor b.descriptor 0 4
  kind : b.isIq = a.isIq
  rate : SameIn a.descriptor b.descriptor 8 8
  records : 16 + 8 * a.stepCount ≤ b.descriptor.length
  number : ∀ i < a.stepCount, SameIn a.descriptor b.descriptor (16 + 8 * i) 4
  endless : ∀ i < a.stepCount, (b.record i).endless = (a.record i).endless
  blocks : a.stepCount * l.blockSize ≤ b.stepWords.length
  fields : ∀ i < a.stepCount, ∀ f,
    SameIn a.stepWords b.stepWords (i * l.blockSize + l.offset f) f.width
  ram : a.ramEnd l ≤ b.waveRam.length
  samples : ∀ i < a.stepCount, (a.word l i).SameSamples a.waveRam b.waveRam

/-- The dump with more bytes behind each buffer. -/
def append (dump : Dump) (descriptor stepWords waveRam : List UInt8) : Dump :=
  ⟨dump.descriptor ++ descriptor, dump.stepWords ++ stepWords, dump.waveRam ++ waveRam⟩

/-- The dump of which no more than the given numbers of bytes are left. -/
def cut (dump : Dump) (descriptor stepWords waveRam : Nat) : Dump :=
  ⟨dump.descriptor.take descriptor, dump.stepWords.take stepWords, dump.waveRam.take waveRam⟩

section
variable {a b : Dump} {l : StepLayout}

theorem stepCount_eq (h : SameIn a.descriptor b.descriptor 0 4) : b.stepCount = a.stepCount :=
  h.numberAt_eq

theorem rateBits_eq (h : SameIn a.descriptor b.descriptor 8 8) : b.rateBits = a.rateBits :=
  congrArg Nat.toUInt64 h.numberAt_eq

theorem word_eq {i : Nat}
    (h : ∀ f, SameIn a.stepWords b.stepWords (i * l.blockSize + l.offset f) f.width) :
    b.word l i = a.word l i :=
  congrArg StepWord.ofNumbers (funext fun f => (h f).numberAt_eq)

end

namespace SameWhereRead
variable {a b : Dump} {l : StepLayout}

theorem rate_eq (h : a.SameWhereRead l b) : b.rate = a.rate :=
  congrArg Float.ofBits (rateBits_eq h.rate)

theorem record_eq (h : a.SameWhereRead l b) {i : Nat} (hi : i < a.stepCount) :
    b.record i = a.record i := by
  have id : (b.record i).id = (a.record i).id :=
    congrArg Nat.toUInt32 (h.number i hi).numberAt_eq
  exact StepRecord.mk.injEq .. ▸ ⟨id, h.endless i hi⟩

theorem word_eq (h : a.SameWhereRead l b) {i : Nat} (hi : i < a.stepCount) :
    b.word l i = a.word l i :=
  Dump.word_eq (h.fields i hi)

theorem announced_eq (h : a.SameWhereRead l b) : b.announced = a.announced := by
  rw [announced, h.kind, rateBits_eq h.rate, stepCount_eq h.count, announced]
  congr 1
  apply List.map_congr_left
  intro i hi
  exact h.record_eq (List.mem_range.mp hi)

/-- Being well-formed depends on the bytes that are read and on the ends of the buffers. -/
theorem wellFormed (h : a.SameWhereRead l b) (wf : a.WellFormed l) : b.WellFormed l := by
  have count := stepCount_eq h.count
  have least := h.records
  constructor
  · omega
  · rw [count]
    exact h.records
  · rw [h.rate_eq]
    exact wf.rate
  · have ids : ((List.range a.stepCount).map fun i => (b.record i).id) =
        (List.range a.stepCount).map fun i => (a.record i).id := by
      apply List.map_congr_left
      intro i hi
      rw [h.record_eq (List.mem_range.mp hi)]
    rw [count, ids]
    exact wf.distinct
  · intro i hi
    rw [count] at hi
    exact Nat.le_trans (Nat.mul_le_mul_right _ hi) h.blocks
  · intro i hi
    rw [count] at hi
    rw [h.word_eq hi]
    exact StepWord.playable_iff.mpr
      ⟨(wf.playable i hi).cycles, ramEnd_le_iff.mp h.ram i hi⟩
  · intro kind i hi
    rw [count] at hi
    rw [h.kind] at kind
    rw [h.word_eq hi]
    exact wf.paired kind i hi

/-- The same steps, if the samples of a word come from its ranges alone. -/
theorem entries_eq {α : Type} {layout : ValidLayout}
    (h : a.SameWhereRead layout.toStepLayout b) (format : ChannelFormat α) (rate : Float)
    (samples : StepWord → List UInt8 → α)
    (same : ∀ w, w.SameSamples a.waveRam b.waveRam → samples w b.waveRam = samples w a.waveRam) :
    format.entries layout rate b (samples · b.waveRam) 0 a.announced.steps =
      format.entries layout rate a (samples · a.waveRam) 0 a.announced.steps := by
  apply List.map_congr_left
  rintro ⟨record, i⟩ listed
  -- Only words of announced steps are compared, and the records are no more than those.
  have hi : i < a.stepCount := by
    have bound := List.snd_lt_of_mem_zipIdx listed
    simpa [announced] using bound
  dsimp only
  rw [h.word_eq hi, same _ (h.samples i hi)]

theorem playback_eq {layout : ValidLayout} (h : a.SameWhereRead layout.toStepLayout b) :
    b.playback layout = a.playback layout := by
  have iq := h.entries_eq .iq a.rate StepWord.iqSamples
    fun _ => StepWord.SameSamples.iqSamples_eq
  have real := h.entries_eq .real a.rate StepWord.realSamples
    fun _ => StepWord.SameSamples.realSamples_eq
  rw [playback, h.kind, h.rate_eq, h.announced_eq, iq, real, playback]

end SameWhereRead

theorem WellFormed.blocks_le {a : Dump} {l : StepLayout} (wf : a.WellFormed l) :
    a.stepCount * l.blockSize ≤ a.stepWords.length := by
  cases count : a.stepCount with
  | zero =>
    rw [Nat.zero_mul]
    exact Nat.zero_le _
  | succ last => exact wf.blocks last (count ▸ Nat.lt_succ_self last)

theorem WellFormed.sameWhereRead_append {a : Dump} {layout : ValidLayout}
    (wf : a.WellFormed layout.toStepLayout) (x y z : List UInt8) :
    a.SameWhereRead layout.toStepLayout (a.append x y z) := by
  have header := wf.header
  have records := wf.records
  have blocks {i : Nat} (hi : i < a.stepCount) (f : WordField) :=
    Nat.le_trans (StepWord.field_end_le layout i f) (wf.blocks i hi)
  have kind : SameIn a.descriptor (a.append x y z).descriptor 4 4 := sameIn_append x (by omega)
  constructor
  · exact sameIn_append x (by omega)
  · rw [isIq, kind.numberAt_eq, isIq]
  · exact sameIn_append x (by omega)
  · rw [append, List.length_append]
    omega
  · intro i hi
    exact sameIn_append x (by omega)
  · intro i hi
    have flag : SameIn a.descriptor (a.append x y z).descriptor (16 + 8 * i + 4) 4 :=
      sameIn_append x (by omega)
    rw [record, flag.numberAt_eq, record]
  · exact Nat.le_trans wf.blocks_le (by simp [append])
  · intro i hi f
    exact sameIn_append y (blocks hi f)
  · rw [append, List.length_append, ramEnd_le_iff]
    intro i hi
    exact Nat.le_add_right_of_le (StepWord.playable_iff.mp (wf.playable i hi)).2
  · intro i hi
    exact ⟨sameIn_append z (wf.playable i hi).primary, sameIn_append z (wf.playable i hi).last⟩

/-- A cut dump is only well-formed if nothing is cut that is read. It then announces as many steps,
and has the same words, as the whole one. -/
theorem enough_of_wellFormed_cut {a : Dump} {layout : ValidLayout} {n m k : Nat}
    (wf : (a.cut n m k).WellFormed layout.toStepLayout) :
    16 + 8 * a.stepCount ≤ n ∧ a.stepCount * layout.blockSize ≤ m ∧
      a.ramEnd layout.toStepLayout ≤ k := by
  have header : 16 ≤ n := Nat.le_trans wf.header (List.length_take_le n _)
  have count : (a.cut n m k).stepCount = a.stepCount := stepCount_eq (sameIn_take (by omega))
  have records := Nat.le_trans wf.records (List.length_take_le n _)
  have blocks := Nat.le_trans wf.blocks_le (List.length_take_le m _)
  rw [count] at records blocks
  refine ⟨records, blocks, ramEnd_le_iff.mpr ?_⟩
  intro i hi
  -- The ranges are those of the whole dump, since no step word has been cut.
  have word : (a.cut n m k).word layout.toStepLayout i = a.word layout.toStepLayout i := by
    apply word_eq
    intro f
    have block : (i + 1) * layout.blockSize ≤ m :=
      Nat.le_trans (Nat.mul_le_mul_right _ hi) blocks
    exact sameIn_take (Nat.le_trans (StepWord.field_end_le layout i f) block)
  have plays := wf.playable i (count ▸ hi)
  rw [word] at plays
  exact Nat.le_trans (StepWord.playable_iff.mp plays).2 (List.length_take_le k _)

/-- What a dump is decoded to depends on the bytes that are read and on nothing else: other bytes
may change, and bytes may follow. If one of the bytes that are read is cut off, with all that
follow, the dump is malformed. -/
theorem decodes_from_bytes_read {layout : ValidLayout} {a : Dump} {p : Playback} {d : Bool}
    (decoded : (a.decode layout).value d = .ok p) :
    (∀ b, a.SameWhereRead layout.toStepLayout b → (b.decode layout).value d = .ok p) ∧
    (∀ x y z, ((a.append x y z).decode layout).value d = .ok p) ∧
    ∀ n m k, n < 16 + 8 * a.stepCount ∨ m < a.stepCount * layout.blockSize ∨
        k < a.ramEnd layout.toStepLayout →
      ∃ cause, ((a.cut n m k).decode layout).value d = .error (.malformed cause) := by
  have verdict := decode_yieldsIff layout a d
  have wf := verdict.exists_iff.mp ⟨p, decoded⟩
  have played : a.playback layout = p := by
    rw [verdict.ok wf] at decoded
    exact Except.ok.inj decoded
  have unchanged (b : Dump) (same : a.SameWhereRead layout.toStepLayout b) :
      (b.decode layout).value d = .ok p := by
    rw [(decode_yieldsIff layout b d).ok (same.wellFormed wf), same.playback_eq, played]
  refine ⟨unchanged, ?_, ?_⟩
  · intro x y z
    exact unchanged _ (wf.sameWhereRead_append x y z)
  · intro n m k short
    have bad : ¬(a.cut n m k).WellFormed layout.toStepLayout := by
      intro whole
      have enough := enough_of_wellFormed_cut whole
      omega
    obtain ⟨cause, malformed, _⟩ := (decode_yieldsIff layout (a.cut n m k) d).malformed bad
    exact ⟨cause, malformed⟩

/-- An endless step in two channels, of which the last cycle has samples of its own. -/
def endlessStep : Dump where
  descriptor := wordBytes 1 ++ wordBytes 1 ++ floatBytes 500.0 ++ wordBytes 7 ++ wordBytes 1
  stepWords := StepWord.block
    { sampleCount := 2, lastStartAddress := 6, lastSampleCount := 2, cycles := 3 } {}
  waveRam := samplesBytes [1, -2, 0, 5, 6]

/-- The same with other nonzero words for the kind and for the endless step, and other bytes behind
the record, between the fields and between the samples. -/
def endlessStepEdited : Dump where
  descriptor := wordBytes 1 ++ wordBytes 3 ++ floatBytes 500.0 ++ wordBytes 7 ++ wordBytes 2 ++
    wordBytes 9
  stepWords := StepWord.overwrite endlessStep.stepWords 20 (wordBytes 9)
  waveRam := samplesBytes [1, -2, 8, 5, 6]

theorem endlessStep_wellFormed : endlessStep.WellFormed {} where
  header := by decide +kernel
  records := by decide +kernel
  rate := by decide +kernel
  distinct := by decide +kernel
  blocks := by decide +kernel
  playable := by
    simp only [StepWord.playable_iff]
    decide +kernel
  paired _ i hi := by
    obtain rfl : i = 0 := Nat.lt_one_iff.mp hi
    constructor <;> decide +kernel

theorem endlessStep_sameWhereRead : endlessStep.SameWhereRead {} endlessStepEdited where
  count := by decide +kernel
  kind := by decide +kernel
  rate := by decide +kernel
  records := by decide +kernel
  number := by decide +kernel
  endless := by decide +kernel
  blocks := by decide +kernel
  fields i hi f := by
    have same : ∀ i < endlessStep.stepCount, ∀ f ∈ WordField.all, SameIn endlessStep.stepWords
        endlessStepEdited.stepWords (i * 32 + ({} : StepLayout).offset f) f.width := by
      decide +kernel
    exact same i hi f (WordField.mem_all f)
  ram := by decide +kernel
  samples i hi := by
    obtain rfl : i = 0 := Nat.lt_one_iff.mp hi
    constructor <;> decide +kernel

theorem decodes_from_bytes_read_endlessStep : ∃ p,
    (endlessStep.decode {}).value false = .ok p ∧
      (endlessStepEdited.decode {}).value false = .ok p ∧
        ∃ cause, ((endlessStep.cut 24 32 9).decode {}).value false = .error (.malformed cause) := by
  have decoded := (decode_yieldsIff {} endlessStep false).ok endlessStep_wellFormed
  obtain ⟨unchanged, _, cut⟩ := decodes_from_bytes_read decoded
  exact ⟨_, decoded, unchanged _ endlessStep_sameWhereRead, cut 24 32 9 (by decide +kernel)⟩

end Dump
end WaveSequencer
