import WaveSequencer.Dump.WaveRam
import WaveSequencer.Proofs.Dump.Layout
import WaveSequencer.Proofs.Wire.Verdict

/-!
Step words and the samples they refer to, as functions of the bytes alone. Main statements:
reading a word succeeds exactly if its block is there, and decoding its samples exactly if the
word has a cycle, its ranges lie in the wave RAM, and, for two channels, its counts are even.
-/
namespace WaveSequencer
open Wire

theorem Wire.length_samplesOfBytes : (bytes : List UInt8) →
    (samplesOfBytes bytes).length = bytes.length / 2
  | [] => rfl
  | [_] => by simp [samplesOfBytes]
  | _ :: _ :: rest => by
    simp only [samplesOfBytes, List.length_cons, length_samplesOfBytes rest]
    omega

namespace Samples
variable {α : Type}

theorem length_channels (xs : List α) :
    (channels xs).1.length = (xs.length + 1) / 2 ∧ (channels xs).2.length = xs.length / 2 := by
  induction xs with
  | nil => simp
  | cons x xs ih =>
    simp only [channels_cons, List.length_cons, ih, and_true]
    omega

theorem length_channels_le (xs : List α) :
    (channels xs).1.length ≤ xs.length ∧ (channels xs).2.length ≤ xs.length := by
  obtain ⟨first, second⟩ := length_channels xs
  omega

end Samples

namespace StepWord

/-- The word with the given number in each field. -/
def ofNumbers (number : WordField → Nat) : StepWord where
  startAddress := (number .startAddress).toUInt32
  sampleCount := (number .sampleCount).toUInt32
  lastStartAddress := (number .lastStartAddress).toUInt32
  lastSampleCount := (number .lastSampleCount).toUInt32
  cycles := (number .cycles).toUInt32
  interval := (number .interval).toUInt64

@[simp] theorem ofNumbers_field (w : StepWord) : ofNumbers w.field = w := by
  simp [ofNumbers, field]

/-- All fields of a valid layout are in a block of full length. -/
theorem ofBlock_eq {block : List UInt8} (l : ValidLayout) (h : block.length = l.blockSize) :
    ofBlock block l.toStepLayout =
      .ok (ofNumbers fun f => numberAt block (l.offset f) f.width) := by
  have small := l.blockSize_le
  have word (f : WordField) (hf : f.width = 4) :
      (⟨block, .stepWord⟩ : Reader).wordAt (l.offset f) =
        .ok (numberAt block (l.offset f) f.width).toUInt32 := by
    have inside := l.field_inside f
    rw [hf] at inside ⊢
    exact (Reader.wordAt_yieldsIff ⟨block, .stepWord⟩ _ (by omega)).ok (by simp only; omega)
  have long : (⟨block, .stepWord⟩ : Reader).longAt (l.offset .interval) =
      .ok (numberAt block (l.offset .interval) 8).toUInt64 := by
    have inside := l.field_inside .interval
    simp only [WordField.width] at inside
    exact (Reader.longAt_yieldsIff ⟨block, .stepWord⟩ _ (by omega)).ok (by simp only; omega)
  have start := word .startAddress rfl
  have count := word .sampleCount rfl
  have lastStart := word .lastStartAddress rfl
  have lastCount := word .lastSampleCount rfl
  have cycles := word .cycles rfl
  simp only [StepLayout.offset] at start count lastStart lastCount cycles long
  simp only [ofBlock, start, count, lastStart, lastCount, cycles, long, bind, Except.bind, pure,
    Except.pure]
  rfl

/-- The word of the given index in a region of blocks. -/
def inRegion (region : List UInt8) (index : Nat) (l : StepLayout) : StepWord :=
  ofNumbers fun f => numberAt region (index * l.blockSize + l.offset f) f.width

/-- The fields of a word lie before the end of its block. -/
theorem field_end_le (l : ValidLayout) (i : Nat) (f : WordField) :
    i * l.blockSize + l.offset f + f.width ≤ (i + 1) * l.blockSize := by
  have inside := l.field_inside f
  rw [Nat.add_mul, Nat.one_mul]
  omega

theorem blockAt_yieldsIff (region : List UInt8) {index : Nat} {l : StepLayout}
    (fits : (index + 1) * l.blockSize < 2 ^ 64) :
    YieldsIff (blockAt region index l) ((index + 1) * l.blockSize ≤ region.length)
      (slice region (index * l.blockSize) l.blockSize) := by
  rw [Nat.add_mul, Nat.one_mul] at fits ⊢
  rw [blockAt, address?_of_lt (by omega)]
  exact Reader.bytesAt_yieldsIff ⟨region, .stepWords⟩ _ _ fits

theorem read_yieldsIff (region : List UInt8) {index : Nat} (l : ValidLayout)
    (fits : (index + 1) * l.blockSize < 2 ^ 64) :
    YieldsIff (read region index l.toStepLayout) ((index + 1) * l.blockSize ≤ region.length)
      (inRegion region index l.toStepLayout) := by
  have hvalid := StepLayout.validate_eq_ok_iff.mpr l.valid
  rw [read, hvalid]
  refine ((blockAt_yieldsIff region fits).bind fun there => ?_).of_iff (and_iff_left trivial)
  rw [ofBlock_eq l (length_slice (by rw [Nat.add_mul, Nat.one_mul] at there; exact there))]
  have same : (ofNumbers fun f => numberAt (slice region (index * l.blockSize) l.blockSize)
      (l.offset f) f.width) = inRegion region index l.toStepLayout := by
    simp only [inRegion, numberAt, slice_slice (l.field_inside _)]
  rw [same]
  exact YieldsIff.pure _

/-- The samples of all cycles but the last one, as they lie in the RAM. -/
def primarySamples (w : StepWord) (ram : List UInt8) : List Int16 :=
  samplesOfBytes (slice ram w.startAddress.toNat (2 * w.sampleCount.toNat))

/-- The samples of the last cycle, as they lie in the RAM. -/
def lastSamples (w : StepWord) (ram : List UInt8) : List Int16 :=
  samplesOfBytes (slice ram w.lastStartAddress.toNat (2 * w.lastSampleCount.toNat))

/-- The samples of one channel. -/
def realSamples (w : StepWord) (ram : List UInt8) : List Int16 :=
  w.played (w.primarySamples ram) (w.lastSamples ram)

/-- The samples of two channels that take turns in the RAM. -/
def iqSamples (w : StepWord) (ram : List UInt8) : IqSamples :=
  let primary := IqSamples.ofPairs (w.primarySamples ram)
  let last := IqSamples.ofPairs (w.lastSamples ram)
  ⟨w.played primary.i last.i, w.played primary.q last.q⟩

/-- There is a last cycle, and both ranges of samples lie in the RAM. -/
structure Playable (w : StepWord) (ram : List UInt8) : Prop where
  cycles : 1 ≤ w.cycles.toNat
  primary : w.startAddress.toNat + 2 * w.sampleCount.toNat ≤ ram.length
  last : w.lastStartAddress.toNat + 2 * w.lastSampleCount.toNat ≤ ram.length

/-- Both ranges hold whole pairs of samples. -/
structure Paired (w : StepWord) : Prop where
  primary : w.sampleCount.toNat % 2 = 0
  last : w.lastSampleCount.toNat % 2 = 0

theorem checkCycles_yieldsIff (w : StepWord) :
    YieldsIff w.checkCycles (1 ≤ w.cycles.toNat) () := by
  refine (YieldsIff.refuse id fun _ => YieldsIff.pure ()).of_iff ?_
  rw [and_iff_left trivial, ← UInt32.toNat_inj]
  exact Nat.pos_iff_ne_zero.symm

theorem checkPairs_yieldsIff (w : StepWord) : YieldsIff w.checkPairs w.Paired () := by
  have even (n : UInt32) : ¬n % 2 ≠ 0 ↔ n.toNat % 2 = 0 := by
    rw [Decidable.not_not, ← UInt32.toNat_inj, UInt32.toNat_mod]
    rfl
  refine (YieldsIff.refuse id fun _ =>
    YieldsIff.refuse id fun _ => YieldsIff.pure ()).of_iff ?_
  rw [and_iff_left trivial, even, even]
  exact ⟨fun h => ⟨h.1, h.2⟩, fun h => ⟨h.primary, h.last⟩⟩

/-- A 64-bit number holds the length of every step: two factors below `2 ^ 32` leave room for
the last cycle. -/
theorem totalLength_eq (w : StepWord) {primary last : Nat} (hp : primary < 2 ^ 32)
    (hl : last < 2 ^ 32) :
    w.totalLength primary last = .ok (primary * (w.cycles.toNat - 1) + last) := by
  have hc := w.cycles.toNat_lt
  have hprod : primary * (w.cycles.toNat - 1) ≤ (2 ^ 32 - 1) * (2 ^ 32 - 2) :=
    Nat.mul_le_mul (by omega) (by omega)
  rw [totalLength, address?_of_lt (by omega)]

theorem length_primarySamples_le (w : StepWord) (ram : List UInt8) :
    (w.primarySamples ram).length ≤ w.sampleCount.toNat := by
  have h := length_slice_le ram w.startAddress.toNat (2 * w.sampleCount.toNat)
  rw [primarySamples, length_samplesOfBytes]
  omega

theorem length_lastSamples_le (w : StepWord) (ram : List UInt8) :
    (w.lastSamples ram).length ≤ w.lastSampleCount.toNat := by
  have h := length_slice_le ram w.lastStartAddress.toNat (2 * w.lastSampleCount.toNat)
  rw [lastSamples, length_samplesOfBytes]
  omega

theorem decodeReal_yieldsIff (w : StepWord) (ram : List UInt8) :
    YieldsIff (w.decodeReal ram) (w.Playable ram) (w.realSamples ram) := by
  have hs := w.startAddress.toNat_lt
  have hn := w.sampleCount.toNat_lt
  have hs' := w.lastStartAddress.toNat_lt
  have hn' := w.lastSampleCount.toNat_lt
  have primary := Reader.samplesAt_yieldsIff ⟨ram, .waveRam⟩ w.startAddress.toNat
    w.sampleCount.toNat (by omega)
  have last := Reader.samplesAt_yieldsIff ⟨ram, .waveRam⟩ w.lastStartAddress.toNat
    w.lastSampleCount.toNat (by omega)
  have total := w.totalLength_eq (Nat.lt_of_le_of_lt (w.length_primarySamples_le ram) hn)
    (Nat.lt_of_le_of_lt (w.length_lastSamples_le ram) hn')
  refine (w.checkCycles_yieldsIff.bind fun _ => primary.bind fun _ => last.bind (d := True)
    fun _ => ?_).of_iff ⟨fun h => ⟨h.1, h.2.1, h.2.2.1⟩, fun h => ⟨h.1, h.2, h.3, trivial⟩⟩
  change YieldsIff (w.totalLength (w.primarySamples ram).length (w.lastSamples ram).length >>= _)
    True _
  rw [total]
  exact YieldsIff.pure (w.realSamples ram)

/-- Pairs of samples take as many bytes as the samples one by one, if their number is even. -/
theorem decodeIq_yieldsIff (w : StepWord) (ram : List UInt8) :
    YieldsIff (w.decodeIq ram) (w.Playable ram ∧ w.Paired) (w.iqSamples ram) := by
  have hs := w.startAddress.toNat_lt
  have hn := w.sampleCount.toNat_lt
  have hs' := w.lastStartAddress.toNat_lt
  have hn' := w.lastSampleCount.toNat_lt
  have primary := Reader.pairsAt_yieldsIff ⟨ram, .waveRam⟩ w.startAddress.toNat
    (w.sampleCount.toNat / 2) (by omega)
  have last := Reader.pairsAt_yieldsIff ⟨ram, .waveRam⟩ w.lastStartAddress.toNat
    (w.lastSampleCount.toNat / 2) (by omega)
  have hp := Nat.le_trans (Samples.length_channels_le (w.primarySamples ram)).1
    (w.length_primarySamples_le ram)
  have hl := Nat.le_trans (Samples.length_channels_le (w.lastSamples ram)).1
    (w.length_lastSamples_le ram)
  have total := w.totalLength_eq (Nat.lt_of_le_of_lt hp hn) (Nat.lt_of_le_of_lt hl hn')
  have whole {n : Nat} (h : n % 2 = 0) : 4 * (n / 2) = 2 * n := by omega
  refine (w.checkCycles_yieldsIff.bind fun _ => w.checkPairs_yieldsIff.bind
    (d := w.startAddress.toNat + 2 * w.sampleCount.toNat ≤ ram.length ∧
      w.lastStartAddress.toNat + 2 * w.lastSampleCount.toNat ≤ ram.length)
    fun paired => ?_).of_iff
    ⟨fun h => ⟨⟨h.1, h.2.2.1, h.2.2.2⟩, h.2.1⟩, fun h => ⟨h.1.1, h.2, h.1.2, h.1.3⟩⟩
  rw [whole paired.primary] at primary
  rw [whole paired.last] at last
  refine (primary.bind fun _ => last.bind (d := True) fun _ => ?_).of_iff (by rw [and_true])
  change YieldsIff (w.totalLength (IqSamples.ofPairs (w.primarySamples ram)).i.length
    (IqSamples.ofPairs (w.lastSamples ram)).i.length >>= _) True _
  rw [IqSamples.ofPairs, IqSamples.ofPairs, total]
  exact YieldsIff.pure (w.iqSamples ram)

end StepWord
end WaveSequencer
