import WaveSequencer.Proofs.Dump.Words

/-!
Decoding a step in two channels and in one. Main statement: with even counts the two decoders fail
alike, or the channels are equally long and their samples, taken in turns, are those of the one
channel; with an odd count there are no two channels.
-/
namespace WaveSequencer
open Wire

namespace Samples
variable {α : Type}

theorem interleaved_append {as bs : List α} (h : as.length = bs.length) (cs ds : List α) :
    interleaved (as ++ cs) (bs ++ ds) = interleaved as bs ++ interleaved cs ds := by
  induction as generalizing bs with
  | nil =>
    obtain rfl := List.length_eq_zero_iff.mp h.symm
    rfl
  | cons a as ih =>
    cases bs with
    | nil => cases h
    | cons b bs =>
      simp only [List.cons_append, interleaved, ih (Nat.succ.inj h)]

theorem interleaved_repeated {as bs : List α} (h : as.length = bs.length) (n : Nat) :
    interleaved (repeated n as) (repeated n bs) = repeated n (interleaved as bs) := by
  induction n with
  | zero => simp only [repeated_zero, interleaved]
  | succ n ih => rw [repeated_succ, repeated_succ, interleaved_append h, ih, repeated_succ]

end Samples

namespace IqSamples

/-- Both channels in turns, the in-phase value first. -/
def interleaved (samples : IqSamples) : List Int16 := Samples.interleaved samples.i samples.q

theorem interleaved_ofPairs {samples : List Int16} (h : samples.length % 2 = 0) :
    (ofPairs samples).i.length = (ofPairs samples).q.length ∧
      (ofPairs samples).interleaved = samples :=
  Samples.interleaved_channels samples h

/-- Pairs of samples from groups of four bytes; bytes that are left over are no pair. -/
def ofQuads : List UInt8 → IqSamples
  | low :: high :: low' :: high' :: rest =>
    let later := ofQuads rest
    ⟨(leValue [low, high]).toUInt16.toInt16 :: later.i,
      (leValue [low', high']).toUInt16.toInt16 :: later.q⟩
  | _ => ⟨[], []⟩

/-- Groups of four bytes hold the same pairs as the samples of two bytes each. -/
theorem ofPairs_samplesOfBytes : (bytes : List UInt8) → bytes.length % 4 = 0 →
    ofPairs (samplesOfBytes bytes) = ofQuads bytes
  | [], _ => rfl
  | [_], h | [_, _], h | [_, _, _], h => by cases h
  | low :: high :: low' :: high' :: rest, h => by
    have whole : rest.length % 4 = 0 := by
      simp only [List.length_cons] at h
      omega
    have later := ofPairs_samplesOfBytes rest whole
    rw [ofPairs] at later
    simp only [samplesOfBytes, ofPairs, Samples.channels_cons, ofQuads, ← later]

end IqSamples

namespace Wire.Reader
variable {r : Reader} {offset count : Nat}

theorem length_of_samplesAt {samples : List Int16} (h : r.samplesAt offset count = .ok samples) :
    samples.length = count := by
  unfold samplesAt at h
  split at h
  · next length fits =>
    obtain ⟨_, rfl⟩ := address?_eq_some_iff.mp fits
    cases read : r.bytesAt offset (count * 2) with
    | ok bytes =>
      rw [read] at h
      obtain rfl := Except.ok.inj h
      rw [length_samplesOfBytes, length_of_bytesAt read, Nat.mul_div_cancel count (by decide)]
    | error cause =>
      rw [read] at h
      cases h
  · cases h

/-- Half as many pairs lie in the same bytes as the samples, so that the reads fail alike. -/
theorem pairsAt_half (even : count % 2 = 0) (small : count < 2 ^ 32) :
    r.pairsAt offset (count / 2) = (r.samplesAt offset count).map IqSamples.ofPairs := by
  have bytes : count / 2 * 4 = count * 2 := by omega
  rw [pairsAt, samplesAt, bytes, address?_of_lt (by omega)]
  dsimp only
  cases r.bytesAt offset (count * 2) <;> rfl

end Wire.Reader

namespace StepWord
variable {w : StepWord} {ram : List UInt8}

/-- All cycles of two channels. -/
def playedIq (w : StepWord) (primary last : IqSamples) : IqSamples :=
  ⟨w.played primary.i last.i, w.played primary.q last.q⟩

theorem interleaved_playedIq {primary last : IqSamples}
    (same : primary.i.length = primary.q.length) :
    (w.playedIq primary last).interleaved = w.played primary.interleaved last.interleaved := by
  have cycles : (Samples.repeated (w.cycles.toNat - 1) primary.i).length =
      (Samples.repeated (w.cycles.toNat - 1) primary.q).length := by
    rw [Samples.length_repeated, Samples.length_repeated, same]
  rw [IqSamples.interleaved, playedIq, played, played, Samples.interleaved_append cycles,
    Samples.interleaved_repeated same]
  rfl

theorem length_playedIq {primary last : IqSamples} (same : primary.i.length = primary.q.length)
    (same' : last.i.length = last.q.length) :
    (w.playedIq primary last).i.length = (w.playedIq primary last).q.length := by
  simp only [playedIq, length_played, same, same']

theorem decodeReal_eq_of_paired (paired : w.Paired) (ram : List UInt8) :
    w.decodeReal ram = (w.decodeIq ram).map IqSamples.interleaved := by
  have hn := w.sampleCount.toNat_lt
  have hn' := w.lastSampleCount.toNat_lt
  rw [decodeReal, decodeIq, w.checkPairs_yieldsIff.ok paired]
  cases w.checkCycles with
  | error cause => rfl
  | ok _ =>
    simp only [Reader.pairsAt_half paired.primary hn, Reader.pairsAt_half paired.last hn',
      bind, Except.bind]
    cases read : Reader.samplesAt ⟨ram, .waveRam⟩ w.startAddress.toNat w.sampleCount.toNat with
    | error cause => rfl
    | ok primary =>
      cases read' : Reader.samplesAt ⟨ram, .waveRam⟩ w.lastStartAddress.toNat
          w.lastSampleCount.toNat with
      | error cause => rfl
      | ok last =>
        have length := Reader.length_of_samplesAt read
        have length' := Reader.length_of_samplesAt read'
        rw [← length] at hn
        rw [← length'] at hn'
        -- A channel has no more samples than both have together, so no total is too large.
        have total := w.totalLength_eq hn hn'
        have total' := w.totalLength_eq
          (Nat.lt_of_le_of_lt (Samples.length_channels_le primary).1 hn)
          (Nat.lt_of_le_of_lt (Samples.length_channels_le last).1 hn')
        obtain ⟨same, whole⟩ := IqSamples.interleaved_ofPairs (length ▸ paired.primary)
        obtain ⟨_, whole'⟩ := IqSamples.interleaved_ofPairs (length' ▸ paired.last)
        have inTurns : (w.playedIq (.ofPairs primary) (.ofPairs last)).interleaved =
            w.played primary last := by
          rw [interleaved_playedIq same, whole, whole']
        simp only [Except.map, IqSamples.ofPairs, total, total']
        exact congrArg Except.ok inTurns.symm

theorem length_primarySamples (plays : w.Playable ram) :
    (w.primarySamples ram).length = w.sampleCount.toNat := by
  rw [primarySamples, length_samplesOfBytes, length_slice plays.primary,
    Nat.mul_div_cancel_left _ (by decide)]

theorem length_lastSamples (plays : w.Playable ram) :
    (w.lastSamples ram).length = w.lastSampleCount.toNat := by
  rw [lastSamples, length_samplesOfBytes, length_slice plays.last,
    Nat.mul_div_cancel_left _ (by decide)]

theorem length_iqSamples (paired : w.Paired) (plays : w.Playable ram) :
    (w.iqSamples ram).i.length = (w.iqSamples ram).q.length := by
  have whole := length_primarySamples plays
  have whole' := length_lastSamples plays
  exact length_playedIq (IqSamples.interleaved_ofPairs (whole ▸ paired.primary)).1
    (IqSamples.interleaved_ofPairs (whole' ▸ paired.last)).1

/-- Each pair of samples comes from four bytes of the RAM. -/
theorem iqSamples_eq_of_paired (paired : w.Paired) (plays : w.Playable ram) :
    w.iqSamples ram =
      w.playedIq (.ofQuads (slice ram w.startAddress.toNat (2 * w.sampleCount.toNat)))
        (.ofQuads (slice ram w.lastStartAddress.toNat (2 * w.lastSampleCount.toNat))) := by
  have primary := length_slice plays.primary
  have last := length_slice plays.last
  have even := paired.primary
  have even' := paired.last
  rw [← IqSamples.ofPairs_samplesOfBytes _ (by omega),
    ← IqSamples.ofPairs_samplesOfBytes _ (by omega)]
  rfl

/-- Two channels are decoded exactly if the samples are decoded as one channel and the counts are
even. The channels are equally long, and in turns they are the one channel. With even counts the
two ways to decode fail alike, and find the bytes malformed. -/
theorem decodes_channels_in_turns (w : StepWord) (ram : List UInt8) :
    ((∃ iq, w.decodeIq ram = .ok iq) ↔ (∃ real, w.decodeReal ram = .ok real) ∧ w.Paired) ∧
    (∀ iq, w.decodeIq ram = .ok iq →
      iq.i.length = iq.q.length ∧ w.decodeReal ram = .ok iq.interleaved ∧
      iq = w.playedIq (.ofQuads (slice ram w.startAddress.toNat (2 * w.sampleCount.toNat)))
        (.ofQuads (slice ram w.lastStartAddress.toNat (2 * w.lastSampleCount.toNat)))) ∧
    (w.Paired → ∀ fault, (w.decodeIq ram = .error fault ↔ w.decodeReal ram = .error fault) ∧
      (w.decodeReal ram = .error fault → ∃ cause, fault = .malformed cause)) := by
  have iqVerdict := w.decodeIq_yieldsIff ram
  have realVerdict := w.decodeReal_yieldsIff ram
  refine ⟨?_, ?_, ?_⟩
  · rw [iqVerdict.exists_iff, realVerdict.exists_iff]
  · intro iq decoded
    obtain ⟨⟨plays, paired⟩, rfl⟩ := iqVerdict.eq_ok_iff.mp decoded
    refine ⟨length_iqSamples paired plays, ?_, iqSamples_eq_of_paired paired plays⟩
    rw [decodeReal_eq_of_paired paired, decoded]
    rfl
  · intro paired fault
    refine ⟨?_, realVerdict.exists_of_eq_error⟩
    rw [decodeReal_eq_of_paired paired]
    cases w.decodeIq ram with
    | ok iq => exact ⟨nofun, nofun⟩
    | error cause => simp only [Except.map, Except.error.injEq]

/-- Two cycles of two pairs and of one pair, each behind the other. -/
def threePairs : StepWord :=
  { sampleCount := 4, lastStartAddress := 8, lastSampleCount := 2, cycles := 2 }

theorem decodes_channels_in_turns_threePairs :
    threePairs.decodeReal (samplesBytes [1, -1, 2, -2, 5, -5]) = .ok [1, -1, 2, -2, 5, -5] ∧
      ∃ fault, threePairs.decodeReal (samplesBytes [1, -1, 2, -2, 5]) = .error fault ∧
        threePairs.decodeIq (samplesBytes [1, -1, 2, -2, 5]) = .error fault := by
  have decoded : threePairs.decodeIq (samplesBytes [1, -1, 2, -2, 5, -5]) =
      .ok ⟨[1, 2, 5], [-1, -2, -5]⟩ := by rfl
  have paired : threePairs.Paired := ⟨rfl, rfl⟩
  obtain ⟨_, channels, _⟩ :=
    decodes_channels_in_turns threePairs (samplesBytes [1, -1, 2, -2, 5, -5])
  obtain ⟨_, _, alike⟩ := decodes_channels_in_turns threePairs (samplesBytes [1, -1, 2, -2, 5])
  exact ⟨(channels _ decoded).2.1, _, rfl, (alike paired _).1.mpr rfl⟩

end StepWord
end WaveSequencer
