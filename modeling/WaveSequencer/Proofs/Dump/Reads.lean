import WaveSequencer.Proofs.Dump.Channels

/-!
Reads from a buffer at positions of any size. Main statement: a read succeeds exactly if the bytes
that it is to take end within the buffer, whatever its position and its count, and what it yields
is written as exactly those bytes.
-/
namespace WaveSequencer
open Wire

/-- The channels hold the values at even and at odd positions. -/
theorem Samples.getElem?_channels {α : Type} (xs : List α) (k : Nat) :
    (channels xs).1[k]? = xs[2 * k]? ∧ (channels xs).2[k]? = xs[2 * k + 1]? := by
  induction xs generalizing k with
  | nil => simp
  | cons x xs ih =>
    rw [channels_cons, List.getElem?_cons_succ]
    refine ⟨?_, (ih k).1⟩
    cases k with
    | zero => rfl
    | succ k => exact (ih k).2

namespace Wire

theorem sampleBytes_leValue (low high : UInt8) :
    sampleBytes (leValue [low, high]).toUInt16.toInt16 = [low, high] := by
  have fits : leValue [low, high] < UInt16.size :=
    Nat.lt_of_lt_of_eq (leValue_lt [low, high]) (show 256 ^ 2 = 65536 by decide)
  rw [sampleBytes, UInt16.toUInt16_toInt16, Nat.toUInt16_eq, UInt16.toNat_ofNat_of_lt' fits]
  exact leBytes_leValue [low, high]

/-- Samples are written as the pairs of bytes that they are read from. -/
theorem samplesBytes_samplesOfBytes : (bytes : List UInt8) → bytes.length % 2 = 0 →
    samplesBytes (samplesOfBytes bytes) = bytes
  | [], _ => rfl
  | [_], h => by cases h
  | low :: high :: rest, h => by
    have whole : rest.length % 2 = 0 := by
      simp only [List.length_cons] at h
      omega
    rw [samplesOfBytes, samplesBytes, List.flatMap_cons, sampleBytes_leValue, ← samplesBytes,
      samplesBytes_samplesOfBytes rest whole]
    rfl

namespace Reader

/-- A read that takes bytes up to a position: it succeeds exactly if they are all there, and
otherwise finds the buffer malformed. -/
structure TakesUpTo {α : Type} (r : Reader) (x : Except Fault α) (stop : Nat) : Prop where
  ok_iff : (∃ a, x = .ok a) ↔ stop ≤ r.bytes.length
  malformed : r.bytes.length < stop → ∃ cause, x = .error (.malformed cause)

/-- Why values of the given width are not found: the bytes end too early, or 64 bits do not even
hold how many there would have to be. -/
def shortage (r : Reader) (offset width count : Nat) : MalformedFault :=
  if width * count < 2 ^ 64 then .truncated r.buffer (width * count) offset r.bytes.length
  else .sampleCount r.buffer count

variable {r : Reader} {offset count stop : Nat}

/-- A value that is there under a condition on the end of the read. -/
theorem TakesUpTo.of_eq {α : Type} {x : Except Fault α} {a : α} {cause : MalformedFault}
    (h : x = if stop ≤ r.bytes.length then .ok a else .error (.malformed cause)) :
    r.TakesUpTo x stop := by
  subst h
  constructor
  · split
    · next inside => exact iff_of_true ⟨a, rfl⟩ inside
    · next outside => exact iff_of_false nofun outside
  · intro outside
    exact ⟨cause, if_neg (Nat.not_le.mpr outside)⟩

/-- An end that 64 bits do not hold is beyond the buffer, so no such end is ever within it. -/
theorem bytesAt_eq (small : r.bytes.length < 2 ^ 64) : r.bytesAt offset count =
    if offset + count ≤ r.bytes.length then .ok (slice r.bytes offset count)
    else .error (r.truncated offset count) := by
  rw [bytesAt]
  by_cases fits : offset + count < 2 ^ 64
  · rw [address?_of_lt fits]
    rfl
  · rw [address?_eq_none_iff.mpr (Nat.not_lt.mp fits), if_neg (by omega)]

/-- All that a read of values of some width does: no product and no sum is ever cut off. -/
theorem valuesAt_eq {α : Type} (small : r.bytes.length < 2 ^ 64) (value : List UInt8 → α)
    {width : Nat} :
    (match address? (count * width) with
      | some length => (r.bytesAt offset length).map value
      | none => .error (.malformed (.sampleCount r.buffer count))) =
    if offset + width * count ≤ r.bytes.length then
      .ok (value (slice r.bytes offset (width * count)))
    else .error (.malformed (r.shortage offset width count)) := by
  rw [Nat.mul_comm count, shortage]
  by_cases fits : width * count < 2 ^ 64
  · rw [address?_of_lt fits, if_pos fits]
    dsimp only
    rw [bytesAt_eq small]
    split <;> rfl
  · rw [address?_eq_none_iff.mpr (Nat.not_lt.mp fits), if_neg fits, if_neg (by omega)]

theorem samplesAt_eq (small : r.bytes.length < 2 ^ 64) : r.samplesAt offset count =
    if offset + 2 * count ≤ r.bytes.length then
      .ok (samplesOfBytes (slice r.bytes offset (2 * count)))
    else .error (.malformed (r.shortage offset 2 count)) :=
  valuesAt_eq small samplesOfBytes

theorem pairsAt_eq (small : r.bytes.length < 2 ^ 64) : r.pairsAt offset count =
    if offset + 4 * count ≤ r.bytes.length then
      .ok (IqSamples.ofPairs (samplesOfBytes (slice r.bytes offset (4 * count))))
    else .error (.malformed (r.shortage offset 4 count)) :=
  valuesAt_eq small (IqSamples.ofPairs ∘ samplesOfBytes)

/-- The samples at a position are those of which the bytes at the position are the wire form. -/
theorem samplesBytes_of_samplesAt (small : r.bytes.length < 2 ^ 64) {samples : List Int16}
    (read : r.samplesAt offset count = .ok samples) :
    samplesBytes samples = slice r.bytes offset (2 * count) := by
  rw [samplesAt_eq small] at read
  split at read
  · next inside =>
    rw [← Except.ok.inj read]
    apply samplesBytes_samplesOfBytes
    rw [length_slice inside, Nat.mul_mod_right]
  · cases read

/-- Two channels are the samples of the same bytes, taken in turns. -/
theorem pairsAt_eq_ok_iff (small : r.bytes.length < 2 ^ 64) {iq : IqSamples} :
    r.pairsAt offset count = .ok iq ↔
      ∃ samples, r.samplesAt offset (2 * count) = .ok samples ∧ iq = .ofPairs samples := by
  have bytes : 2 * (2 * count) = 4 * count := by omega
  rw [pairsAt_eq small, samplesAt_eq small, bytes]
  split
  · constructor
    · intro read
      exact ⟨_, rfl, (Except.ok.inj read).symm⟩
    · rintro ⟨samples, read, rfl⟩
      rw [Except.ok.inj read]
  · exact iff_of_false nofun nofun

theorem ofPairs_eq_ofQuads (small : r.bytes.length < 2 ^ 64) {samples : List Int16}
    (read : r.samplesAt offset (2 * count) = .ok samples) :
    IqSamples.ofPairs samples = .ofQuads (slice r.bytes offset (4 * count)) := by
  have bytes : 2 * (2 * count) = 4 * count := by omega
  rw [samplesAt_eq small, bytes] at read
  split at read
  · next inside =>
    rw [← Except.ok.inj read]
    apply IqSamples.ofPairs_samplesOfBytes
    rw [length_slice inside, Nat.mul_mod_right]
  · cases read

theorem samplesAt_append_middle (small : r.bytes.length < 2 ^ 64) {before after : List UInt8}
    {samples : List Int16} (h : r.bytes = before ++ samplesBytes samples ++ after) :
    r.samplesAt before.length samples.length = .ok samples := by
  have middle : slice r.bytes before.length (2 * samples.length) = samplesBytes samples := by
    rw [h, ← length_samplesBytes]
    exact slice_append_middle rfl
  have inside : before.length + 2 * samples.length ≤ r.bytes.length := by
    rw [h, List.length_append, List.length_append, length_samplesBytes]
    exact Nat.le_add_right _ _
  rw [samplesAt_eq small, if_pos inside, middle, samplesOfBytes_samplesBytes]

/-- At any position and for any count a read yields the bytes that are there, the samples of which
they are the wire form, or the two channels that take turns in those samples. It fails exactly if
not all of the bytes are there. Samples that were written between other bytes are found again. -/
theorem reads_exactly_what_is_there (r : Reader) (small : r.bytes.length < 2 ^ 63)
    (offset count : Nat) :
    (r.TakesUpTo (r.bytesAt offset count) (offset + count) ∧
      r.TakesUpTo (r.samplesAt offset count) (offset + 2 * count) ∧
      r.TakesUpTo (r.pairsAt offset count) (offset + 4 * count)) ∧
    (∀ bytes, r.bytesAt offset count = .ok bytes → bytes = slice r.bytes offset count) ∧
    (∀ samples, r.samplesAt offset count = .ok samples →
      samples.length = count ∧ samplesBytes samples = slice r.bytes offset (2 * count)) ∧
    (∀ iq, r.pairsAt offset count = .ok iq →
      iq = .ofQuads (slice r.bytes offset (4 * count)) ∧
      ∃ samples, r.samplesAt offset (2 * count) = .ok samples ∧
        iq.i.length = count ∧ iq.q.length = count ∧
        ∀ k, iq.i[k]? = samples[2 * k]? ∧ iq.q[k]? = samples[2 * k + 1]?) ∧
    ∀ before samples after, r.bytes = before ++ samplesBytes samples ++ after →
      r.samplesAt before.length samples.length = .ok samples := by
  have small : r.bytes.length < 2 ^ 64 := Nat.lt_trans small (by decide)
  refine ⟨⟨?_, ?_, ?_⟩, ?_, ?_, ?_, ?_⟩
  · exact .of_eq (bytesAt_eq small)
  · exact .of_eq (samplesAt_eq small)
  · exact .of_eq (pairsAt_eq small)
  · intro bytes read
    exact (bytesAt_eq_ok_iff.mp read).2.2
  · intro samples read
    exact ⟨length_of_samplesAt read, samplesBytes_of_samplesAt small read⟩
  · intro iq read
    obtain ⟨samples, read', rfl⟩ := (pairsAt_eq_ok_iff small).mp read
    obtain ⟨even, odd⟩ := Samples.length_channels samples
    have total := length_of_samplesAt read'
    refine ⟨ofPairs_eq_ofQuads small read', samples, read', ?_, ?_, ?_⟩
    · exact even.trans (by omega)
    · exact odd.trans (by omega)
    · exact Samples.getElem?_channels samples
  · intro before samples after h
    exact samplesAt_append_middle small h

/-- Three pairs of samples behind a single byte. -/
def behindOneByte : Reader := ⟨7 :: samplesBytes [1, -1, 2, -2, 3, -3], .waveRam⟩

/-- A read may end at the last byte, but not behind it, and not behind the last address. -/
theorem reads_exactly_what_is_there_behindOneByte :
    behindOneByte.samplesAt 1 6 = .ok [1, -1, 2, -2, 3, -3] ∧
    behindOneByte.pairsAt 5 2 = .ok ⟨[2, 3], [-2, -3]⟩ ∧
    (∃ cause, behindOneByte.pairsAt 5 3 = .error (.malformed cause)) ∧
    ∃ cause, behindOneByte.samplesAt (2 ^ 64 - 1) (2 ^ 63 - 1) = .error (.malformed cause) := by
  have small : behindOneByte.bytes.length < 2 ^ 63 := by decide
  obtain ⟨_, _, _, _, written⟩ := reads_exactly_what_is_there behindOneByte small 0 0
  obtain ⟨⟨_, _, pairs⟩, _⟩ := reads_exactly_what_is_there behindOneByte small 5 3
  obtain ⟨⟨_, far, _⟩, _⟩ :=
    reads_exactly_what_is_there behindOneByte small (2 ^ 64 - 1) (2 ^ 63 - 1)
  exact ⟨written [7] [1, -1, 2, -2, 3, -3] [] rfl, rfl, pairs.malformed (by decide),
    far.malformed (by decide)⟩

end Reader
end Wire
end WaveSequencer
