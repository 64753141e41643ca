import WaveSequencer.Proofs.Dump.Overwrite
import WaveSequencer.Proofs.Dump.WellFormed

/-!
Descriptors and their bytes. Main statements: a written descriptor is read again, whatever follows
it; bytes are read exactly if all announced records are there; and a descriptor that has been read
is written as the bytes that it was read from, with one for every flag that is not zero.
-/
namespace WaveSequencer.Descriptor
open Wire

section
variable (d : Descriptor)

theorem length_bytes : d.bytes.length = 16 + 8 * d.steps.length := by
  simp only [bytes, List.length_append, length_countBytes, length_flagBytes, length_longBytes,
    length_flatMap_of_length StepRecord.length_bytes]
  omega

theorem numberAt_count : numberAt d.bytes 0 4 = d.steps.length % 2 ^ 32 := by
  rw [bytes, List.append_assoc, List.append_assoc]
  exact numberAt_append_middle (a := []) rfl d.steps.length.toUInt32.toNat_lt

theorem numberAt_kind : numberAt d.bytes 4 4 = if d.isIq then 1 else 0 := by
  have written : numberAt d.bytes 4 4 = (if d.isIq then (1 : UInt32) else 0).toNat := by
    rw [bytes, List.append_assoc]
    exact numberAt_append_middle (length_countBytes _) (UInt32.toNat_lt _)
  rw [written]
  cases d.isIq <;> rfl

theorem numberAt_rate : numberAt d.bytes 8 8 = d.rateBits.toNat :=
  numberAt_append_middle (by simp) d.rateBits.toNat_lt

section
variable {i : Nat} (hi : i < d.steps.length)
include hi

theorem numberAt_records {offset : Nat} (h : offset + 4 ≤ 8) :
    numberAt d.bytes (16 + 8 * i + offset) 4 = numberAt d.steps[i].bytes offset 4 := by
  have header : (countBytes d.steps.length ++ flagBytes d.isIq ++ longBytes d.rateBits).length =
      16 := by simp
  have place : 16 + 8 * i + offset = (countBytes d.steps.length ++ flagBytes d.isIq ++
      longBytes d.rateBits).length + (i * 8 + offset) := by omega
  rw [bytes, place, numberAt_append_right, numberAt_flatMap StepRecord.length_bytes hi h]

theorem numberAt_id : numberAt d.bytes (16 + 8 * i) 4 = d.steps[i].id.toNat :=
  (d.numberAt_records hi (by decide)).trans
    (numberAt_append_middle (a := []) rfl d.steps[i].id.toNat_lt)

theorem numberAt_endless :
    numberAt d.bytes (16 + 8 * i + 4) 4 = if d.steps[i].endless then 1 else 0 := by
  have written : numberAt d.steps[i].bytes 4 4 =
      (if d.steps[i].endless then (1 : UInt32) else 0).toNat := by
    rw [StepRecord.bytes, ← List.append_nil (wordBytes _ ++ _)]
    exact numberAt_append_middle (length_wordBytes _) (UInt32.toNat_lt _)
  rw [d.numberAt_records hi (by decide), written]
  cases d.steps[i].endless <;> rfl

end

end

/-- What the bytes of a descriptor say. -/
def ofBytes (bytes : List UInt8) : Descriptor := (⟨bytes, [], []⟩ : Dump).announced

/-- The places of the words that are flags: the kind, and for each step whether it is endless. -/
def flagPlaces (count : Nat) : List Nat := 4 :: (List.range count).map (16 + 8 * · + 4)

/-- The header and the announced records, with one in place of every flag that is not zero. -/
def normalized (bytes : List UInt8) : List UInt8 :=
  StepWord.overwriteAll id (fun place => flagBytes (numberAt bytes place 4 != 0))
    (bytes.take (16 + 8 * numberAt bytes 0 4)) (flagPlaces (numberAt bytes 0 4))

/-- All bytes of the header and of as many records are there. -/
def Complete (bytes : List UInt8) : Prop :=
  16 ≤ bytes.length ∧ 16 + 8 * numberAt bytes 0 4 ≤ bytes.length

instance (bytes : List UInt8) : Decidable (Complete bytes) := by unfold Complete; infer_instance

theorem parse_yieldsIff (bytes : List UInt8) :
    YieldsIff (parse bytes) (Complete bytes) (ofBytes bytes) :=
  Dump.parse_yieldsIff ⟨bytes, [], []⟩

@[simp] theorem length_steps_ofBytes (bytes : List UInt8) :
    (ofBytes bytes).steps.length = numberAt bytes 0 4 := by
  simp [ofBytes, Dump.announced, Dump.stepCount]

theorem getElem_steps_ofBytes (bytes : List UInt8) {i : Nat}
    (hi : i < (ofBytes bytes).steps.length) : (ofBytes bytes).steps[i] =
      ⟨(numberAt bytes (16 + 8 * i) 4).toUInt32, numberAt bytes (16 + 8 * i + 4) 4 != 0⟩ := by
  simp [ofBytes, Dump.announced, Dump.record]

theorem ofBytes_append (d : Descriptor) (count : d.steps.length < 2 ^ 32) (rest : List UInt8) :
    ofBytes (d.bytes ++ rest) = d := by
  have length := d.length_bytes
  have written {o w : Nat} (h : o + w ≤ d.bytes.length) :
      numberAt (d.bytes ++ rest) o w = numberAt d.bytes o w := (sameIn_append rest h).numberAt_eq
  have steps : numberAt (d.bytes ++ rest) 0 4 = d.steps.length := by
    rw [written (by omega), numberAt_count, Nat.mod_eq_of_lt count]
  have kind : (numberAt (d.bytes ++ rest) 4 4 != 0) = d.isIq := by
    rw [written (by omega), numberAt_kind]
    cases d.isIq <;> rfl
  have rate : (numberAt (d.bytes ++ rest) 8 8).toUInt64 = d.rateBits := by
    rw [written (by omega), numberAt_rate, Nat.toUInt64_eq, UInt64.ofNat_toNat]
  have records : (ofBytes (d.bytes ++ rest)).steps = d.steps := by
    apply List.ext_getElem ((length_steps_ofBytes _).trans steps)
    intro i hi known
    rw [getElem_steps_ofBytes, written (by omega), written (by omega), numberAt_id d known,
      numberAt_endless d known, Nat.toUInt32_eq, UInt32.ofNat_toNat]
    cases d.steps[i] with
    | mk id endless => cases endless <;> rfl
  cases d with
  | mk isIq rateBits steps => exact mk.injEq .. ▸ ⟨kind, rate, records⟩

theorem leValue_flagBytes (b : Bool) : leValue (flagBytes b) = if b then 1 else 0 := by
  cases b <;> rfl

theorem mem_flagPlaces {count p : Nat} :
    p ∈ flagPlaces count ↔ p = 4 ∨ ∃ i < count, 16 + 8 * i + 4 = p := by
  simp [flagPlaces]

/-- Bytes that agree in the words of the header and of all records agree. -/
theorem eq_of_words {count : Nat} {xs ys : List UInt8} (hx : xs.length = 16 + 8 * count)
    (hy : ys.length = 16 + 8 * count) (steps : numberAt xs 0 4 = numberAt ys 0 4)
    (kind : numberAt xs 4 4 = numberAt ys 4 4) (rate : numberAt xs 8 8 = numberAt ys 8 8)
    (id : ∀ i < count, numberAt xs (16 + 8 * i) 4 = numberAt ys (16 + 8 * i) 4)
    (endless : ∀ i < count, numberAt xs (16 + 8 * i + 4) 4 = numberAt ys (16 + 8 * i + 4) 4) :
    xs = ys := by
  have same {o n p : Nat} (value : numberAt xs o n = numberAt ys o n)
      (inside : o + n ≤ 16 + 8 * count) (here : o ≤ p ∧ p < o + n) : xs[p]? = ys[p]? :=
    (sameIn_of_numberAt_eq (by omega) (by omega) value).getElem?_eq here.1 here.2
  apply List.ext_getElem?
  intro p
  by_cases header : p < 16
  · rcases (by omega : p < 4 ∨ 4 ≤ p ∧ p < 8 ∨ 8 ≤ p) with first | second | last
    · exact same steps (by omega) (by omega)
    · exact same kind (by omega) (by omega)
    · exact same rate (by omega) (by omega)
  · by_cases record : (p - 16) / 8 < count
    · by_cases first : (p - 16) % 8 < 4
      · exact same (id _ record) (by omega) (by omega)
      · exact same (endless _ record) (by omega) (by omega)
    · rw [List.getElem?_eq_none (by omega), List.getElem?_eq_none (by omega)]

section
variable {bytes : List UInt8} (h : Complete bytes)
include h

theorem length_announced :
    (bytes.take (16 + 8 * numberAt bytes 0 4)).length = 16 + 8 * numberAt bytes 0 4 :=
  List.length_take_of_le h.2

theorem flags_inside : ∀ p ∈ flagPlaces (numberAt bytes 0 4),
    p + (flagBytes (numberAt bytes p 4 != 0)).length ≤
      (bytes.take (16 + 8 * numberAt bytes 0 4)).length := by
  intro p hp
  rw [length_announced h, length_flagBytes]
  rcases mem_flagPlaces.mp hp with rfl | ⟨i, hi, rfl⟩ <;> omega

theorem length_normalized : (normalized bytes).length = 16 + 8 * numberAt bytes 0 4 :=
  (StepWord.length_overwriteAll (flags_inside h)).trans (length_announced h)

/-- A flag says whether its word is zero. -/
theorem numberAt_normalized_flag {p : Nat} (hp : p ∈ flagPlaces (numberAt bytes 0 4)) :
    numberAt (normalized bytes) p 4 = if numberAt bytes p 4 != 0 then 1 else 0 := by
  have apart : (flagPlaces (numberAt bytes 0 4)).Pairwise
      (StepWord.Apart id fun p => flagBytes (numberAt bytes p 4 != 0)) := by
    simp only [flagPlaces, List.pairwise_cons, List.pairwise_map, StepWord.Apart, length_flagBytes,
      id]
    refine ⟨?_, List.pairwise_lt_range.imp fun before => by omega⟩
    intro p hp
    obtain ⟨i, _, rfl⟩ := List.mem_map.mp hp
    omega
  have written := StepWord.slice_overwriteAll_of_mem (flags_inside h) hp apart
  rw [length_flagBytes] at written
  exact (congrArg leValue written).trans (leValue_flagBytes _)

/-- Everything but the flags is as it was. -/
theorem numberAt_normalized {p n : Nat} (inside : p + n ≤ 16 + 8 * numberAt bytes 0 4)
    (apart : ∀ q ∈ flagPlaces (numberAt bytes 0 4), p + n ≤ q ∨ q + 4 ≤ p) :
    numberAt (normalized bytes) p n = numberAt bytes p n := by
  have same := StepWord.slice_overwriteAll_of_apart (flags_inside h) (p := p) (n := n) apart
  exact (congrArg leValue same).trans (sameIn_take inside).numberAt_eq

theorem numberAt_normalized_id {i : Nat} (hi : i < numberAt bytes 0 4) :
    numberAt (normalized bytes) (16 + 8 * i) 4 = numberAt bytes (16 + 8 * i) 4 := by
  apply numberAt_normalized h (by omega)
  intro q hq
  rcases mem_flagPlaces.mp hq with rfl | ⟨j, _, rfl⟩ <;> omega

theorem bytes_ofBytes : (ofBytes bytes).bytes = normalized bytes := by
  have header {p n : Nat} (inside : p + n ≤ 4 ∨ 8 ≤ p ∧ p + n ≤ 16) :
      numberAt (normalized bytes) p n = numberAt bytes p n := by
    apply numberAt_normalized h (by omega)
    intro q hq
    rcases mem_flagPlaces.mp hq with rfl | ⟨i, _, rfl⟩ <;> omega
  apply eq_of_words ((ofBytes bytes).length_bytes.trans (by rw [length_steps_ofBytes]))
    (length_normalized h)
  · rw [numberAt_count, length_steps_ofBytes, header (by decide)]
    exact Nat.mod_eq_of_lt (numberAt_lt bytes 0 4)
  · rw [numberAt_kind, numberAt_normalized_flag h (mem_flagPlaces.mpr (.inl rfl))]
    rfl
  · rw [numberAt_rate, header (by decide)]
    exact Nat.mod_eq_of_lt (numberAt_lt bytes 8 8)
  · intro i hi
    rw [numberAt_id _ (by rwa [length_steps_ofBytes]), getElem_steps_ofBytes,
      numberAt_normalized_id h hi]
    exact Nat.mod_eq_of_lt (numberAt_lt bytes (16 + 8 * i) 4)
  · intro i hi
    rw [numberAt_endless _ (by rwa [length_steps_ofBytes]), getElem_steps_ofBytes,
      numberAt_normalized_flag h (mem_flagPlaces.mpr (.inr ⟨i, hi, rfl⟩))]

end

/-- A descriptor of fewer than `2 ^ 32` steps is read from its bytes, with any bytes behind them.
Any bytes are read exactly if the header and the announced records are there; writing what has
been read gives these back, with one for every flag that is not zero. -/
theorem parses_what_is_written :
    (∀ d : Descriptor, d.steps.length < 2 ^ 32 → ∀ rest, parse (d.bytes ++ rest) = .ok d) ∧
    ∀ bytes,
      ((∃ d, parse bytes = .ok d) ↔
        16 ≤ bytes.length ∧ 16 + 8 * numberAt bytes 0 4 ≤ bytes.length) ∧
      (¬(16 ≤ bytes.length ∧ 16 + 8 * numberAt bytes 0 4 ≤ bytes.length) →
        ∃ cause, parse bytes = .error (.malformed cause)) ∧
      ∀ d, parse bytes = .ok d → d.bytes = normalized bytes := by
  constructor
  · intro d count rest
    have said := ofBytes_append d count rest
    have complete : Complete (d.bytes ++ rest) := by
      have announced := length_steps_ofBytes (d.bytes ++ rest)
      rw [said] at announced
      rw [Complete, ← announced, List.length_append, d.length_bytes]
      omega
    rw [(parse_yieldsIff _).ok complete, said]
  · intro bytes
    have verdict := parse_yieldsIff bytes
    refine ⟨verdict.exists_iff, verdict.exists_malformed, ?_⟩
    intro d found
    obtain ⟨complete, rfl⟩ := verdict.eq_ok_iff.mp found
    exact bytes_ofBytes complete

/-- The flags of two steps are 3 and 0; one byte follows, and without the last word bytes are
missing. The rate is undefined and has an unusual pattern. -/
theorem parses_what_is_written_undefinedRate :
    let rate : List UInt8 := [1, 0, 0, 0, 0, 0, 248, 127]
    let first : List UInt8 := [2, 0, 0, 0] ++ [0, 2, 0, 0] ++ rate ++ [7, 0, 0, 0] ++ [3, 0, 0, 0]
    let written : List UInt8 :=
      [2, 0, 0, 0] ++ [1, 0, 0, 0] ++ rate ++ [7, 0, 0, 0] ++ [1, 0, 0, 0]
    let last : List UInt8 := [4, 0, 0, 0] ++ [0, 0, 0, 0]
    let d : Descriptor := ⟨true, 0x7FF8000000000001, [⟨7, true⟩, ⟨4, false⟩]⟩
    parse (d.bytes ++ [9]) = .ok d ∧
    (∃ found, parse (first ++ last ++ [9]) = .ok found ∧ found.bytes = written ++ last) ∧
    ∃ cause, parse (first ++ [4, 0, 0, 0]) = .error (.malformed cause) := by
  intro rate first written last d
  obtain ⟨reads, exact⟩ := parses_what_is_written
  obtain ⟨found, parsed⟩ := (exact (first ++ last ++ [9])).1.mpr (by decide)
  have same := (exact (first ++ last ++ [9])).2.2 found parsed
  have flags : normalized (first ++ last ++ [9]) = written ++ last := by decide
  exact ⟨reads d (by decide) [9], ⟨found, parsed, same.trans flags⟩,
    (exact (first ++ [4, 0, 0, 0])).2.1 (by decide)⟩

end WaveSequencer.Descriptor
