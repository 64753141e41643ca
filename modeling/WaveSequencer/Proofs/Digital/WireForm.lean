import WaveSequencer.Proofs.Containers.Calls
import WaveSequencer.Proofs.Wire.Scan

/-!
Reading the wire form of digital outputs. Steps and the patterns of a step are counted, so that a
reader needs nothing but the counts. Main statement: reading gives all of a sequence back, so that
no two sequences have the same bytes, nor bytes of which one begin with the other.
-/
namespace WaveSequencer
open Numeric Wire

/-- What a pattern is checked for before it is appended. -/
abbrev DigitalEntry.IsPlayable (e : DigitalEntry) : Prop :=
  0.0 < e.duration ∧ e.duration ≤ Limits.digitalDuration

namespace DigitalVector

def appendCall (v : DigitalVector) (e : DigitalEntry) : Except Fault DigitalVector :=
  v.append e.value e.duration

/-- Created with this delay and then asked to append these patterns, of which it may refuse any. -/
def CameFrom (v : DigitalVector) (delay : Float) (calls : List DigitalEntry) : Prop :=
  ∃ start, create delay = .ok start ∧ v = afterCalls appendCall start calls

def Reachable (v : DigitalVector) : Prop := ∃ delay calls, v.CameFrom delay calls

theorem ext {v w : DigitalVector} (delay : v.delay = w.delay) (entries : v.entries = w.entries) :
    v = w := by
  obtain ⟨_, _, _⟩ := v
  obtain ⟨_, _, _⟩ := w
  subst delay entries
  rfl

theorem afterCall_appendCall (v : DigitalVector) (e : DigitalEntry) :
    afterCall appendCall v e =
      if e.IsPlayable ∧ v.entries.length < Limits.digitalEntries then
        { v with entries := v.entries ++ [e] }
      else v := by
  by_cases playable : e.IsPlayable
  · by_cases room : v.entries.length < Limits.digitalEntries
    · rw [if_pos ⟨playable, room⟩]
      apply afterCall_of_ok
      rw [appendCall, append, if_neg (not_not.mpr playable), if_neg (Nat.not_le.mpr room)]
    · rw [if_neg fun h => room h.2]
      apply afterCall_of_error
      rw [appendCall, append, if_neg (not_not.mpr playable), if_pos (Nat.not_lt.mp room)]
  · rw [if_neg fun h => playable h.1]
    apply afterCall_of_error
    rw [appendCall, append, if_pos playable]

theorem delay_afterCalls (v : DigitalVector) (calls : List DigitalEntry) :
    (afterCalls appendCall v calls).delay = v.delay := by
  induction calls generalizing v with
  | nil => rfl
  | cons e rest ih =>
    refine (ih _).trans ?_
    rw [afterCall_appendCall]
    split <;> rfl

/-- The patterns that are kept are the first playable ones, in the order of the calls. -/
theorem entries_afterCalls {v : DigitalVector} (room : v.entries.length ≤ Limits.digitalEntries)
    (calls : List DigitalEntry) : (afterCalls appendCall v calls).entries =
      (v.entries ++ calls.filter (·.IsPlayable)).take Limits.digitalEntries := by
  induction calls generalizing v with
  | nil => rw [List.filter_nil, List.append_nil, List.take_of_length_le room]; rfl
  | cons e rest ih =>
    rw [afterCalls, List.foldl_cons, afterCall_appendCall]
    by_cases playable : e.IsPlayable
    · rw [List.filter_cons, if_pos (decide_eq_true playable)]
      by_cases small : v.entries.length < Limits.digitalEntries
      · have grown : (v.entries ++ [e]).length ≤ Limits.digitalEntries := by
          rw [List.length_append]
          exact small
        have later := ih (v := { v with entries := v.entries ++ [e] }) grown
        rw [List.append_assoc] at later
        rw [if_pos ⟨playable, small⟩]
        exact later
      · -- The vector is full, and nothing that follows is kept.
        rw [if_neg fun h => small h.2, List.take_append_of_le_length (Nat.not_lt.mp small)]
        refine (ih room).trans ?_
        exact List.take_append_of_le_length (Nat.not_lt.mp small)
    · rw [List.filter_cons, if_neg (mt of_decide_eq_true playable), if_neg fun h => playable h.1]
      exact ih room

theorem CameFrom.contents {v : DigitalVector} {delay : Float} {calls : List DigitalEntry}
    (h : v.CameFrom delay calls) : v.delay = delay ∧
      v.entries = (calls.filter (·.IsPlayable)).take Limits.digitalEntries := by
  obtain ⟨start, created, rfl⟩ := h
  rw [create] at created
  split at created
  · obtain rfl := Except.ok.inj created
    exact ⟨delay_afterCalls _ calls, entries_afterCalls (Nat.zero_le _) calls⟩
  · cases created

theorem Reachable.length_entries_le {v : DigitalVector} (h : v.Reachable) :
    v.entries.length ≤ Limits.digitalEntries := by
  obtain ⟨delay, calls, came⟩ := h
  rw [came.contents.2]
  exact List.length_take_le _ _

end DigitalVector

/-- A step with its outputs as it is read from the wire. -/
structure WireOutputs where
  number : UInt32
  delay : Float
  entries : List DigitalEntry

def DigitalEntry.scan : Scan DigitalEntry := do
  let value ← Scan.word
  let duration ← Scan.float
  return ⟨value.toUInt8, duration⟩

def WireOutputs.scan : Scan WireOutputs := do
  let number ← Scan.word
  let delay ← Scan.float
  let count ← Scan.count
  let entries ← DigitalEntry.scan.times count
  return ⟨number, delay, entries⟩

def DigitalSequence.scan : Scan (List WireOutputs) := do
  Scan.expected (tagBytes ['D', 'S', 'E', 'Q'])
  let count ← Scan.count
  WireOutputs.scan.times count

theorem DigitalEntry.reads_entryBytes (e : DigitalEntry) :
    Reads scan (DigitalVector.entryBytes e) e := by
  have whole : Reads scan (DigitalVector.entryBytes e) ⟨e.value.toUInt32.toUInt8, e.duration⟩ :=
    (Reads.word _).bind ((Reads.float e.duration).result (f := DigitalEntry.mk _))
  rwa [UInt8.toUInt8_toUInt32] at whole

namespace DigitalSequence

/-- From an empty sequence, after calls to add vectors, of which any may be refused. -/
def Reachable (s : DigitalSequence) : Prop :=
  ∃ calls, (∀ c ∈ calls, c.2.Reachable) ∧ s = afterCalls addCall empty calls

theorem Reachable.filled {s : DigitalSequence} (h : s.Reachable) :
    s.steps.Filled Limits.steps (·.2.Reachable) := by
  obtain ⟨calls, vectors, rfl⟩ := h
  obtain ⟨m, same, filled⟩ := insertsInto.exists_filled (·.2.Reachable) vectors Limits.steps
  rw [empty, same]
  exact filled

def wireStep (e : UInt32 × DigitalVector) : WireOutputs := ⟨e.1, e.2.delay, e.2.entries⟩

/-- The sequence as it is read from the wire. -/
def wireForm (s : DigitalSequence) : List WireOutputs := s.steps.toList.map wireStep

theorem wireStep_injective : Function.Injective wireStep := by
  intro e e' same
  obtain ⟨number, delay, entries⟩ := WireOutputs.mk.inj same
  exact Prod.ext number (DigitalVector.ext delay entries)

theorem reads_stepBytes {e : UInt32 × DigitalVector}
    (fits : e.2.entries.length ≤ Limits.digitalEntries) :
    Reads WireOutputs.scan (stepBytes e) (wireStep e) := by
  have entries : Reads (DigitalEntry.scan.times e.2.entries.length)
      (e.2.entries.flatMap DigitalVector.entryBytes) e.2.entries :=
    Reads.times_self fun p _ => p.reads_entryBytes
  have count := Reads.count (Nat.lt_of_le_of_lt fits (by decide))
  simp only [stepBytes, DigitalVector.bytes, List.append_assoc]
  exact (Reads.word e.1).bind <| (Reads.float e.2.delay).bind <| count.bind <|
    entries.result (f := WireOutputs.mk e.1 e.2.delay)

theorem reads_bytes {s : DigitalSequence} (h : s.Reachable) : Reads scan s.bytes s.wireForm := by
  have filled := h.filled
  have steps : Reads (WireOutputs.scan.times s.steps.size) (s.steps.toList.flatMap stepBytes)
      s.wireForm := by
    apply Reads.times
    intro e he
    exact reads_stepBytes (filled.entries e he).length_entries_le
  have count := Reads.count (Nat.lt_of_le_of_lt filled.room (by decide))
  simp only [bytes, List.append_assoc]
  exact (Reads.expected _).bind (count.bind steps)

theorem eq_of_wireForm_eq {s t : DigitalSequence} (hs : s.Reachable) (ht : t.Reachable)
    (h : s.wireForm = t.wireForm) : s = t := by
  have entries : s.steps.entries = t.steps.entries :=
    congrArg SortedMap.mk (wireStep_injective.list_map h)
  have capacity := hs.filled.capacity.trans ht.filled.capacity.symm
  obtain ⟨⟨_, _⟩⟩ := s
  obtain ⟨⟨_, _⟩⟩ := t
  subst entries capacity
  rfl

@[simp] theorem length_stepBytes (e : UInt32 × DigitalVector) :
    (stepBytes e).length = 16 + 12 * e.2.entries.length := by
  rw [stepBytes, List.length_append, length_wordBytes, DigitalVector.length_bytes]
  omega

theorem length_bytes (s : DigitalSequence) :
    s.bytes.length = 8 + (s.steps.toList.map fun e => 16 + 12 * e.2.entries.length).sum := by
  simp only [bytes, List.length_append, length_countBytes, List.length_flatMap, length_stepBytes]
  rfl

theorem bytes_eq {s : DigitalSequence} (h : s.Reachable) : s.bytes =
    tagBytes ['D', 'S', 'E', 'Q'] ++ leBytes 4 s.steps.size ++ s.steps.toList.flatMap fun e =>
      wordBytes e.1 ++ floatBytes e.2.delay ++ leBytes 4 e.2.entries.length ++
        e.2.entries.flatMap fun p => wordBytes p.value.toUInt32 ++ floatBytes p.duration := by
  have filled := h.filled
  rw [bytes, countBytes_eq (Nat.lt_of_le_of_lt filled.room (by decide))]
  congr 1
  apply List.flatMap_congr
  intro e he
  have few := (filled.entries e he).length_entries_le
  rw [stepBytes, DigitalVector.bytes, countBytes_eq (Nat.lt_of_le_of_lt few (by decide))]
  simp only [List.append_assoc]
  rfl

/-- Reading the bytes of a sequence takes all of them, whatever follows, and gives back every step
with the patterns that were appended: different sequences have different bytes, and no sequence's
bytes are only the beginning of another one's. -/
theorem outputs_uniquely_decodable {s t : DigitalSequence} (hs : s.Reachable) (ht : t.Reachable) :
    s.steps.keys.Pairwise (· < ·) ∧
    (∀ e ∈ s.steps.toList, ∃ calls, e.2.CameFrom e.2.delay calls ∧
      e.2.entries = (calls.filter (·.IsPlayable)).take Limits.digitalEntries) ∧
    (s.bytes = tagBytes ['D', 'S', 'E', 'Q'] ++ leBytes 4 s.steps.size ++
      s.steps.toList.flatMap fun e =>
        wordBytes e.1 ++ floatBytes e.2.delay ++ leBytes 4 e.2.entries.length ++
          e.2.entries.flatMap fun p => wordBytes p.value.toUInt32 ++ floatBytes p.duration) ∧
    s.bytes.length = 8 + (s.steps.toList.map fun e => 16 + 12 * e.2.entries.length).sum ∧
    (∀ rest, scan (s.bytes ++ rest) = some (s.wireForm, rest)) ∧
    (s.bytes = t.bytes ↔ s = t) ∧ (s.bytes <+: t.bytes ↔ s.bytes = t.bytes) := by
  have first := reads_bytes hs
  have second := reads_bytes ht
  refine ⟨?_, ?_, bytes_eq hs, length_bytes s, first, ?_, first.begins_iff second⟩
  · exact hs.filled.ascending.imp Std.compare_eq_lt.mp
  · intro e he
    obtain ⟨delay, calls, came⟩ := hs.filled.entries e he
    obtain ⟨rfl, kept⟩ := came.contents
    exact ⟨calls, came, kept⟩
  · constructor
    · intro same
      rw [same] at first
      exact eq_of_wireForm_eq hs ht (first.unique second)
    · intro same
      rw [same]

/-- No patterns yet. -/
def unfilled : DigitalVector := { DigitalVector.low with entries := [] }

/-- Two patterns, between which one is refused, and a later step that comes before. -/
def pulsed : DigitalSequence := afterCalls addCall empty
  [(9, afterCalls DigitalVector.appendCall unfilled [⟨0xA5, 10.0⟩, ⟨1, 0.0⟩, ⟨0, 20.0⟩]),
    (2, unfilled)]

/-- The step that comes first, which is added twice, and no other one. -/
def silent : DigitalSequence := afterCalls addCall empty [(2, unfilled), (2, unfilled)]

theorem outputs_uniquely_decodable_pulsed :
    scan pulsed.bytes = some ([⟨2, 0.0, []⟩, ⟨9, 0.0, [⟨0xA5, 10.0⟩, ⟨0, 20.0⟩]⟩], []) ∧
      ¬silent.bytes <+: pulsed.bytes := by
  have reachable (calls : List DigitalEntry) :
      (afterCalls DigitalVector.appendCall unfilled calls).Reachable := ⟨0.0, calls, _, rfl, rfl⟩
  have hp : pulsed.Reachable := by
    refine ⟨_, ?_, rfl⟩
    simp only [List.forall_mem_cons]
    exact ⟨reachable _, reachable [], nofun⟩
  have hs : silent.Reachable := by
    refine ⟨_, ?_, rfl⟩
    simp only [List.forall_mem_cons]
    exact ⟨reachable [], reachable [], nofun⟩
  obtain ⟨_, _, _, _, read, _⟩ := outputs_uniquely_decodable hp hs
  obtain ⟨_, _, _, _, _, same, begins⟩ := outputs_uniquely_decodable hs hp
  constructor
  · have whole := read []
    rw [List.append_nil] at whole
    exact whole
  · intro h
    exact absurd (same.mp (begins.mp h)) (by decide)

end DigitalSequence
end WaveSequencer
