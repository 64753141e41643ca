import WaveSequencer.Proofs.Containers.Refusals
import WaveSequencer.Proofs.SortedMap.Runs
import WaveSequencer.Proofs.SortedMap.Search

/-!
Calls to insert into a bounded map, of which any may be refused. Main statement: a call is accepted
exactly if no call with its key has been and there is room, and after any calls the map holds what
has been accepted, by ascending key.
-/
namespace WaveSequencer.BoundedMap
variable {κ α : Type} [Ord κ]

def insertCall (m : BoundedMap κ α) (e : κ × α) : Except (InsertFault κ) (BoundedMap κ α) :=
  m.insert e.1 e.2

/-- The map after a call, as it was if the call is refused. -/
def afterInsert (m : BoundedMap κ α) (e : κ × α) : BoundedMap κ α := afterCall insertCall m e

def afterInserts (m : BoundedMap κ α) (calls : List (κ × α)) : BoundedMap κ α :=
  afterCalls insertCall m calls

/-- Those calls that are accepted. -/
def accepted (m : BoundedMap κ α) : List (κ × α) → List (κ × α)
  | [] => []
  | e :: rest => match m.insert e.1 e.2 with
    | .ok n => e :: n.accepted rest
    | .error _ => m.accepted rest

/-- The map lists these entries by ascending key, and no others. -/
structure Holds (m : BoundedMap κ α) (entries : List (κ × α)) : Prop where
  ascending : m.keys.Pairwise (compare · · = .lt)
  perm : m.toList.Perm entries
  room : m.size ≤ m.capacity

/-- How a map that has accepted these calls answers to the next one. -/
structure Answers (m : BoundedMap κ α) (accepted : List (κ × α)) (capacity : Nat) (e : κ × α) :
    Prop where
  ok_iff : (∃ n, m.insert e.1 e.2 = .ok n) ↔
    e.1 ∉ accepted.map (·.1) ∧ accepted.length < capacity
  duplicate : e.1 ∈ accepted.map (·.1) → m.insert e.1 e.2 = .error (.duplicate e.1)
  full : e.1 ∉ accepted.map (·.1) → capacity ≤ accepted.length →
    m.insert e.1 e.2 = .error (.full capacity)
  refused : ∀ cause, m.insert e.1 e.2 = .error cause → m.afterInsert e = m
  placed : ∀ n, m.insert e.1 e.2 = .ok n →
    ∃ i, m.entries.search e.1 = .error i ∧ n.toList = m.toList.insertIdx i e

section
variable {m n : BoundedMap κ α} {e : κ × α}

theorem afterInsert_of_ok (h : m.insert e.1 e.2 = .ok n) : m.afterInsert e = n :=
  afterCall_of_ok h

theorem afterInsert_of_error {cause : InsertFault κ} (h : m.insert e.1 e.2 = .error cause) :
    m.afterInsert e = m := afterCall_of_error h

variable [Std.LawfulEqOrd κ]

theorem insert_of_mem (taken : e.1 ∈ m.keys) : m.insert e.1 e.2 = .error (.duplicate e.1) :=
  if_pos (SortedMap.contains_eq_true_iff.mpr taken)

theorem insert_of_full (new : e.1 ∉ m.keys) (full : m.capacity ≤ m.size) :
    m.insert e.1 e.2 = .error (.full m.capacity) := by
  rw [insert, if_neg (mt SortedMap.contains_eq_true_iff.mp new), if_pos full]

end

namespace Holds
variable {m : BoundedMap κ α} {entries : List (κ × α)}

theorem empty (capacity : Nat) : (empty capacity : BoundedMap κ α).Holds [] where
  ascending := SortedMap.ascending_empty
  perm := List.Perm.nil
  room := Nat.zero_le capacity

theorem keys_perm (h : m.Holds entries) : m.keys.Perm (entries.map (·.1)) :=
  List.Perm.map Prod.fst h.perm

theorem mem_keys_iff (h : m.Holds entries) {k : κ} : k ∈ m.keys ↔ k ∈ entries.map (·.1) :=
  h.keys_perm.mem_iff

theorem size_eq (h : m.Holds entries) : m.size = entries.length := h.perm.length_eq

variable [Std.LawfulEqOrd κ]

theorem nodup (h : m.Holds entries) : (entries.map (·.1)).Nodup :=
  h.keys_perm.nodup_iff.mp (SortedMap.Ascending.nodup h.ascending)

theorem get?_eq_none_iff (h : m.Holds entries) {k : κ} :
    m.get? k = none ↔ k ∉ entries.map (·.1) := by
  rw [← h.mem_keys_iff]
  exact SortedMap.get?_eq_none_iff

variable [Std.TransOrd κ] {e : κ × α}

theorem get?_eq_some_iff (h : m.Holds entries) {k : κ} {a : α} :
    m.get? k = some a ↔ (k, a) ∈ entries := by
  rw [← h.perm.mem_iff]
  exact (SortedMap.Ascending.mem_toList_iff h.ascending (e := (k, a))).symm

/-- An accepted entry stands where the search for its key has ended. -/
theorem toList_withEntry (h : m.Holds entries) (new : e.1 ∉ m.keys) :
    ∃ i ≤ m.toList.length, m.entries.search e.1 = .error i ∧
      (m.withEntry e).toList = m.toList.insertIdx i e := by
  obtain ⟨i, inside, place⟩ := SortedMap.Ascending.search_eq_error h.ascending new
  exact ⟨i, inside, place, SortedMap.Ascending.insert_of_search_error h.ascending place e.2⟩

theorem withEntry (h : m.Holds entries) (new : e.1 ∉ m.keys) (small : m.size < m.capacity) :
    (m.withEntry e).Holds (entries ++ [e]) where
  ascending := SortedMap.Ascending.insert h.ascending e.1 e.2
  perm := by
    obtain ⟨i, inside, _, listed⟩ := h.toList_withEntry new
    have bigger : (m.withEntry e).toList.Perm (e :: m.toList) :=
      listed ▸ List.perm_insertIdx e m.toList inside
    exact bigger.trans ((h.perm.cons e).trans (List.perm_append_singleton e entries).symm)
  room := size_withEntry new ▸ small

/-- What has been accepted decides about the next call. -/
theorem answers (h : m.Holds entries) (e : κ × α) : m.Answers entries m.capacity e where
  ok_iff := by
    rw [← h.mem_keys_iff, ← h.size_eq]
    constructor
    · rintro ⟨n, inserted⟩
      obtain ⟨new, small, _⟩ := insert_eq_ok_iff_not_mem.mp inserted
      exact ⟨new, small⟩
    · rintro ⟨new, small⟩
      exact ⟨_, insert_eq_ok_iff_not_mem.mpr ⟨new, small, rfl⟩⟩
  duplicate taken := insert_of_mem (h.mem_keys_iff.mpr taken)
  full new full := insert_of_full (mt h.mem_keys_iff.mp new) (h.size_eq ▸ full)
  refused _ refused := afterInsert_of_error refused
  placed n inserted := by
    obtain ⟨new, _, rfl⟩ := insert_eq_ok_iff_not_mem.mp inserted
    obtain ⟨i, _, place, listed⟩ := h.toList_withEntry new
    exact ⟨i, place, listed⟩

/-- Every call either brings in its entry or changes nothing. -/
theorem afterInserts (h : m.Holds entries) (calls : List (κ × α)) :
    (m.afterInserts calls).Holds (entries ++ m.accepted calls) ∧
      (m.afterInserts calls).capacity = m.capacity := by
  induction calls generalizing m entries with
  | nil =>
    rw [accepted, List.append_nil]
    exact ⟨h, rfl⟩
  | cons e rest ih =>
    change ((m.afterInsert e).afterInserts rest).Holds _ ∧
      ((m.afterInsert e).afterInserts rest).capacity = _
    rw [accepted]
    cases called : m.insert e.1 e.2 with
    | ok n =>
      obtain ⟨new, small, rfl⟩ := insert_eq_ok_iff_not_mem.mp called
      have later := ih (h.withEntry new small)
      rw [List.append_assoc] at later
      rw [afterInsert_of_ok called]
      exact later
    | error cause =>
      rw [afterInsert_of_error called]
      exact ih h

end Holds

variable [Std.LawfulEqOrd κ] [Std.TransOrd κ]

/-- Whatever calls have been made on an empty map, the next one is accepted exactly if its key has
not been accepted and there is room, and the map holds exactly what has been accepted. -/
theorem holds_exactly_accepted (capacity : Nat) (calls : List (κ × α)) :
    (∀ e, ((empty capacity).afterInserts calls).Answers ((empty capacity).accepted calls)
      capacity e) ∧
    ((empty capacity).afterInserts calls).Holds ((empty capacity).accepted calls) ∧
    ((empty capacity).afterInserts calls).size = ((empty capacity).accepted calls).length ∧
    ((empty capacity).accepted calls).length ≤ capacity ∧
    (((empty capacity).accepted calls).map (·.1)).Nodup ∧
    (∀ k a, ((empty capacity).afterInserts calls).get? k = some a ↔
      (k, a) ∈ (empty capacity).accepted calls) ∧
    ∀ k, ((empty capacity).afterInserts calls).get? k = none ↔
      k ∉ ((empty capacity).accepted calls).map (·.1) := by
  obtain ⟨holds, kept⟩ := (Holds.empty capacity).afterInserts calls
  refine ⟨?_, holds, holds.size_eq, ?_, holds.nodup, ?_, ?_⟩
  · intro e
    have answers := holds.answers e
    rwa [kept] at answers
  · have room := holds.room
    rwa [holds.size_eq, kept] at room
  · exact fun _ _ => holds.get?_eq_some_iff
  · exact fun _ => holds.get?_eq_none_iff

/-- Two numbers are accepted; one comes twice, and for another one there is no room. -/
def fourCalls : List (UInt32 × Char) := [(5, 'a'), (5, 'b'), (1, 'c'), (0, 'd')]

theorem holds_exactly_accepted_fourCalls :
    (empty 2).accepted fourCalls = [(5, 'a'), (1, 'c')] ∧
      ((empty 2).afterInserts fourCalls).Holds [(5, 'a'), (1, 'c')] ∧
      ((empty 2).afterInserts fourCalls).Answers [(5, 'a'), (1, 'c')] 2 (5, 'e') := by
  obtain ⟨answers, holds, _⟩ := holds_exactly_accepted 2 fourCalls
  exact ⟨by decide, holds, answers (5, 'e')⟩

end WaveSequencer.BoundedMap
