import WaveSequencer.Proofs.Containers.InsertionOrder
import WaveSequencer.Proofs.SortedMap.Acceptance

/-!
Containers after calls of which any may be refused. A call that is refused leaves no trace, and one
that is accepted inserts an entry. Main statement: a container is filled just as its bounded map is
by the insertions that are asked for, so that all entries are ascending, few and of the kind asked
for.
-/
namespace WaveSequencer

namespace BoundedMap
variable {κ α : Type} [Ord κ]

/-- What holds of a map of this capacity that only gets entries of this kind. -/
structure Filled (m : BoundedMap κ α) (limit : Nat) (kind : κ × α → Prop) : Prop where
  ascending : m.entries.Ascending
  capacity : m.capacity = limit
  room : m.size ≤ limit
  entries : ∀ e ∈ m.toList, kind e

theorem accepted_sublist (m : BoundedMap κ α) (calls : List (κ × α)) :
    (m.accepted calls).Sublist calls := by
  induction calls generalizing m with
  | nil => exact .slnil
  | cons e rest ih =>
    rw [accepted]
    split
    · exact (ih _).cons_cons e
    · exact (ih m).cons e

theorem filled_afterInserts [Std.LawfulEqOrd κ] [Std.TransOrd κ] {kind : κ × α → Prop}
    {calls : List (κ × α)} (h : ∀ e ∈ calls, kind e) (limit : Nat) :
    ((empty limit).afterInserts calls).Filled limit kind := by
  obtain ⟨holds, kept⟩ := (Holds.empty limit).afterInserts calls
  constructor
  · exact holds.ascending
  · exact kept
  · exact Nat.le_trans holds.room (Nat.le_of_eq kept)
  · intro e he
    exact h e ((accepted_sublist _ calls).subset (holds.perm.mem_iff.mp he))

end BoundedMap

namespace InsertsInto
variable {σ γ κ α : Type} [Ord κ] {add : σ → γ → Except Fault σ}
  {container : BoundedMap κ α → σ} {admits : γ → Prop} [DecidablePred admits]
  {entry : γ → κ × α}

theorem afterCall_eq (h : InsertsInto add container admits entry) (m : BoundedMap κ α) (c : γ) :
    afterCall add (container m) c =
      container (if admits c then m.afterInsert (entry c) else m) := by
  cases called : add (container m) c with
  | ok t =>
    obtain ⟨admitted, n, inserted, rfl⟩ := (h.add_eq_ok_iff m c t).mp called
    rw [afterCall_of_ok called, if_pos admitted, BoundedMap.afterInsert_of_ok inserted]
  | error fault =>
    rw [afterCall_of_error called]
    by_cases admitted : admits c
    · rw [if_pos admitted]
      cases inserted : m.insert (entry c).1 (entry c).2 with
      | ok n =>
        rw [(h.add_eq_ok_iff m c _).mpr ⟨admitted, n, inserted, rfl⟩] at called
        cases called
      | error cause => rw [BoundedMap.afterInsert_of_error inserted]
    · rw [if_neg admitted]

/-- A container is filled as its map is. -/
theorem afterCalls_eq (h : InsertsInto add container admits entry) (m : BoundedMap κ α)
    (calls : List γ) : afterCalls add (container m) calls =
      container (m.afterInserts ((calls.filter admits).map entry)) := by
  induction calls generalizing m with
  | nil => rfl
  | cons c rest ih =>
    rw [afterCalls, List.foldl_cons, h.afterCall_eq, List.filter_cons]
    by_cases admitted : admits c
    · rw [if_pos admitted, if_pos (decide_eq_true admitted)]
      exact ih _
    · rw [if_neg admitted, if_neg (mt of_decide_eq_true admitted)]
      exact ih m

variable [Std.LawfulEqOrd κ] [Std.TransOrd κ] {calls : List γ}

/-- Only what is admitted gets into the map. -/
theorem exists_filled_of_admits (h : InsertsInto add container admits entry)
    (kind : κ × α → Prop) (hc : ∀ c ∈ calls, admits c → kind (entry c)) (limit : Nat) :
    ∃ m, afterCalls add (container (.empty limit)) calls = container m ∧
      m.Filled limit kind := by
  refine ⟨_, h.afterCalls_eq _ calls, BoundedMap.filled_afterInserts ?_ limit⟩
  intro e he
  obtain ⟨c, kept, rfl⟩ := List.mem_map.mp he
  obtain ⟨called, admitted⟩ := List.mem_filter.mp kept
  exact hc c called (of_decide_eq_true admitted)

theorem exists_filled (h : InsertsInto add container admits entry) (kind : κ × α → Prop)
    (hc : ∀ c ∈ calls, kind (entry c)) (limit : Nat) :
    ∃ m, afterCalls add (container (.empty limit)) calls = container m ∧
      m.Filled limit kind :=
  h.exists_filled_of_admits kind (fun c called _ => hc c called) limit

end InsertsInto
end WaveSequencer
