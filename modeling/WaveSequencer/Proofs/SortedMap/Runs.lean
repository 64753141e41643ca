import WaveSequencer.Proofs.SortedMap.Order
import WaveSequencer.SortedMap.Bounded

/-!
Entries inserted into a bounded map one after the other. Main statements: all of them are accepted
exactly if no key is taken or comes twice and there is room for all, which does not depend on
their order, and then neither does the map.
-/
namespace WaveSequencer

/-- Two computations in a row succeed exactly if both do. -/
theorem except_bind_eq_ok_iff {ε α β : Type} {x : Except ε α} {f : α → Except ε β} {b : β} :
    x >>= f = .ok b ↔ ∃ a, x = .ok a ∧ f a = .ok b := by
  cases x with
  | error cause =>
    constructor
    · intro h
      cases h
    · rintro ⟨a, h, _⟩
      cases h
  | ok a =>
    constructor
    · intro h
      exact ⟨a, rfl, h⟩
    · rintro ⟨a', h, hf⟩
      rwa [← Except.ok.inj h] at hf

namespace SortedMap
variable {κ α : Type} [Ord κ] [Std.LawfulEqOrd κ]

theorem size_insert_of_not_mem {m : SortedMap κ α} {k : κ} (h : k ∉ m.keys) (a : α) :
    (m.insert k a).size = m.size + 1 := by
  obtain ⟨entries⟩ := m
  simp only [size, insert, keys] at h ⊢
  induction entries with
  | nil => rfl
  | cons e rest ih =>
    obtain ⟨other, later⟩ := not_or.mp (mt List.mem_cons.mpr h)
    rw [insertEntry]
    split
    · rfl
    · next same => exact absurd (Std.LawfulEqCmp.eq_of_compare same) other
    · rw [List.length_cons, ih later, List.length_cons]

end SortedMap

namespace BoundedMap
variable {κ α : Type} [Ord κ]

/-- The map with one more entry, whether there is room for it or not. -/
def withEntry (m : BoundedMap κ α) (e : κ × α) : BoundedMap κ α :=
  { m with entries := m.entries.insert e.1 e.2 }

def insertAll (m : BoundedMap κ α) (entries : List (κ × α)) :
    Except (InsertFault κ) (BoundedMap κ α) :=
  entries.foldlM (fun m e => m.insert e.1 e.2) m

variable [Std.LawfulEqOrd κ] {m n : BoundedMap κ α} {e : κ × α}

theorem insert_eq_ok_iff_not_mem : m.insert e.1 e.2 = .ok n ↔
    e.1 ∉ m.keys ∧ m.size < m.capacity ∧ n = m.withEntry e := by
  have free : m.entries.contains e.1 = false ↔ e.1 ∉ m.keys := by
    rw [Bool.eq_false_iff, ne_eq, SortedMap.contains_eq_true_iff]
    rfl
  rw [insert_eq_ok_iff, free]
  rfl

theorem size_withEntry (h : e.1 ∉ m.keys) : (m.withEntry e).size = m.size + 1 :=
  SortedMap.size_insert_of_not_mem h e.2

variable [Std.TransOrd κ] {entries : List (κ × α)}

theorem mem_keys_withEntry {k : κ} : k ∈ (m.withEntry e).keys ↔ k = e.1 ∨ k ∈ m.keys :=
  SortedMap.mem_keys_insert

/-- One entry is accepted and the later ones do not collide with it exactly if they do not collide
with each other. -/
theorem insertAll_eq_ok_iff (room : m.size ≤ m.capacity) : m.insertAll entries = .ok n ↔
    (entries.map (·.1)).Nodup ∧ (∀ e ∈ entries, e.1 ∉ m.keys) ∧
      m.size + entries.length ≤ m.capacity ∧ n = entries.foldl withEntry m := by
  induction entries generalizing m with
  | nil =>
    constructor
    · intro h
      exact ⟨List.nodup_nil, nofun, room, (Except.ok.inj h).symm⟩
    · rintro ⟨_, _, _, rfl⟩
      rfl
  | cons e rest ih =>
    -- Once the first entry is in, the map has grown, and the claim for the others is about it.
    have later (new : e.1 ∉ m.keys) (small : m.size < m.capacity) :=
      ih (size_withEntry new ▸ small : (m.withEntry e).size ≤ (m.withEntry e).capacity)
    rw [insertAll, List.foldlM_cons, except_bind_eq_ok_iff, List.map_cons, List.nodup_cons,
      List.length_cons, List.foldl_cons]
    constructor
    · rintro ⟨_, inserted, done⟩
      obtain ⟨new, small, rfl⟩ := insert_eq_ok_iff_not_mem.mp inserted
      obtain ⟨distinct, fresh, most, rfl⟩ := (later new small).mp done
      rw [size_withEntry new] at most
      refine ⟨⟨?_, distinct⟩, ?_, ?_, rfl⟩
      · intro again
        obtain ⟨e', he', same⟩ := List.mem_map.mp again
        exact fresh e' he' (mem_keys_withEntry.mpr (.inl same))
      · intro e' he'
        rcases List.mem_cons.mp he' with rfl | he'
        · exact new
        · intro old
          exact fresh e' he' (mem_keys_withEntry.mpr (.inr old))
      · exact Nat.add_right_comm _ 1 _ ▸ most
    · rintro ⟨⟨other, distinct⟩, fresh, most, rfl⟩
      have new := fresh e List.mem_cons_self
      have small : m.size < m.capacity := by omega
      refine ⟨_, insert_eq_ok_iff_not_mem.mpr ⟨new, small, rfl⟩,
        (later new small).mpr ⟨distinct, ?_, ?_, rfl⟩⟩
      · intro e' he' old
        rcases mem_keys_withEntry.mp old with same | old
        · exact other (List.mem_map.mpr ⟨e', he', same⟩)
        · exact fresh e' (List.mem_cons_of_mem e he') old
      · rw [size_withEntry new]
        exact Nat.add_right_comm _ _ 1 ▸ most

omit [Std.LawfulEqOrd κ] [Std.TransOrd κ] in
theorem foldl_withEntry (m : BoundedMap κ α) (entries : List (κ × α)) :
    entries.foldl withEntry m =
      ⟨entries.foldl (fun m e => m.insert e.1 e.2) m.entries, m.capacity⟩ := by
  induction entries generalizing m with
  | nil => rfl
  | cons e rest ih => exact ih (m.withEntry e)

/-- Starting from an empty map, all entries are in the map in the end. -/
theorem insertAll_empty_eq_ok_iff {capacity : Nat} :
    (empty capacity).insertAll entries = .ok n ↔ (entries.map (·.1)).Nodup ∧
      entries.length ≤ capacity ∧ n = ⟨.ofList entries, capacity⟩ := by
  have room : (empty capacity : BoundedMap κ α).size ≤ (empty capacity : BoundedMap κ α).capacity :=
    Nat.zero_le capacity
  have start : (empty capacity : BoundedMap κ α).size + entries.length = entries.length :=
    Nat.zero_add _
  rw [insertAll_eq_ok_iff room, start, foldl_withEntry]
  constructor
  · rintro ⟨distinct, _, most, same⟩
    exact ⟨distinct, most, same⟩
  · rintro ⟨distinct, most, same⟩
    exact ⟨distinct, fun e _ => List.not_mem_nil, most, same⟩

theorem insertAll_empty_perm {capacity : Nat} {entries' : List (κ × α)}
    (same : entries.Perm entries') (h : (empty capacity).insertAll entries = .ok n) :
    (empty capacity).insertAll entries' = .ok n := by
  obtain ⟨distinct, most, rfl⟩ := insertAll_empty_eq_ok_iff.mp h
  apply insertAll_empty_eq_ok_iff.mpr
  refine ⟨(same.map (·.1)).nodup_iff.mp distinct, same.length_eq ▸ most, ?_⟩
  rw [SortedMap.ofList_perm same distinct]

end BoundedMap
end WaveSequencer
