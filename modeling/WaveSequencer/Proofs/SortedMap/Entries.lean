import Mathlib.Data.List.Nodup
import WaveSequencer.SortedMap.Lemmas

/-!
What a sorted map holds after the entries of a list have been inserted one after the other: their
keys, and, if no key comes twice, each entry under its key.
-/
namespace WaveSequencer.SortedMap
variable {κ α : Type} [Ord κ] [Std.LawfulEqOrd κ]

theorem contains_eq_true_iff {m : SortedMap κ α} {k : κ} : m.contains k = true ↔ k ∈ m.keys := by
  rw [contains, Option.isSome_iff_ne_none, ne_eq, get?_eq_none_iff, Classical.not_not]

omit [Std.LawfulEqOrd κ] in
theorem length_insertEntry_le (k : κ) (a : α) (entries : List (κ × α)) :
    (insertEntry k a entries).length ≤ entries.length + 1 := by
  induction entries with
  | nil => exact Nat.le_refl 1
  | cons e rest ih =>
    rw [insertEntry]
    split
    · exact Nat.le_refl _
    · exact Nat.le_succ _
    · exact Nat.succ_le_succ ih

/-- Inserting brings in no other entry than the one that is inserted. -/
theorem mem_insertEntry {k : κ} {a : α} {entries : List (κ × α)} {e : κ × α}
    (he : e ∈ insertEntry k a entries) : e = (k, a) ∨ e ∈ entries := by
  induction entries with
  | nil => exact .inl (List.mem_singleton.mp he)
  | cons first rest ih =>
    rw [insertEntry] at he
    split at he
    · exact List.mem_cons.mp he
    · next same =>
      rw [← Std.LawfulEqCmp.eq_of_compare same] at he
      exact (List.mem_cons.mp he).imp_right (List.mem_cons_of_mem _)
    · rcases List.mem_cons.mp he with rfl | later
      · exact .inr List.mem_cons_self
      · exact (ih later).imp_right (List.mem_cons_of_mem _)

omit [Std.LawfulEqOrd κ] in
theorem mapValues_insert {β : Type} (f : α → β) (m : SortedMap κ α) (k : κ) (a : α) :
    (m.insert k a).mapValues f = (m.mapValues f).insert k (f a) := by
  obtain ⟨entries⟩ := m
  simp only [mapValues, insert, mk.injEq]
  induction entries with
  | nil => rfl
  | cons e rest ih =>
    rw [insertEntry, List.map_cons, insertEntry]
    cases compare k e.1 with
    | lt => rfl
    | eq => rfl
    | gt => rw [← ih]; rfl

omit [Std.LawfulEqOrd κ] in
theorem mapValues_ofList {β : Type} (f : α → β) (entries : List (κ × α)) :
    (ofList entries).mapValues f = ofList (entries.map fun e => (e.1, f e.2)) := by
  suffices ∀ m : SortedMap κ α,
      (entries.foldl (fun m e => m.insert e.1 e.2) m).mapValues f =
        (entries.map fun e => (e.1, f e.2)).foldl (fun m e => m.insert e.1 e.2)
          (m.mapValues f) from this _
  induction entries with
  | nil => exact fun _ => rfl
  | cons e rest ih =>
    intro m
    rw [List.foldl_cons, ih, mapValues_insert]
    rfl

theorem Ascending.nodup {m : SortedMap κ α} (h : m.Ascending) : m.keys.Nodup := by
  apply h.imp
  intro j k lt same
  have eq : compare j k = .eq := by rw [same]; exact Std.compare_self
  rw [eq] at lt
  cases lt

variable [Std.TransOrd κ]

theorem get?_insert_self (m : SortedMap κ α) (k : κ) (a : α) :
    (m.insert k a).get? k = some a := by
  rw [get?_insert, if_pos Std.ReflCmp.compare_self]

theorem get?_insert_of_ne (m : SortedMap κ α) {j k : κ} (a : α) (h : j ≠ k) :
    (m.insert k a).get? j = m.get? j := by
  rw [get?_insert, if_neg fun same => h (Std.LawfulEqCmp.eq_of_compare same)]

theorem mem_keys_insert {m : SortedMap κ α} {j k : κ} {a : α} :
    j ∈ (m.insert k a).keys ↔ j = k ∨ j ∈ m.keys := by
  by_cases h : j = k
  · subst h
    simp [← contains_eq_true_iff, contains, get?_insert_self]
  · simp [← contains_eq_true_iff, contains, get?_insert_of_ne m a h, h]

/-- Inserting leaves a key alone that is not among those inserted. -/
theorem get?_foldl_insert_of_not_mem {entries : List (κ × α)} {k : κ}
    (h : k ∉ entries.map (·.1)) (m : SortedMap κ α) :
    (entries.foldl (fun m e => m.insert e.1 e.2) m).get? k = m.get? k := by
  induction entries generalizing m with
  | nil => rfl
  | cons e rest ih =>
    simp only [List.map_cons, List.mem_cons, not_or] at h
    rw [List.foldl_cons, ih h.2, get?_insert_of_ne m e.2 h.1]

theorem get?_ofList_of_mem {entries : List (κ × α)} (h : (entries.map (·.1)).Nodup) {e : κ × α}
    (he : e ∈ entries) : (ofList entries).get? e.1 = some e.2 := by
  suffices ∀ m : SortedMap κ α,
      (entries.foldl (fun m e => m.insert e.1 e.2) m).get? e.1 = some e.2 from this _
  induction entries with
  | nil => cases he
  | cons first rest ih =>
    intro m
    obtain ⟨fresh, distinct⟩ := List.nodup_cons.mp h
    rw [List.foldl_cons]
    rcases List.mem_cons.mp he with rfl | later
    · rw [get?_foldl_insert_of_not_mem fresh, get?_insert_self]
    · exact ih distinct later _

theorem mem_keys_ofList {entries : List (κ × α)} {k : κ} :
    k ∈ (ofList entries).keys ↔ k ∈ entries.map (·.1) := by
  suffices ∀ m : SortedMap κ α, k ∈ (entries.foldl (fun m e => m.insert e.1 e.2) m).keys ↔
      k ∈ entries.map (·.1) ∨ k ∈ m.keys by
    rw [ofList, this]
    simp [keys, empty]
  induction entries with
  | nil => simp
  | cons e rest ih =>
    intro m
    rw [List.foldl_cons, ih, mem_keys_insert, List.map_cons, List.mem_cons, or_left_comm, or_assoc]

theorem keys_ofList_perm {entries : List (κ × α)} (h : (entries.map (·.1)).Nodup) :
    (ofList entries).keys.Perm (entries.map (·.1)) :=
  (List.perm_ext_iff_of_nodup (ascending_ofList entries).nodup h).mpr fun _ => mem_keys_ofList

end WaveSequencer.SortedMap
