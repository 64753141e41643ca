import WaveSequencer.SortedMap.Bounded

/-!
How insertion into a sorted map acts on its keys and on look-up, for keys with a total order.
Main statements: insertion keeps the keys ascending, look-up sees the last value inserted under a
key, and every entry is found under its key.
-/
namespace WaveSequencer.SortedMap
variable {κ α : Type} [Ord κ]

theorem keys_insertEntry_subset {k x : κ} {a : α} {entries : List (κ × α)}
    (h : x ∈ (insertEntry k a entries).map (·.1)) : x = k ∨ x ∈ entries.map (·.1) := by
  induction entries with
  | nil => simpa [insertEntry] using h
  | cons e rest ih =>
    rw [insertEntry] at h
    split at h
    · simpa using h
    · exact Or.inr (by simpa using h)
    · rcases List.mem_cons.mp h with h | h
      · exact Or.inr (by simp [h])
      · exact (ih h).imp_right (List.mem_cons_of_mem _)

theorem get?_eq_none_iff [Std.LawfulEqOrd κ] {m : SortedMap κ α} {k : κ} :
    m.get? k = none ↔ k ∉ m.keys := by
  obtain ⟨entries⟩ := m
  simp only [get?, keys]
  induction entries with
  | nil => simp [lookupEntry]
  | cons e rest ih =>
    simp only [lookupEntry, List.map_cons, List.mem_cons, not_or, ← ih]
    by_cases h : compare k e.1 = .eq
    · simp [Std.LawfulEqCmp.eq_of_compare h]
    · have hk : k ≠ e.1 := fun same => h (by rw [same]; exact Std.ReflCmp.compare_self)
      simp [h, hk]

variable [Std.TransOrd κ]

theorem Ascending.insert {m : SortedMap κ α} (h : m.Ascending) (k : κ) (a : α) :
    (m.insert k a).Ascending := by
  obtain ⟨entries⟩ := m
  simp only [Ascending, keys, SortedMap.insert] at h ⊢
  induction entries with
  | nil => simp [insertEntry]
  | cons e rest ih =>
    obtain ⟨first, later⟩ := List.pairwise_cons.mp h
    rw [insertEntry]
    split
    · next lt =>
      refine List.pairwise_cons.mpr ⟨fun x hx => ?_, h⟩
      rcases List.mem_cons.mp hx with rfl | hx
      · exact lt
      · exact Std.TransCmp.lt_trans lt (first x hx)
    · exact h
    · next gt =>
      refine List.pairwise_cons.mpr ⟨fun x hx => ?_, ih later⟩
      rcases keys_insertEntry_subset hx with rfl | hx
      · exact Std.OrientedCmp.lt_of_gt gt
      · exact first x hx

theorem ascending_ofList (entries : List (κ × α)) : (ofList entries).Ascending := by
  suffices ∀ m : SortedMap κ α, m.Ascending →
      (entries.foldl (fun m e => m.insert e.1 e.2) m).Ascending from this _ ascending_empty
  induction entries with
  | nil => exact fun _ h => h
  | cons e rest ih => exact fun m h => ih _ (h.insert e.1 e.2)

/-- Look-up sees the inserted value under its key, and what was there under all other keys. -/
theorem get?_insert [Std.LawfulEqOrd κ] (m : SortedMap κ α) (j k : κ) (a : α) :
    (m.insert k a).get? j = if compare j k = .eq then some a else m.get? j := by
  obtain ⟨entries⟩ := m
  simp only [get?, SortedMap.insert]
  induction entries with
  | nil => rfl
  | cons e rest ih =>
    rw [insertEntry]
    split
    · rfl
    · next eq =>
      have same : k = e.1 := Std.LawfulEqCmp.eq_of_compare eq
      simp only [lookupEntry, same]
      split <;> rfl
    · next gt =>
      simp only [lookupEntry, ih]
      by_cases he : compare j e.1 = .eq
      · have same : j = e.1 := Std.LawfulEqCmp.eq_of_compare he
        have hk : compare j k = .lt := by
          rw [same]
          exact Std.OrientedCmp.lt_of_gt gt
        simp [he, hk]
      · simp [he]

theorem get?_of_mem {m : SortedMap κ α} (h : m.Ascending) {e : κ × α} (he : e ∈ m.toList) :
    m.get? e.1 = some e.2 := by
  obtain ⟨entries⟩ := m
  simp only [Ascending, keys, get?] at h he ⊢
  induction entries with
  | nil => simp at he
  | cons first rest ih =>
    obtain ⟨before, later⟩ := List.pairwise_cons.mp h
    rcases List.mem_cons.mp he with rfl | he
    · simp [lookupEntry, Std.ReflCmp.compare_self]
    · have gt : compare e.1 first.1 = .gt :=
        Std.OrientedCmp.gt_of_lt (before e.1 (List.mem_map_of_mem he))
      simp [lookupEntry, gt, ih later he]

end WaveSequencer.SortedMap
