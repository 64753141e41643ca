import WaveSequencer.Proofs.SortedMap.Entries

/-!
Maps with ascending keys are determined by what look-up finds in them. So the order in which
entries are inserted leaves no trace in a map if no key comes twice.
-/
namespace WaveSequencer.SortedMap
variable {κ α : Type} [Ord κ] [Std.LawfulEqOrd κ]

omit [Std.LawfulEqOrd κ] in
theorem get?_mapValues {β : Type} (f : α → β) (m : SortedMap κ α) (k : κ) :
    (m.mapValues f).get? k = (m.get? k).map f := by
  obtain ⟨entries⟩ := m
  simp only [get?, mapValues]
  induction entries with
  | nil => rfl
  | cons e rest ih =>
    rw [List.map_cons, lookupEntry, lookupEntry]
    split
    · rfl
    · exact ih

omit [Std.LawfulEqOrd κ] in
theorem Ascending.mapValues {β : Type} {m : SortedMap κ α} (h : m.Ascending) (f : α → β) :
    (m.mapValues f).Ascending := by
  rwa [Ascending, keys_mapValues]

theorem mem_of_get? {m : SortedMap κ α} {k : κ} {a : α} (h : m.get? k = some a) :
    (k, a) ∈ m.toList := by
  obtain ⟨entries⟩ := m
  simp only [get?] at h ⊢
  induction entries with
  | nil => cases h
  | cons e rest ih =>
    rw [lookupEntry] at h
    split at h
    · next same =>
      obtain rfl := Std.LawfulEqCmp.eq_of_compare same
      obtain rfl := Option.some.inj h
      exact List.mem_cons_self
    · exact List.mem_cons_of_mem e (ih h)

variable [Std.TransOrd κ]

theorem Ascending.mem_toList_iff {m : SortedMap κ α} (h : m.Ascending) {e : κ × α} :
    e ∈ m.toList ↔ m.get? e.1 = some e.2 := ⟨get?_of_mem h, mem_of_get?⟩

/-- Maps in which look-up finds the same have the same entries in the same order. -/
theorem Ascending.ext {m n : SortedMap κ α} (hm : m.Ascending) (hn : n.Ascending)
    (h : ∀ k, m.get? k = n.get? k) : m = n := by
  have entries : m.toList.Perm n.toList := by
    rw [List.perm_ext_iff_of_nodup hm.nodup.of_map hn.nodup.of_map]
    intro e
    rw [hm.mem_toList_iff, hn.mem_toList_iff, h]
  have same : m.toList = n.toList := by
    refine entries.eq_of_pairwise ?_ (List.pairwise_map.mp hm) (List.pairwise_map.mp hn)
    intro e e' _ _ before behind
    rw [Std.OrientedCmp.gt_of_lt before] at behind
    cases behind
  exact congrArg mk same

/-- Mapped values agree exactly if the keys do and so does what is found under each of them. -/
theorem Ascending.mapValues_eq_iff {β : Type} {f : α → β} {m n : SortedMap κ α} (hm : m.Ascending)
    (hn : n.Ascending) : m.mapValues f = n.mapValues f ↔ m.keys = n.keys ∧
      ∀ k a b, m.get? k = some a → n.get? k = some b → f a = f b := by
  constructor
  · intro same
    constructor
    · rw [← keys_mapValues f m, same, keys_mapValues]
    · intro k a b left right
      have found := get?_mapValues f n k
      rw [← same, get?_mapValues, left, right] at found
      exact Option.some.inj found
  · rintro ⟨keys, values⟩
    apply (hm.mapValues f).ext (hn.mapValues f)
    intro k
    rw [get?_mapValues, get?_mapValues]
    cases left : m.get? k with
    | none =>
      rw [get?_eq_none_iff, keys] at left
      rw [get?_eq_none_iff.mpr left]
    | some a =>
      cases right : n.get? k with
      | none =>
        rw [get?_eq_none_iff, ← keys, ← get?_eq_none_iff, left] at right
        cases right
      | some b => exact congrArg some (values k a b left right)

theorem get?_ofList_of_not_mem {entries : List (κ × α)} {k : κ} (h : k ∉ entries.map (·.1)) :
    (ofList entries).get? k = none :=
  get?_foldl_insert_of_not_mem h empty

theorem ofList_perm {entries entries' : List (κ × α)} (same : entries.Perm entries')
    (distinct : (entries.map (·.1)).Nodup) : ofList entries = ofList entries' := by
  have keys := same.map (·.1)
  apply (ascending_ofList entries).ext (ascending_ofList entries')
  intro k
  by_cases hk : k ∈ entries.map (·.1)
  · obtain ⟨e, he, rfl⟩ := List.mem_map.mp hk
    rw [get?_ofList_of_mem distinct he,
      get?_ofList_of_mem (keys.nodup_iff.mp distinct) (same.mem_iff.mp he)]
  · rw [get?_ofList_of_not_mem hk, get?_ofList_of_not_mem (mt keys.mem_iff.mpr hk)]

/-- Inserting the entries of a map one after the other gives the map again. -/
theorem Ascending.ofList_toList {m : SortedMap κ α} (h : m.Ascending) : ofList m.toList = m := by
  apply (ascending_ofList m.toList).ext h
  intro k
  by_cases hk : k ∈ m.keys
  · obtain ⟨e, he, rfl⟩ := List.mem_map.mp hk
    rw [get?_ofList_of_mem h.nodup he, get?_of_mem h he]
  · rw [get?_ofList_of_not_mem hk, get?_eq_none_iff.mpr hk]

end WaveSequencer.SortedMap
