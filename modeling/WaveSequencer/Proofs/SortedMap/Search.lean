import WaveSequencer.Proofs.SortedMap.Order

/-!
Searching the ascending keys of a map by halving. Main statements: the search ends at the key, or
without it at the one place that keeps the order, and both look-up and insertion are what happens
at that place.
-/
namespace WaveSequencer.SortedMap
variable {κ α : Type} [Ord κ]

/-- Halves a range of the keys until the key is found or nothing is left of the range. The range
starts at `low`; the result is the place of the key, or else the place where it would go. -/
def searchRange (keys : List κ) (k : κ) (low size : Nat) : Except Nat Nat :=
  if size = 0 then .error low
  else match keys[low + size / 2]? with
    | none => .error low
    | some middle => match compare k middle with
      | .lt => searchRange keys k low (size / 2)
      | .eq => .ok (low + size / 2)
      | .gt => searchRange keys k (low + size / 2 + 1) (size - size / 2 - 1)
termination_by size

def search (m : SortedMap κ α) (k : κ) : Except Nat Nat := searchRange m.keys k 0 m.size

/-- The place of a key, or else the place after all smaller and before all larger keys. -/
def IsPlace (keys : List κ) (k : κ) : Except Nat Nat → Prop
  | .ok i => keys[i]? = some k
  | .error i => i ≤ keys.length ∧ (∀ x ∈ keys.take i, compare x k = .lt) ∧
      ∀ x ∈ keys.drop i, compare k x = .lt

section
variable [Std.LawfulEqOrd κ] [Std.TransOrd κ] {keys : List κ} {k : κ}

/-- What lies outside of the range is smaller before it and larger behind it. -/
theorem isPlace_searchRange (sorted : keys.Pairwise (compare · · = .lt)) {low size : Nat}
    (inside : low + size ≤ keys.length) (smaller : ∀ x ∈ keys.take low, compare x k = .lt)
    (larger : ∀ x ∈ keys.drop (low + size), compare k x = .lt) :
    IsPlace keys k (searchRange keys k low size) := by
  induction size using Nat.strongRecOn generalizing low with
  | ind size ih =>
    rw [searchRange]
    split
    · next empty =>
      rw [empty] at inside larger
      exact ⟨inside, smaller, larger⟩
    · next more =>
      have here : low + size / 2 < keys.length := by omega
      rw [List.getElem?_eq_getElem here]
      -- The keys fall into those before the middle one, the middle one, and those behind it.
      have parts := List.take_append_drop (low + size / 2) keys
      rw [List.drop_eq_getElem_cons here] at parts
      rw [← parts] at sorted
      obtain ⟨_, behind, before⟩ := List.pairwise_append.mp sorted
      dsimp only
      split
      · next less =>
        apply ih (size / 2) (by omega) (by omega) smaller
        intro x hx
        rw [List.drop_eq_getElem_cons here] at hx
        rcases List.mem_cons.mp hx with rfl | hx
        · exact less
        · exact Std.TransCmp.lt_trans less (List.rel_of_pairwise_cons behind hx)
      · next same =>
        rw [IsPlace, List.getElem?_eq_getElem here, Std.LawfulEqCmp.eq_of_compare same]
      · next greater =>
        have less := Std.OrientedCmp.lt_of_gt greater
        apply ih (size - size / 2 - 1) (by omega) (by omega)
        · intro x hx
          rw [List.take_succ_eq_append_getElem here] at hx
          rcases List.mem_append.mp hx with hx | hx
          · exact Std.TransCmp.lt_trans (before x hx _ List.mem_cons_self) less
          · rw [List.mem_singleton.mp hx]
            exact less
        · have stop : low + size / 2 + 1 + (size - size / 2 - 1) = low + size := by omega
          rwa [stop]

end

variable [Std.LawfulEqOrd κ] [Std.TransOrd κ] {m : SortedMap κ α} {k : κ} {i : Nat}

theorem Ascending.isPlace_search (h : m.Ascending) (k : κ) : IsPlace m.keys k (m.search k) := by
  apply isPlace_searchRange h
  · exact Nat.le_of_eq ((Nat.zero_add _).trans m.length_keys.symm)
  · intro x hx
    rw [List.take_zero] at hx
    cases hx
  · intro x hx
    rw [Nat.zero_add, ← length_keys, List.drop_length] at hx
    cases hx

/-- The search for a key that is not there ends between two entries, or before or behind all. -/
theorem Ascending.search_eq_error (h : m.Ascending) (missing : k ∉ m.keys) :
    ∃ i ≤ m.toList.length, m.search k = .error i := by
  have place := h.isPlace_search k
  cases found : m.search k with
  | ok i =>
    rw [found] at place
    exact absurd (List.mem_of_getElem? place) missing
  | error i =>
    rw [found] at place
    exact ⟨i, Nat.le_trans place.1 (Nat.le_of_eq m.length_keys), rfl⟩

omit [Std.LawfulEqOrd κ] in
theorem insertEntry_eq_insertIdx {entries : List (κ × α)}
    (h : IsPlace (entries.map (·.1)) k (.error i)) (a : α) :
    insertEntry k a entries = entries.insertIdx i (k, a) := by
  obtain ⟨inside, smaller, larger⟩ := h
  induction entries generalizing i with
  | nil =>
    obtain rfl := Nat.le_zero.mp inside
    rfl
  | cons e rest ih =>
    rw [insertEntry]
    cases i with
    | zero =>
      rw [larger e.1 List.mem_cons_self]
      rfl
    | succ i =>
      have greater := Std.OrientedCmp.gt_of_lt (smaller e.1 List.mem_cons_self)
      rw [greater, List.insertIdx_succ_cons]
      refine congrArg (e :: ·) (ih (Nat.le_of_succ_le_succ inside) ?_ larger)
      intro x hx
      exact smaller x (List.mem_cons_of_mem e.1 hx)

theorem insertEntry_eq_set {entries : List (κ × α)}
    (sorted : (entries.map (·.1)).Pairwise (compare · · = .lt))
    (h : (entries.map (·.1))[i]? = some k) (a : α) :
    insertEntry k a entries = entries.set i (k, a) := by
  induction entries generalizing i with
  | nil => cases h
  | cons e rest ih =>
    obtain ⟨first, later⟩ := List.pairwise_cons.mp sorted
    rw [insertEntry]
    cases i with
    | zero =>
      obtain rfl := Option.some.inj h
      have same : compare e.1 e.1 = .eq := Std.compare_self
      rw [same]
      rfl
    | succ i =>
      have greater := Std.OrientedCmp.gt_of_lt (first k (List.mem_of_getElem? h))
      rw [greater, List.set_cons_succ]
      exact congrArg (e :: ·) (ih later h)

/-- A key that is found keeps its place, and its value is replaced. -/
theorem Ascending.insert_of_search_ok (h : m.Ascending) (found : m.search k = .ok i) (a : α) :
    (m.insert k a).toList = m.toList.set i (k, a) := by
  have place := h.isPlace_search k
  rw [found] at place
  exact insertEntry_eq_set h place a

/-- A key that is not found is put where the search has ended. -/
theorem Ascending.insert_of_search_error (h : m.Ascending) (missing : m.search k = .error i)
    (a : α) : (m.insert k a).toList = m.toList.insertIdx i (k, a) := by
  have place := h.isPlace_search k
  rw [missing] at place
  exact insertEntry_eq_insertIdx place a

/-- Look-up takes the value from the place at which the search has found the key. -/
theorem Ascending.get?_eq_search (h : m.Ascending) (k : κ) :
    m.get? k = match m.search k with
      | .ok i => m.toList[i]?.map (·.2)
      | .error _ => none := by
  have place := h.isPlace_search k
  split
  · next i found =>
    rw [found] at place
    obtain ⟨e, entry, rfl⟩ := Option.map_eq_some_iff.mp ((List.getElem?_map ..).symm.trans place)
    rw [entry]
    exact get?_of_mem h (List.mem_of_getElem? entry)
  · next i missing =>
    rw [missing] at place
    obtain ⟨_, smaller, larger⟩ := place
    rw [get?_eq_none_iff, ← List.take_append_drop i m.keys, List.mem_append]
    have same : compare k k = .eq := Std.compare_self
    rintro (before | behind)
    · have less := smaller k before
      rw [same] at less
      cases less
    · have less := larger k behind
      rw [same] at less
      cases less

end WaveSequencer.SortedMap
