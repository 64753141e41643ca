import Mathlib.Data.Finset.Card
import WaveSequencer.Proofs.SortedMap.Search

/-!
Insertions into a sorted map one after the other, of which a later one replaces the value of an
earlier one with the same key. Main statement: every insertion answers with the value that its key
has had last, and after each of them the map lists all keys so far, each once and by ascending
keys, with their last values.
-/
namespace WaveSequencer.SortedMap
variable {κ α : Type}

/-- The value of the last entry with this key. -/
def lastValue? [DecidableEq κ] (entries : List (κ × α)) (k : κ) : Option α :=
  entries.reverse.lookup k

theorem lastValue?_append_singleton [DecidableEq κ] (entries : List (κ × α)) (e : κ × α) (k : κ) :
    lastValue? (entries ++ [e]) k = if k = e.1 then some e.2 else lastValue? entries k := by
  rw [lastValue?, List.reverse_concat, List.lookup_cons, lastValue?]
  by_cases same : k = e.1
  · rw [if_pos same, beq_iff_eq.mpr same]
  · rw [if_neg same, beq_eq_false_iff_ne.mpr same]

variable [Ord κ]

/-- What each insertion answers, with the map that it leaves. -/
def insertions (m : SortedMap κ α) : List (κ × α) → List (Option α × SortedMap κ α)
  | [] => []
  | e :: rest =>
    let answered := m.getThenInsert e.1 e.2
    answered :: answered.2.insertions rest

/-- The map lists the keys of these entries and no others, each once and by ascending keys, with
its last value. -/
structure Lists [DecidableEq κ] (m : SortedMap κ α) (entries : List (κ × α)) : Prop where
  ascending : m.keys.Pairwise (compare · · = .lt)
  mem_keys_iff : ∀ k, k ∈ m.keys ↔ k ∈ entries.map (·.1)
  mem_toList_iff : ∀ k a, (k, a) ∈ m.toList ↔ lastValue? entries k = some a
  values_eq : m.values.map some = m.keys.map (lastValue? entries)
  get?_eq : ∀ k, m.get? k = lastValue? entries k
  contains_iff : ∀ k, m.contains k = true ↔ k ∈ entries.map (·.1)
  size_eq : m.size = (entries.map (·.1)).toFinset.card

/-- The second map comes from the first one by an insertion at the place where the search for the
key ends. There it changes the value of one entry, or has one more entry. -/
structure InsertsTo (m : SortedMap κ α) (e : κ × α) (n : SortedMap κ α) : Prop where
  replaced : ∀ a, m.get? e.1 = some a → ∃ before after, m.search e.1 = .ok before.length ∧
    m.toList = before ++ (e.1, a) :: after ∧ n.toList = before ++ e :: after
  added : m.get? e.1 = none → ∃ before after, m.search e.1 = .error before.length ∧
    m.toList = before ++ after ∧ n.toList = before ++ e :: after

theorem ofList_append_singleton (entries : List (κ × α)) (e : κ × α) :
    ofList (entries ++ [e]) = (ofList entries).insert e.1 e.2 := by
  rw [ofList, List.foldl_append, List.foldl_cons, List.foldl_nil, ofList]

theorem length_insertions (m : SortedMap κ α) (calls : List (κ × α)) :
    (m.insertions calls).length = calls.length := by
  induction calls generalizing m with
  | nil => rfl
  | cons e rest ih => rw [insertions, List.length_cons, List.length_cons, ih]

/-- An insertion meets the map that the earlier ones have left. -/
theorem getElem?_insertions (m : SortedMap κ α) {calls : List (κ × α)} {i : Nat}
    (h : i < calls.length) : (m.insertions calls)[i]? =
      some (((calls.take i).foldl (fun m e => m.insert e.1 e.2) m).getThenInsert
        calls[i].1 calls[i].2) := by
  induction calls generalizing m i with
  | nil => cases h
  | cons e rest ih =>
    rw [insertions]
    cases i with
    | zero => rfl
    | succ i => exact ih (m.insert e.1 e.2) (Nat.lt_of_succ_lt_succ h)

variable [Std.LawfulEqOrd κ] [Std.TransOrd κ]

theorem get?_ofList [DecidableEq κ] (entries : List (κ × α)) (k : κ) :
    (ofList entries).get? k = lastValue? entries k := by
  induction entries using List.reverseRecOn with
  | nil => rfl
  | append_singleton entries e ih =>
    rw [ofList_append_singleton, lastValue?_append_singleton]
    by_cases same : k = e.1
    · rw [if_pos same, same, get?_insert_self]
    · rw [if_neg same, get?_insert_of_ne _ _ same, ih]

theorem size_ofList [DecidableEq κ] (entries : List (κ × α)) :
    (ofList entries).size = (entries.map (·.1)).toFinset.card := by
  have keys : (ofList entries).keys.toFinset = (entries.map (·.1)).toFinset := by
    ext k
    rw [List.mem_toFinset, List.mem_toFinset, mem_keys_ofList]
  rw [← length_keys, ← keys, List.toFinset_card_of_nodup (ascending_ofList entries).nodup]

theorem lists_ofList [DecidableEq κ] (entries : List (κ × α)) : (ofList entries).Lists entries where
  ascending := ascending_ofList entries
  mem_keys_iff _ := mem_keys_ofList
  mem_toList_iff k a := by
    rw [← get?_ofList]
    exact (ascending_ofList entries).mem_toList_iff (e := (k, a))
  values_eq := by
    rw [values, keys, List.map_map, List.map_map]
    apply List.map_congr_left
    intro e he
    rw [Function.comp_apply, Function.comp_apply, ← get?_ofList,
      get?_of_mem (ascending_ofList _) he]
  get?_eq := get?_ofList entries
  contains_iff _ := contains_eq_true_iff.trans mem_keys_ofList
  size_eq := size_ofList entries

section
variable {m : SortedMap κ α} {k : κ} {i : Nat}

/-- Where the search has found a key stands its entry, and inserting changes the value there. -/
theorem Ascending.exists_of_search_ok (h : m.Ascending) (found : m.search k = .ok i) (a : α) :
    ∃ before b after, before.length = i ∧ m.get? k = some b ∧
      m.toList = before ++ (k, b) :: after ∧ (m.insert k a).toList = before ++ (k, a) :: after := by
  have place := h.isPlace_search k
  rw [found, IsPlace, keys, List.getElem?_map] at place
  obtain ⟨⟨k, b⟩, entry, rfl⟩ := Option.map_eq_some_iff.mp place
  obtain ⟨inside, here⟩ := List.getElem?_eq_some_iff.mp entry
  obtain ⟨before, after, listed, length, replaced⟩ := @List.exists_of_set _ i (k, a) _ inside
  rw [here] at listed
  refine ⟨before, b, after, length, get?_of_mem h (List.mem_of_getElem? entry), listed, ?_⟩
  rw [h.insert_of_search_ok found, replaced]

/-- Where the search has ended without the key, inserting puts its entry. -/
theorem Ascending.exists_of_search_error (h : m.Ascending) (missing : m.search k = .error i)
    (a : α) : ∃ before after, before.length = i ∧ m.get? k = none ∧
      m.toList = before ++ after ∧ (m.insert k a).toList = before ++ (k, a) :: after := by
  have place := h.isPlace_search k
  rw [missing] at place
  have inside : i ≤ m.toList.length := Nat.le_trans place.1 (Nat.le_of_eq m.length_keys)
  obtain ⟨before, after, listed, length, added⟩ := List.exists_of_modifyTailIdx ((k, a) :: ·) inside
  refine ⟨before, after, length, ?_, listed, ?_⟩
  · rw [h.get?_eq_search, missing]
  · rw [h.insert_of_search_error missing, ← added, List.insertIdx]

theorem Ascending.insertsTo (h : m.Ascending) (e : κ × α) : m.InsertsTo e (m.insert e.1 e.2) := by
  cases searched : m.search e.1 with
  | ok i =>
    obtain ⟨before, b, after, rfl, found, listed, inserted⟩ := h.exists_of_search_ok searched e.2
    constructor
    · intro a same
      obtain rfl := Option.some.inj (found.symm.trans same)
      exact ⟨before, after, searched, listed, inserted⟩
    · intro missing
      cases found.symm.trans missing
  | error i =>
    obtain ⟨before, after, rfl, missing, listed, inserted⟩ := h.exists_of_search_error searched e.2
    constructor
    · intro a found
      cases missing.symm.trans found
    · intro _
      exact ⟨before, after, searched, listed, inserted⟩

end

/-- A map that is filled by insertions answers each of them with the last value of the key, and is
after each of them the map of the last values so far. -/
theorem insertions_list_last_values [DecidableEq κ] (calls : List (κ × α)) :
    ((empty : SortedMap κ α).insertions calls).length = calls.length ∧
    (ofList calls).Lists calls ∧
    ∀ i (h : i < calls.length),
      (empty.insertions calls)[i]? =
        some (lastValue? (calls.take i) calls[i].1, ofList (calls.take (i + 1))) ∧
      (ofList (calls.take (i + 1))).Lists (calls.take (i + 1)) ∧
      (ofList (calls.take i)).InsertsTo calls[i] (ofList (calls.take (i + 1))) := by
  refine ⟨length_insertions empty calls, lists_ofList calls, ?_⟩
  intro i h
  have step : ofList (calls.take (i + 1)) =
      (ofList (calls.take i)).insert calls[i].1 calls[i].2 := by
    rw [List.take_succ_eq_append_getElem h, ofList_append_singleton]
  refine ⟨?_, lists_ofList _, ?_⟩
  · have answered := getElem?_insertions empty h
    rw [← ofList, getThenInsert, get?_ofList, ← step] at answered
    exact answered
  · rw [step]
    exact (ascending_ofList _).insertsTo calls[i]

/-- A key that comes back after another one. -/
def threeCalls : List (UInt32 × Char) := [(7, 'a'), (4, 'b'), (7, 'c')]

theorem insertions_list_last_values_threeCalls :
    (empty.insertions threeCalls)[2]? = some (some 'a', ofList threeCalls) ∧
      (ofList threeCalls).Lists threeCalls ∧
      (ofList threeCalls).toList = [(4, 'b'), (7, 'c')] := by
  obtain ⟨_, lists, each⟩ := insertions_list_last_values threeCalls
  exact ⟨(each 2 (by decide)).1, lists, by decide⟩

end WaveSequencer.SortedMap
