/-!
Maps that list their entries by ascending key, whatever the order of insertion. Inserting under a
present key replaces that entry's value and touches nothing else.
-/
namespace WaveSequencer

structure SortedMap (κ : Type) (α : Type) where
  /-- The entries by ascending key. -/
  toList : List (κ × α)
  deriving BEq, DecidableEq, Repr

namespace SortedMap
variable {κ α : Type}

def empty : SortedMap κ α := ⟨[]⟩

def size (m : SortedMap κ α) : Nat := m.toList.length

def isEmpty (m : SortedMap κ α) : Bool := m.toList.isEmpty

def keys (m : SortedMap κ α) : List κ := m.toList.map (·.1)

def values (m : SortedMap κ α) : List α := m.toList.map (·.2)

@[simp] theorem length_keys (m : SortedMap κ α) : m.keys.length = m.size := List.length_map _

def mapValues {β : Type} (f : α → β) (m : SortedMap κ α) : SortedMap κ β :=
  ⟨m.toList.map fun e => (e.1, f e.2)⟩

@[simp] theorem keys_mapValues {β : Type} (f : α → β) (m : SortedMap κ α) :
    (m.mapValues f).keys = m.keys := by simp [keys, mapValues, Function.comp_def]

variable [Ord κ]

/-- Puts an entry at its place among ascending keys, over the entry that has the place already. -/
def insertEntry (k : κ) (a : α) : List (κ × α) → List (κ × α)
  | [] => [(k, a)]
  | e :: rest => match compare k e.1 with
    | .lt => (k, a) :: e :: rest
    | .eq => (e.1, a) :: rest
    | .gt => e :: insertEntry k a rest

def insert (m : SortedMap κ α) (k : κ) (a : α) : SortedMap κ α := ⟨insertEntry k a m.toList⟩

def lookupEntry (k : κ) : List (κ × α) → Option α
  | [] => none
  | e :: rest => if compare k e.1 = .eq then some e.2 else lookupEntry k rest

def get? (m : SortedMap κ α) (k : κ) : Option α := lookupEntry k m.toList

def contains (m : SortedMap κ α) (k : κ) : Bool := (m.get? k).isSome

def getThenInsert (m : SortedMap κ α) (k : κ) (a : α) : Option α × SortedMap κ α :=
  (m.get? k, m.insert k a)

/-- Inserts the entries of a list one after the other, so that the last one of a key stays. -/
def ofList (entries : List (κ × α)) : SortedMap κ α :=
  entries.foldl (fun m e => m.insert e.1 e.2) empty

/-- Each key comes before all later ones, hence none comes twice. -/
def Ascending (m : SortedMap κ α) : Prop := m.keys.Pairwise (compare · · = .lt)

theorem ascending_empty : (empty : SortedMap κ α).Ascending := List.Pairwise.nil

@[simp] theorem get?_empty (k : κ) : (empty : SortedMap κ α).get? k = none := rfl

end SortedMap
end WaveSequencer
