import WaveSequencer.SortedMap.Basic

/-!
Sorted maps with a limit on the number of entries, which refuse to overwrite. A refused entry
leaves the map as it was; that a key is taken is found before that the map is full.
-/
namespace WaveSequencer

inductive InsertFault (κ : Type) where
  | duplicate (key : κ)
  | full (capacity : Nat)
  deriving DecidableEq, Repr

def InsertFault.message {κ : Type} [ToString κ] : InsertFault κ → String
  | .duplicate key => s!"Key {key} is already present"
  | .full capacity => s!"Cannot hold more than {capacity} entries"

structure BoundedMap (κ : Type) (α : Type) where
  entries : SortedMap κ α
  capacity : Nat
  deriving BEq, DecidableEq, Repr

namespace BoundedMap
variable {κ α : Type}

def empty (capacity : Nat) : BoundedMap κ α := ⟨.empty, capacity⟩

def toList (m : BoundedMap κ α) : List (κ × α) := m.entries.toList

def size (m : BoundedMap κ α) : Nat := m.entries.size

def isEmpty (m : BoundedMap κ α) : Bool := m.entries.isEmpty

def keys (m : BoundedMap κ α) : List κ := m.entries.keys

def values (m : BoundedMap κ α) : List α := m.entries.values

variable [Ord κ]

def get? (m : BoundedMap κ α) (k : κ) : Option α := m.entries.get? k

def insert (m : BoundedMap κ α) (k : κ) (a : α) : Except (InsertFault κ) (BoundedMap κ α) :=
  if m.entries.contains k then .error (.duplicate k)
  else if m.capacity ≤ m.size then .error (.full m.capacity)
  else .ok { m with entries := m.entries.insert k a }

theorem insert_eq_ok_iff {m n : BoundedMap κ α} {k : κ} {a : α} :
    m.insert k a = .ok n ↔ m.entries.contains k = false ∧ m.size < m.capacity ∧
      n = { m with entries := m.entries.insert k a } := by
  unfold insert
  split
  · next h => simp [h]
  · next h =>
    split
    · next full => exact ⟨nofun, fun ⟨_, room, _⟩ => absurd room (Nat.not_lt.mpr full)⟩
    · next full => simp [h, Nat.not_le.mp full, eq_comm]

end BoundedMap
end WaveSequencer
