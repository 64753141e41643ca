import Mathlib.Data.List.Perm.Subperm
import WaveSequencer.Proofs.Containers.Calls

/-!
Assigning capture sequences to devices. Main statement: after any calls a sequence is assigned
exactly if its device exists and has none yet. The map of a configuration has as many places as
there are devices, so it is never the room that is missing.
-/
namespace WaveSequencer

/-- Keys below the limit leave a place for another key below the limit. -/
theorem BoundedMap.Filled.size_lt {α : Type} {m : BoundedMap UInt32 α} {limit : Nat}
    (h : m.Filled limit (·.1.toNat < limit)) {k : UInt32} (near : k.toNat < limit)
    (new : k ∉ m.keys) : m.size < m.capacity := by
  have distinct : ((k :: m.keys).map UInt32.toNat).Nodup :=
    (List.nodup_cons.mpr ⟨new, h.ascending.nodup⟩).map fun _ _ => UInt32.toNat_inj.mp
  have below : (k :: m.keys).map UInt32.toNat ⊆ List.range limit := by
    intro n hn
    obtain ⟨j, hj, rfl⟩ := List.mem_map.mp hn
    rw [List.mem_range]
    rcases List.mem_cons.mp hj with rfl | hj
    · exact near
    · obtain ⟨e, he, rfl⟩ := List.mem_map.mp hj
      exact h.entries e he
  have size : m.keys.length = m.size := SortedMap.length_keys m.entries
  have count := (List.subperm_of_subset distinct below).length_le
  rw [List.length_map, List.length_cons, List.length_range, size] at count
  rw [h.capacity]
  exact count

namespace CaptureConfig

/-- The configuration after these calls, of which any may be refused. -/
def afterAssignments (calls : List (UInt32 × CaptureSequence)) : CaptureConfig :=
  afterCalls addCall empty calls

/-- How a configuration answers to one more call. -/
structure Answers (c : CaptureConfig) (device : UInt32) (sequence : CaptureSequence) : Prop where
  ok_iff : (∃ d, c.add device sequence = .ok d) ↔
    device.toNat < 8 ∧ device ∉ c.sequences.keys
  error_iff : ∀ fault, c.add device sequence = .error fault ↔
    (8 ≤ device.toNat ∧ fault = .argument (.captureDevice device)) ∨
    (device.toNat < 8 ∧ device ∈ c.sequences.keys ∧
      fault = .argument (.captureAssignment device (.duplicate device)))
  /-- The map of the devices is never full when it is asked. -/
  room : device.toNat < 8 → ∀ n, c.sequences.insert device sequence ≠ .error (.full n)
  assigned : ∀ d, c.add device sequence = .ok d → d.sequence? device = some sequence ∧
    ∀ other ≠ device, d.sequence? other = c.sequence? other
  refused : ∀ fault, c.add device sequence = .error fault →
    afterCall addCall c (device, sequence) = c

section
variable {c : CaptureConfig} {device : UInt32} (sequence : CaptureSequence)

/-- All that assigning does, where there is room for every device without a sequence. -/
theorem add_eq (room : device.toNat < 8 → device ∉ c.sequences.keys →
    c.sequences.size < c.sequences.capacity) : c.add device sequence =
    if 8 ≤ device.toNat then .error (.argument (.captureDevice device))
    else if device ∈ c.sequences.keys then
      .error (.argument (.captureAssignment device (.duplicate device)))
    else .ok ⟨c.sequences.withEntry (device, sequence)⟩ := by
  rw [add]
  by_cases far : 8 ≤ device.toNat
  · rw [if_pos far]
    exact if_pos far
  · rw [if_neg far, if_neg (show ¬Limits.captureDevices ≤ device.toNat from far)]
    by_cases taken : device ∈ c.sequences.keys
    · rw [if_pos taken, BoundedMap.insert_of_mem (e := (device, sequence)) taken]
    · have inserted := (BoundedMap.insert_eq_ok_iff_not_mem (e := (device, sequence))).mpr
        ⟨taken, room (Nat.not_le.mp far) taken, rfl⟩
      rw [if_neg taken, inserted]

theorem answers (room : device.toNat < 8 → device ∉ c.sequences.keys →
    c.sequences.size < c.sequences.capacity) : c.Answers device sequence := by
  have add := add_eq sequence room
  constructor
  · rw [add]
    by_cases far : 8 ≤ device.toNat
    · rw [if_pos far]
      exact iff_of_false nofun fun near => absurd near.1 (Nat.not_lt.mpr far)
    · rw [if_neg far]
      by_cases taken : device ∈ c.sequences.keys
      · rw [if_pos taken]
        exact iff_of_false nofun fun free => free.2 taken
      · rw [if_neg taken]
        exact iff_of_true ⟨_, rfl⟩ ⟨Nat.not_le.mp far, taken⟩
  · intro fault
    rw [add]
    by_cases far : 8 ≤ device.toNat
    · have outside : ¬device.toNat < 8 := Nat.not_lt.mpr far
      simp [far, outside, eq_comm]
    · have near : device.toNat < 8 := Nat.not_le.mp far
      by_cases taken : device ∈ c.sequences.keys <;> simp [far, near, taken, eq_comm]
  · intro near n refused
    by_cases taken : device ∈ c.sequences.keys
    · rw [BoundedMap.insert_of_mem (e := (device, sequence)) taken] at refused
      cases refused
    · rw [(BoundedMap.insert_eq_ok_iff_not_mem (e := (device, sequence))).mpr
        ⟨taken, room near taken, rfl⟩] at refused
      cases refused
  · intro d assigned
    rw [add] at assigned
    split at assigned
    · cases assigned
    · split at assigned
      · cases assigned
      · obtain rfl := Except.ok.inj assigned
        exact ⟨SortedMap.get?_insert_self _ _ _,
          fun other different => SortedMap.get?_insert_of_ne _ _ different⟩
  · intro fault refused
    exact afterCall_of_error refused

end

theorem filled_afterAssignments (calls : List (UInt32 × CaptureSequence)) :
    (afterAssignments calls).sequences.Filled Limits.captureDevices
      (·.1.toNat < Limits.captureDevices) := by
  obtain ⟨m, same, filled⟩ := insertsInto.exists_filled_of_admits
    (·.1.toNat < Limits.captureDevices) (fun c (_ : c ∈ calls) near => near) Limits.captureDevices
  rw [afterAssignments, empty, same]
  exact filled

/-- After any calls every device without a sequence gets the one that is asked for, and only a
number of no device and one that has been assigned are refused. The devices are listed by ascending
number, each at most once. -/
theorem assigns_every_free_device (calls : List (UInt32 × CaptureSequence)) (device : UInt32)
    (sequence : CaptureSequence) :
    (afterAssignments calls).Answers device sequence ∧
    (afterAssignments calls).sequences.keys.Pairwise (· < ·) ∧
    (∀ k ∈ (afterAssignments calls).sequences.keys, k.toNat < 8) ∧
    (afterAssignments calls).sequences.size ≤ 8 := by
  have filled := filled_afterAssignments calls
  have ascending := filled.ascending.imp Std.compare_eq_lt.mp
  refine ⟨answers sequence filled.size_lt, ascending, ?_, filled.room⟩
  intro k hk
  obtain ⟨e, he, rfl⟩ := List.mem_map.mp hk
  exact filled.entries e he

end CaptureConfig
end WaveSequencer
