import WaveSequencer.Fault
import WaveSequencer.Samples
import WaveSequencer.Wire.Address
import WaveSequencer.Wire.LittleEndian

/-!
Bounds-checked reads from a buffer of a memory dump. A read succeeds exactly if its bytes are in
the buffer; an end that 64 bits do not hold is beyond every buffer.
-/
namespace WaveSequencer.Wire

/-- The bytes of a buffer, and which buffer a fault is to name. -/
structure Reader where
  bytes : List UInt8
  buffer : Buffer

namespace Reader

def truncated (r : Reader) (offset length : Nat) : Fault :=
  .malformed (.truncated r.buffer length offset r.bytes.length)

def bytesAt (r : Reader) (offset length : Nat) : Except Fault (List UInt8) :=
  match address? (offset + length) with
  | some stop =>
    if stop ≤ r.bytes.length then .ok ((r.bytes.drop offset).take length)
    else .error (r.truncated offset length)
  | none => .error (r.truncated offset length)

def valueAt (r : Reader) (offset width : Nat) : Except Fault Nat :=
  (r.bytesAt offset width).map leValue

def wordAt (r : Reader) (offset : Nat) : Except Fault UInt32 :=
  (r.valueAt offset 4).map Nat.toUInt32

def longAt (r : Reader) (offset : Nat) : Except Fault UInt64 :=
  (r.valueAt offset 8).map Nat.toUInt64

def samplesAt (r : Reader) (offset count : Nat) : Except Fault (List Int16) :=
  match address? (count * 2) with
  | some length => (r.bytesAt offset length).map samplesOfBytes
  | none => .error (.malformed (.sampleCount r.buffer count))

/-- `count` pairs of samples from `offset` on, as two channels. -/
def pairsAt (r : Reader) (offset count : Nat) : Except Fault IqSamples :=
  match address? (count * 4) with
  | some length => (r.bytesAt offset length).map (IqSamples.ofPairs ∘ samplesOfBytes)
  | none => .error (.malformed (.sampleCount r.buffer count))

/-- A read succeeds exactly if its end is within the buffer, and yields the bytes up to there. -/
theorem bytesAt_eq_ok_iff {r : Reader} {offset length : Nat} {bytes : List UInt8} :
    r.bytesAt offset length = .ok bytes ↔
      offset + length < UInt64.size ∧ offset + length ≤ r.bytes.length ∧
        bytes = (r.bytes.drop offset).take length := by
  unfold bytesAt
  by_cases h : offset + length < UInt64.size
  · rw [address?_eq_some_iff.mpr ⟨h, rfl⟩]
    by_cases hr : offset + length ≤ r.bytes.length
    · simp only [if_pos hr, Except.ok.injEq]
      exact ⟨fun e => ⟨h, hr, e.symm⟩, fun e => e.2.2.symm⟩
    · simp only [if_neg hr]
      exact ⟨nofun, fun e => absurd e.2.1 hr⟩
  · rw [address?_eq_none_iff.mpr (Nat.not_lt.mp h)]
    exact ⟨nofun, fun e => absurd e.1 h⟩

theorem length_of_bytesAt {r : Reader} {offset length : Nat} {bytes : List UInt8}
    (h : r.bytesAt offset length = .ok bytes) : bytes.length = length := by
  obtain ⟨_, hr, rfl⟩ := bytesAt_eq_ok_iff.mp h
  simp only [List.length_take, List.length_drop]
  omega

end Reader
end WaveSequencer.Wire
