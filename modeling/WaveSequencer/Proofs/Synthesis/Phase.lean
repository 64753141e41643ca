import Mathlib.Data.List.Rotate
import WaveSequencer.Proofs.Numeric.Order
import WaveSequencer.Proofs.Synthesis.Repetition

/-!
The phase of a square and of a sawtooth wave. Main statement: it moves the start of a cycle and
changes nothing else. The samples are the same for every phase, those of a square wave are one run
of high samples around the cycle and the rest of it low, and a phase of a whole turn is none.
-/
namespace WaveSequencer
open Numeric

namespace Samples
variable {α : Type}

/-- A cycle that starts `a` samples later than the cycle `u`, and goes once around. -/
structure Turned (u : List α) (a : ℕ) (cycle : List α) : Prop where
  inside : a ≤ u.length
  shift : (u.length - a) % u.length < u.length
  length : cycle.length = u.length
  sample : ∀ i < u.length, cycle[i]? = u[(i + a) % u.length]?
  /-- The position from which a sample is moved, backwards around the cycle. -/
  origin : ∀ i < u.length,
    cycle[i]? = u[(((i : ℤ) - (u.length - a : ℕ)) % u.length).toNat]?
  whole : a = 0 ∨ a = u.length → cycle = u
  perm : cycle.Perm u

/-- To the right by what is left of a turn is to the left by what there is of it. -/
theorem rotatedRight_eq_rotate {a : ℕ} {u : List α} (ha : a ≤ u.length) :
    rotatedRight ((u.length - a) % u.length) u = u.rotate a := by
  rw [rotatedRight, rotated, ← List.rotate_eq_drop_append_take (Nat.sub_le _ _)]
  rcases Nat.eq_zero_or_pos a with rfl | turned
  · rw [Nat.sub_zero, Nat.mod_self, Nat.sub_zero, List.rotate_length, List.rotate_zero]
  · rw [Nat.mod_eq_of_lt (by omega), Nat.sub_sub_self ha]

theorem origin_eq {i a n : ℕ} (ha : a ≤ n) :
    (((i : ℤ) - (n - a : ℕ)) % n).toNat = (i + a) % n := by
  have moved : (i : ℤ) - (n - a : ℕ) = ((i + a : ℕ) : ℤ) - n := by omega
  rw [moved, Int.sub_emod_right, ← Int.natCast_emod, Int.toNat_natCast]

theorem turned_rotate {a : ℕ} {u : List α} (ha : a ≤ u.length) (pos : 0 < u.length) :
    Turned u a (u.rotate a) := by
  constructor
  · exact ha
  · exact Nat.mod_lt _ pos
  · exact List.length_rotate u a
  · exact fun i hi => List.getElem?_rotate hi
  · intro i hi
    rw [origin_eq ha]
    exact List.getElem?_rotate hi
  · rintro (rfl | rfl)
    · exact List.rotate_zero u
    · exact List.rotate_length u
  · exact List.rotate_perm u a

end Samples

namespace ParametricWave
variable (w : ParametricWave) {n : ℕ}

/-- Once around a square cycle there is one run of high samples, and the other ones are low. -/
structure SquareRun (w : ParametricWave) (n : ℕ) (cycle : List Int16) : Prop where
  high : ∀ j < w.highLength n,
    cycle[(j + (n - w.advance n)) % n]? = some (clip (w.amplitude + w.offset))
  low : ∀ j < n, w.highLength n ≤ j →
    cycle[(j + (n - w.advance n)) % n]? = some (clip (-w.amplitude + w.offset))
  none : (w.dutyCycle == 0.0) = true → w.highLength n = 0
  some : (w.dutyCycle == 0.0) = false → w.highLength n =
    min (truncate (ofCount (n - 1) * w.dutyCycle / 100.0)) (n - 1) + 1 ∧ 1 ≤ w.highLength n
  inside : w.highLength n ≤ n

theorem turned_turnedByPhase (cycle : List Int16) (pos : 0 < cycle.length) :
    Samples.Turned cycle (w.advance cycle.length) (w.turnedByPhase cycle) := by
  have inside : w.advance cycle.length ≤ cycle.length := Nat.min_le_right _ _
  rw [turnedByPhase, Samples.rotatedRight_eq_rotate inside]
  exact Samples.turned_rotate inside pos

theorem squareRun_of_turned (pos : 0 < n) {cycle : List Int16}
    (h : Samples.Turned (w.squareCycle n) (w.advance n) cycle) : w.SquareRun n cycle := by
  have valid := w.valid.dutyCycle.1
  have sample (j : ℕ) (hj : j < n) :
      cycle[(j + (n - w.advance n)) % n]? = (w.squareCycle n)[j]? := by
    have inside := h.inside
    have back : ((j + (n - w.advance n)) % n + w.advance n) % n = j := by
      rw [w.length_squareCycle pos] at inside
      rw [Nat.mod_add_mod, Nat.add_assoc, Nat.sub_add_cancel inside, Nat.add_mod_right,
        Nat.mod_eq_of_lt hj]
    have found := h.sample ((j + (n - w.advance n)) % n)
    rw [w.length_squareCycle pos, back] at found
    exact found (Nat.mod_lt _ pos)
  have inside := w.highLength_le pos
  constructor
  · intro j hj
    rw [sample j (Nat.lt_of_lt_of_le hj inside), squareCycle,
      List.getElem?_append_left (by simpa using hj), List.getElem?_replicate_of_lt hj]
  · intro j hj after
    rw [sample j hj, squareCycle, List.getElem?_append_right (by simpa using after),
      List.length_replicate, List.getElem?_replicate_of_lt (Nat.sub_lt_sub_right after hj)]
  · intro zero
    exact if_neg (not_pos_of_zero valid zero)
  · intro nonzero
    have length : w.highLength n =
        min (truncate (ofCount (n - 1) * w.dutyCycle / 100.0)) (n - 1) + 1 :=
      if_pos (pos_of_nonneg valid nonzero)
    exact ⟨length, length ▸ Nat.le_add_left 1 _⟩
  · exact inside

theorem turned_squareCycle (kind : w.kind = .square) (pos : 0 < n) :
    Samples.Turned (w.squareCycle n) (w.advance n) (w.cycle n) := by
  have turned := w.turned_turnedByPhase (w.squareCycle n) (by
    rw [w.length_squareCycle pos]
    exact pos)
  rw [w.length_squareCycle pos] at turned
  rw [cycle, kind]
  exact turned

theorem turned_sawtoothCycle (kind : w.kind = .sawtooth) (pos : 0 < n) :
    Samples.Turned (w.sawtoothCycle n) (w.advance n) (w.cycle n) := by
  have turned := w.turned_turnedByPhase (w.sawtoothCycle n) (by
    rw [w.length_sawtoothCycle pos]
    exact pos)
  rw [w.length_sawtoothCycle pos] at turned
  rw [cycle, kind]
  exact turned

variable {w} {rate : Float}

/-- Before they are turned, the cycles do not depend on the phase. -/
theorem perm_of_samePhase {v : ParametricWave} {phase : Float}
    (same : v.toWaveParameters = { w.toWaveParameters with phase })
    (kind : w.kind = .square ∨ w.kind = .sawtooth) (pos : 0 < n) :
    (v.cycle n).Perm (w.cycle n) := by
  obtain ⟨_, valid⟩ := v
  obtain rfl := same
  rcases kind with kind | kind
  · have there := turned_squareCycle ⟨_, valid⟩ kind pos
    exact there.perm.trans (w.turned_squareCycle kind pos).perm.symm
  · have there := turned_sawtoothCycle ⟨_, valid⟩ kind pos
    exact there.perm.trans (w.turned_sawtoothCycle kind pos).perm.symm

theorem value_cycleAt_eq (length : w.cycleLength? rate = some n) (pos : 0 < n) (d : Bool) :
    (w.cycleAt rate).value d = w.cycle n := by
  obtain ⟨m, rfl⟩ := Nat.exists_eq_succ_of_ne_zero (Nat.ne_of_gt pos)
  simp only [cycleAt, length]
  rfl

theorem le_of_cycleLength? (length : w.cycleLength? rate = some n) :
    n ≤ Limits.samplesPerCycle := by
  rw [cycleLength?, Option.filter_eq_some_iff] at length
  exact of_decide_eq_true length.2

/-- Sampling a square or a sawtooth wave yields its cycle, turned by as many samples as the phase
takes of it, for every phase the same samples. -/
theorem phase_turns_cycle (d : Bool) (length : w.cycleLength? rate = some n) (pos : 0 < n) :
    w.advance n = min (truncate (roundHalfAway (ofCount n * w.phase / 360.0))) n ∧
    (w.kind = .square →
      Samples.Turned (w.squareCycle n) (w.advance n) ((w.cycleAt rate).value d) ∧
      w.SquareRun n ((w.cycleAt rate).value d)) ∧
    (w.kind = .sawtooth →
      Samples.Turned (w.sawtoothCycle n) (w.advance n) ((w.cycleAt rate).value d) ∧
      w.SawtoothFills n) ∧
    ∀ (v : ParametricWave) (phase : Float),
      v.toWaveParameters = { w.toWaveParameters with phase } →
      w.kind = .square ∨ w.kind = .sawtooth →
      ((v.cycleAt rate).value d).Perm ((w.cycleAt rate).value d) := by
  rw [value_cycleAt_eq length pos d]
  refine ⟨rfl, ?_, ?_, ?_⟩
  · intro kind
    have turned := w.turned_squareCycle kind pos
    exact ⟨turned, w.squareRun_of_turned pos turned⟩
  · intro kind
    exact ⟨w.turned_sawtoothCycle kind pos, w.sawtoothFills pos (le_of_cycleLength? length)⟩
  · intro v phase same kind
    have frequency : v.frequency = w.frequency := by rw [same]
    have length' : v.cycleLength? rate = some n := by
      rw [cycleLength?, frequency]
      exact length
    rw [value_cycleAt_eq length' pos d]
    exact perm_of_samePhase same kind pos

/-- A square wave that starts after a quarter of a turn. -/
def quarterTurn : ParametricWave :=
  { kind := .square, frequency := 250.0, phase := 90.0, amplitude := 1.0, dutyCycle := 40.0,
    valid := by constructor <;> decide }

def halfTurned : ParametricWave :=
  { kind := .square, frequency := 250.0, phase := 180.0, amplitude := 1.0, dutyCycle := 40.0,
    valid := by constructor <;> decide }

theorem phase_turns_cycle_quarterTurn :
    quarterTurn.cycleLength? 1000.0 = some 4 ∧ quarterTurn.advance 4 = 1 ∧
    quarterTurn.highLength 4 = 2 ∧
    Samples.Turned (quarterTurn.squareCycle 4) 1 ((quarterTurn.cycleAt 1000.0).value false) ∧
    quarterTurn.SquareRun 4 ((quarterTurn.cycleAt 1000.0).value false) ∧
    ((halfTurned.cycleAt 1000.0).value false).Perm ((quarterTurn.cycleAt 1000.0).value false) := by
  have length : quarterTurn.cycleLength? 1000.0 = some 4 := by decide +kernel
  obtain ⟨_, square, _, phases⟩ := phase_turns_cycle false length (by decide)
  obtain ⟨turned, run⟩ := square rfl
  have advance : quarterTurn.advance 4 = 1 := by decide +kernel
  rw [advance] at turned
  exact ⟨length, advance, by decide +kernel, turned, run,
    phases halfTurned 180.0 rfl (.inl rfl)⟩

end ParametricWave
end WaveSequencer
