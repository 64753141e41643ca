import WaveSequencer.Samples
import WaveSequencer.Wave.Channels

/-!
One cycle of a parametric wave as samples. Every value is computed in binary64 and then clipped.
A phase shifts the argument of a sine or a Gaussian, and rotates a square or a sawtooth cycle.
-/
namespace WaveSequencer
open Numeric

/-- The nearest values to a half turn and a full turn in radians. -/
def halfTurn : Float := 3.141592653589793

def fullTurn : Float := 6.283185307179586

namespace ParametricWave

/-- Samples in one cycle, undefined above the limit of the hardware. -/
def cycleLength? (w : ParametricWave) (rate : Float) : Option Nat :=
  (Units.samplesPerCycle? rate w.frequency).filter (· ≤ Limits.samplesPerCycle)

def sineCycle (w : ParametricWave) (n : Nat) : List Int16 :=
  let phase := w.phase * (halfTurn / 180.0)
  (List.range n).map fun i =>
    clip (w.amplitude * (fullTurn * ofCount i / ofCount n + phase).sin + w.offset)

/-- How many of the `n` samples of a square cycle are high. -/
def highLength (w : ParametricWave) (n : Nat) : Nat :=
  if w.dutyCycle > 0.0 then
    min (truncate (ofCount (n - 1) * w.dutyCycle / 100.0)) (n - 1) + 1
  else 0

def squareCycle (w : ParametricWave) (n : Nat) : List Int16 :=
  List.replicate (w.highLength n) (clip (w.amplitude + w.offset)) ++
    List.replicate (n - w.highLength n) (clip (-w.amplitude + w.offset))

def line (length : Nat) (start rise : Float) : List Int16 :=
  let slope := rise / ofCount (max length 1)
  (List.range length).map fun j => clip (start + slope * ofCount j)

/-- The position of the highest sample in a sawtooth cycle, which lies in its first half. -/
def crestPosition (w : ParametricWave) (n : Nat) : Nat :=
  min (truncate (w.crest * 0.5 * ofCount (n - 1))) ((n - 1) / 2)

/-- The position of the lowest sample, as far from the end as the crest is from the start. -/
def valleyPosition (w : ParametricWave) (n : Nat) : Nat :=
  let valley := n - 1 - w.crestPosition n
  if valley = w.crestPosition n ∧ 1 < n then w.crestPosition n + 1 else valley

/-- Up to the crest, down to the valley, and back up to the offset. -/
def sawtoothCycle (w : ParametricWave) (n : Nat) : List Int16 :=
  let crest := w.crestPosition n
  let valley := w.valleyPosition n
  line crest w.offset w.amplitude ++
    line (valley - crest) (w.offset + w.amplitude) (-2.0 * w.amplitude) ++
    line (n - valley) (w.offset - w.amplitude) w.amplitude

def gaussianCycle (w : ParametricWave) (n : Nat) : List Int16 :=
  let span := w.upper - w.lower
  let step := span / ofCount n
  let shift := w.phase * span / 360.0
  let scale := w.amplitude / (2.0 * halfTurn * w.variance).sqrt
  (List.range n).map fun i =>
    let t := wrap (w.lower + ofCount i * step + shift) w.lower w.upper
    clip (scale * (-t * t / (2.0 * w.variance)).exp + w.offset)

/-- How far a phase advances a cycle of `n` samples, at most a whole cycle. -/
def advance (w : ParametricWave) (n : Nat) : Nat :=
  min (truncate (roundHalfAway (ofCount n * w.phase / 360.0))) n

/-- Moves a cycle to the right by what its phase leaves of a whole turn. -/
def turnedByPhase (w : ParametricWave) (cycle : List Int16) : List Int16 :=
  let shift := cycle.length - w.advance cycle.length
  Samples.rotatedRight (shift % cycle.length) cycle

def cycle (w : ParametricWave) (n : Nat) : List Int16 :=
  match w.kind with
  | .sine => w.sineCycle n
  | .square => w.turnedByPhase (w.squareCycle n)
  | .sawtooth => w.turnedByPhase (w.sawtoothCycle n)
  | .gaussian => w.gaussianCycle n

theorem highLength_le (w : ParametricWave) {n : Nat} (h : 0 < n) : w.highLength n ≤ n := by
  unfold highLength
  split <;> omega

@[simp] theorem length_line (length : Nat) (start rise : Float) :
    (line length start rise).length = length := by simp [line]

theorem crestPosition_le (w : ParametricWave) (n : Nat) : w.crestPosition n ≤ (n - 1) / 2 :=
  Nat.min_le_right _ _

/-- The crest comes before the valley unless the cycle is a single sample. -/
theorem crestPosition_lt_valleyPosition (w : ParametricWave) {n : Nat} (h : 1 < n) :
    w.crestPosition n < w.valleyPosition n := by
  have hc := w.crestPosition_le n
  simp only [valleyPosition]
  split <;> omega

theorem valleyPosition_lt (w : ParametricWave) {n : Nat} (h : 0 < n) :
    w.valleyPosition n < n := by
  have hc := w.crestPosition_le n
  simp only [valleyPosition]
  split <;> omega

theorem length_squareCycle (w : ParametricWave) {n : Nat} (h : 0 < n) :
    (w.squareCycle n).length = n := by
  have hn := w.highLength_le h
  simp only [squareCycle, List.length_append, List.length_replicate]
  omega

theorem length_sawtoothCycle (w : ParametricWave) {n : Nat} (h : 0 < n) :
    (w.sawtoothCycle n).length = n := by
  have hv := w.valleyPosition_lt h
  have hc : w.crestPosition n ≤ w.valleyPosition n := by
    have hle := w.crestPosition_le n
    simp only [valleyPosition]
    split <;> omega
  simp only [sawtoothCycle, List.length_append, length_line]
  omega

theorem length_cycle (w : ParametricWave) {n : Nat} (h : 0 < n) : (w.cycle n).length = n := by
  unfold cycle
  split
  · simp [sineCycle]
  · rw [turnedByPhase, Samples.length_rotatedRight, w.length_squareCycle h]
  · rw [turnedByPhase, Samples.length_rotatedRight, w.length_sawtoothCycle h]
  · simp [gaussianCycle]

end ParametricWave
end WaveSequencer
