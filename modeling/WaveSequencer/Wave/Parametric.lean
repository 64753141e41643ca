import WaveSequencer.Numeric.Remainder
import WaveSequencer.Units
import WaveSequencer.Wave.Header
import WaveSequencer.Wave.Kind

/-!
Waves that the hardware computes from parameters. `ParametricWave.build` refuses the first
parameter out of range, in the order of the fields, and wraps the phase.
-/
namespace WaveSequencer
open Numeric

/-- Parameters as they are asked for. Frequency in MHz, phase in degrees, duty cycle in percent. -/
structure WaveParameters where
  kind : WaveKind
  frequency : Float
  phase : Float := 0.0
  amplitude : Float := 0.0
  offset : Float := 0.0
  cycles : UInt32 := 1
  /-- The part of a square cycle that is high. -/
  dutyCycle : Float := 50.0
  /-- Where in the first half of a sawtooth cycle the crest is, from 0 to 1. -/
  crest : Float := 1.0
  variance : Float := 1.0
  /-- The argument of the Gaussian at the start of a cycle. -/
  lower : Float := -2.0
  /-- The argument of the Gaussian at the end of a cycle. -/
  upper : Float := 2.0
  deriving BEq, DecidableEq

namespace WaveParameters

def fault? (p : WaveParameters) : Option ArgumentFault :=
  if ¬IsPositive p.frequency then some (.frequency p.frequency)
  else if ¬p.phase.isFinite then some (.phase p.phase)
  else if ¬IsNonnegative p.amplitude then some (.amplitude p.amplitude)
  else if ¬p.offset.isFinite then some (.offset p.offset)
  else if ¬IsCycleCount p.cycles then some (.cycles p.cycles)
  else if ¬(0.0 ≤ p.dutyCycle ∧ p.dutyCycle ≤ 100.0) then some (.dutyCycle p.dutyCycle)
  else if ¬(0.0 ≤ p.crest ∧ p.crest ≤ 1.0) then some (.crest p.crest)
  else if ¬IsPositive p.variance then some (.variance p.variance)
  else if ¬(p.lower.isFinite ∧ p.upper.isFinite ∧ p.lower < p.upper) then
    some (.domain p.lower p.upper)
  else none

/-- Every parameter is in range, and the phase within one turn. -/
structure Valid (p : WaveParameters) : Prop where
  frequency : IsPositive p.frequency
  phase : 0.0 ≤ p.phase ∧ p.phase < 360.0
  amplitude : IsNonnegative p.amplitude
  offset : p.offset.isFinite
  cycles : IsCycleCount p.cycles
  dutyCycle : 0.0 ≤ p.dutyCycle ∧ p.dutyCycle ≤ 100.0
  crest : 0.0 ≤ p.crest ∧ p.crest ≤ 1.0
  variance : IsPositive p.variance
  domain : p.lower.isFinite ∧ p.upper.isFinite ∧ p.lower < p.upper

def wrapPhase (p : WaveParameters) : WaveParameters := { p with phase := wrapCircle p.phase 360.0 }

theorem fault?_eq_none_iff {p : WaveParameters} : p.fault? = none ↔
    IsPositive p.frequency ∧ p.phase.isFinite ∧ IsNonnegative p.amplitude ∧ p.offset.isFinite ∧
      IsCycleCount p.cycles ∧ (0.0 ≤ p.dutyCycle ∧ p.dutyCycle ≤ 100.0) ∧
      (0.0 ≤ p.crest ∧ p.crest ≤ 1.0) ∧ IsPositive p.variance ∧
      (p.lower.isFinite ∧ p.upper.isFinite ∧ p.lower < p.upper) := by
  have step {c : Prop} [Decidable c] {cause : ArgumentFault} {rest : Option ArgumentFault} :
      (if ¬c then some cause else rest) = none ↔ c ∧ rest = none := by
    by_cases h : c <;> simp [h]
  simp only [fault?, step, and_true]

theorem valid_wrapPhase {p : WaveParameters} (h : p.fault? = none) : p.wrapPhase.Valid := by
  obtain ⟨frequency, _, amplitude, offset, cycles, dutyCycle, crest, variance, domain⟩ :=
    fault?_eq_none_iff.mp h
  exact ⟨frequency, wrapCircle_mem p.phase (by decide), amplitude, offset, cycles, dutyCycle,
    crest, variance, domain⟩

end WaveParameters

structure ParametricWave extends WaveParameters where
  valid : toWaveParameters.Valid
  deriving DecidableEq

namespace ParametricWave

instance : BEq ParametricWave := ⟨fun a b => a.toWaveParameters == b.toWaveParameters⟩

def build (p : WaveParameters) : Except Fault ParametricWave :=
  match h : p.fault? with
  | some cause => .error (.argument cause)
  | none => .ok ⟨p.wrapPhase, WaveParameters.valid_wrapPhase h⟩

def duration (w : ParametricWave) : Float := Units.cycleTime w.cycles w.frequency

def header (w : ParametricWave) : WaveHeader :=
  { kind := w.kind.code, frequency := w.frequency, phase := w.phase, amplitude := w.amplitude,
    offset := w.offset, cycles := w.cycles, dutyCycle := w.dutyCycle, crest := w.crest,
    variance := w.variance, lower := w.lower, upper := w.upper }

def bytes (w : ParametricWave) : List UInt8 := w.header.bytes

@[simp] theorem length_bytes (w : ParametricWave) : w.bytes.length = 84 := w.header.length_bytes

end ParametricWave
end WaveSequencer
