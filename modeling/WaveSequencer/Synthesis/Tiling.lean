import WaveSequencer.Log.Logged
import WaveSequencer.Synthesis.Cycle

/-!
The samples of whole waves: one cycle, repeated as often as the wave says. A wave without samples
and a channel padded with zeros are reported by a warning.
-/
namespace WaveSequencer

namespace Synthesis

/-- The cycle the given number of times, unless that exceeds what a step can hold. -/
def tile (cycle : List Int16) (cycles : UInt32) : Logged (List Int16) :=
  if cycle.length * cycles.toNat ≤ Limits.samplesPerStep then
    return Samples.repeated cycles.toNat cycle
  else do
    Logged.emit (.stepTooLong cycles cycle.length)
    return []

def pad (i q : List Int16) : Logged IqSamples :=
  if i.length = q.length then return ⟨i, q⟩
  else do
    Logged.emit (.padding i.length q.length)
    let length := max i.length q.length
    return ⟨Samples.padded length i, Samples.padded length q⟩

end Synthesis

namespace ParametricWave

/-- One cycle at a sampling rate, empty where the wave has no samples. -/
def cycleAt (w : ParametricWave) (rate : Float) : Logged (List Int16) :=
  match w.cycleLength? rate with
  | none => do
    Logged.emit (.cycleTooLong w.frequency rate)
    return []
  | some 0 => do
    Logged.emit (.cycleEmpty w.frequency rate)
    return []
  | some (n + 1) => do
    Logged.emit (.sampling w.kind (n + 1))
    return w.cycle (n + 1)

end ParametricWave

namespace ChannelWave

def cycleLength? (rate : Float) : ChannelWave → Option Nat
  | parametric w => w.cycleLength? rate
  | sampled w => some w.samples.size

def cycleAt (rate : Float) : ChannelWave → Logged (List Int16)
  | parametric w => w.cycleAt rate
  | sampled w => return w.samples.toList

def synthesize (w : ChannelWave) (rate : Float) : Logged (List Int16) := do
  let cycle ← w.cycleAt rate
  Synthesis.tile cycle w.cycles

end ChannelWave

namespace IqWave

/-- Samples per channel in one cycle, that of the channel with the longer one. -/
def cycleLength? (rate : Float) (w : IqWave) : Option Nat := do
  let i ← w.i.cycleLength? rate
  let q ← w.q.cycleLength? rate
  return max i q

/-- The samples of all cycles of both channels. The shorter cycle is padded before it repeats. -/
def synthesize (w : IqWave) (rate : Float) : Logged IqSamples := do
  let iCycle ← w.i.cycleAt rate
  let qCycle ← w.q.cycleAt rate
  let cycle ← Synthesis.pad iCycle qCycle
  let i ← Synthesis.tile cycle.i w.i.cycles
  let q ← Synthesis.tile cycle.q w.q.cycles
  return ⟨i, q⟩

end IqWave

namespace Wave

def cycleLength? (rate : Float) : Wave → Option Nat
  | single w => w.cycleLength? rate
  | iq w => w.cycleLength? rate

/-- Samples per channel in all cycles, undefined above what a step can hold. -/
def stepLength? (w : Wave) (rate : Float) : Option Nat := do
  let cycle ← w.cycleLength? rate
  let length := cycle * w.cycles.toNat
  if length ≤ Limits.samplesPerStep then some length else none

end Wave
end WaveSequencer
