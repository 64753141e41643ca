import WaveSequencer.Fault
import WaveSequencer.Numeric.Rounding
import WaveSequencer.Wire.LittleEndian

/-!
What all waves share: the range of the cycle count, the sampling rate, and the 84-byte header that
starts the wire form of a channel.
-/
namespace WaveSequencer
open Numeric Wire

abbrev IsCycleCount (n : UInt32) : Prop := 1 ≤ n ∧ n ≤ Limits.cycles

abbrev SamplingRate : Type := { rate : Float // IsPositive rate }

def SamplingRate.check (rate : Float) : Except Fault SamplingRate :=
  if h : IsPositive rate then .ok ⟨rate, h⟩ else .error (.argument (.samplingRate rate))

instance : BEq SamplingRate := ⟨fun a b => a.val == b.val⟩

structure WaveHeader where
  kind : UInt32
  frequency : Float
  phase : Float := 0.0
  amplitude : Float := 0.0
  offset : Float := 0.0
  cycles : UInt32
  dutyCycle : Float := 0.0
  crest : Float := 0.0
  variance : Float := 0.0
  lower : Float := 0.0
  upper : Float := 0.0
  sampleCount : Nat := 0

namespace WaveHeader

/-- The number in place of a kind for waves given by samples. -/
def sampledCode : UInt32 := 1000

def bytes (h : WaveHeader) : List UInt8 :=
  wordBytes h.kind ++ floatBytes h.frequency ++ floatBytes h.phase ++ floatBytes h.amplitude ++
    floatBytes h.offset ++ wordBytes h.cycles ++ floatBytes h.dutyCycle ++ floatBytes h.crest ++
    floatBytes h.variance ++ floatBytes h.lower ++ floatBytes h.upper ++ countBytes h.sampleCount

@[simp] theorem length_bytes (h : WaveHeader) : h.bytes.length = 84 := by simp [bytes]

end WaveHeader
end WaveSequencer
