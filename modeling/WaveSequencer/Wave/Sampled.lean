import WaveSequencer.Units
import WaveSequencer.Wave.Header

/-!
Waves given by the samples of one cycle. Their frequency depends on the sampling rate, so it is
known only once a rate is attached.
-/
namespace WaveSequencer
open Numeric Wire

structure SampledWave where
  /-- One cycle. -/
  samples : Array Int16
  cycles : UInt32
  rate : Option SamplingRate
  samples_ne_empty : samples ≠ #[]
  cycles_range : IsCycleCount cycles
  deriving DecidableEq

namespace SampledWave

instance : BEq SampledWave :=
  ⟨fun a b => a.samples == b.samples && a.cycles == b.cycles && a.rate == b.rate⟩

/-- Clips the values of one cycle to samples. -/
def build (values : Array Float) (cycles : UInt32) : Except Fault SampledWave :=
  if h : values = #[] then .error (.argument .noSamples)
  else if hc : IsCycleCount cycles then
    .ok ⟨values.map clip, cycles, none, by simpa using h, hc⟩
  else .error (.argument (.cycles cycles))

def attach (w : SampledWave) (rate : SamplingRate) : SampledWave := { w with rate := some rate }

@[simp] theorem samples_attach (w : SampledWave) (rate : SamplingRate) :
    (w.attach rate).samples = w.samples := rfl

@[simp] theorem cycles_attach (w : SampledWave) (rate : SamplingRate) :
    (w.attach rate).cycles = w.cycles := rfl

@[simp] theorem rate_attach (w : SampledWave) (rate : SamplingRate) :
    (w.attach rate).rate = some rate := rfl

/-- Cycles per microsecond at a sampling rate. -/
def frequencyAt (w : SampledWave) (rate : Float) : Float := rate / ofCount w.samples.size

def durationAt (w : SampledWave) (rate : Float) : Float :=
  Units.cycleTime w.cycles (w.frequencyAt rate)

def headerAt (w : SampledWave) (rate : Float) : WaveHeader :=
  { kind := WaveHeader.sampledCode, frequency := w.frequencyAt rate, cycles := w.cycles,
    sampleCount := w.samples.size }

def bytesAt (w : SampledWave) (rate : Float) : List UInt8 :=
  (w.headerAt rate).bytes ++ samplesBytes w.samples.toList

def attachedRate (w : SampledWave) : Except Fault Float :=
  match w.rate with
  | some rate => .ok rate.val
  | none => .error (.operation .noSamplingRate)

def frequency (w : SampledWave) : Except Fault Float := w.attachedRate.map w.frequencyAt

def duration (w : SampledWave) : Except Fault Float := w.attachedRate.map w.durationAt

def bytes (w : SampledWave) : Except Fault (List UInt8) := w.attachedRate.map w.bytesAt

@[simp] theorem length_bytesAt (w : SampledWave) (rate : Float) :
    (w.bytesAt rate).length = 84 + 2 * w.samples.size := by simp [bytesAt]

@[simp] theorem attachedRate_attach (w : SampledWave) (rate : SamplingRate) :
    (w.attach rate).attachedRate = .ok rate.val := rfl

end SampledWave
end WaveSequencer
