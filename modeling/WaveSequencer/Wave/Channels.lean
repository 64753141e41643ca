import WaveSequencer.Wave.Parametric
import WaveSequencer.Wave.Sampled

/-!
The waves that a sequence can play: one channel, or an in-phase and a quadrature channel together.
A channel is a parametric wave or one given by samples.
-/
namespace WaveSequencer
open Numeric

inductive ChannelWave where
  | parametric (wave : ParametricWave)
  | sampled (wave : SampledWave)
  deriving BEq, DecidableEq

namespace ChannelWave

def cycles : ChannelWave → UInt32
  | parametric w => w.cycles
  | sampled w => w.cycles

def frequency : ChannelWave → Except Fault Float
  | parametric w => .ok w.frequency
  | sampled w => w.frequency

def duration : ChannelWave → Except Fault Float
  | parametric w => .ok w.duration
  | sampled w => w.duration

/-- Output time at a sampling rate, on which a parametric wave does not depend. -/
def durationAt (rate : Float) : ChannelWave → Float
  | parametric w => w.duration
  | sampled w => w.durationAt rate

def attach (rate : SamplingRate) : ChannelWave → ChannelWave
  | parametric w => parametric w
  | sampled w => sampled (w.attach rate)

def bytesAt (rate : Float) : ChannelWave → List UInt8
  | parametric w => w.bytes
  | sampled w => w.bytesAt rate

@[simp] theorem cycles_attach (rate : SamplingRate) (w : ChannelWave) :
    (w.attach rate).cycles = w.cycles := by cases w <;> rfl

theorem cycles_range (w : ChannelWave) : IsCycleCount w.cycles := by
  cases w with
  | parametric w => exact w.valid.cycles
  | sampled w => exact w.cycles_range

/-- Attaching a rate does not change what is computed for an explicit rate. -/
@[simp] theorem durationAt_attach (rate : SamplingRate) (r : Float) (w : ChannelWave) :
    (w.attach rate).durationAt r = w.durationAt r := by cases w <;> rfl

@[simp] theorem bytesAt_attach (rate : SamplingRate) (r : Float) (w : ChannelWave) :
    (w.attach rate).bytesAt r = w.bytesAt r := by cases w <;> rfl

@[simp] theorem attach_attach (rate : SamplingRate) (w : ChannelWave) :
    (w.attach rate).attach rate = w.attach rate := by cases w <;> rfl

/-- With a rate attached, the duration is the one at that rate. -/
@[simp] theorem duration_attach (rate : SamplingRate) (w : ChannelWave) :
    (w.attach rate).duration = .ok (w.durationAt rate.val) := by cases w <;> rfl

end ChannelWave

/-- Two channels that repeat the same number of times. -/
structure IqWave where
  i : ChannelWave
  q : ChannelWave
  same_cycles : i.cycles = q.cycles
  deriving DecidableEq

namespace IqWave

instance : BEq IqWave := ⟨fun a b => a.i == b.i && a.q == b.q⟩

def build (i q : ChannelWave) : Except Fault IqWave :=
  if h : i.cycles = q.cycles then .ok ⟨i, q, h⟩
  else .error (.argument (.cycleMismatch i.cycles q.cycles))

def cycles (w : IqWave) : UInt32 := w.i.cycles

def duration (w : IqWave) : Except Fault Float := do
  let i ← w.i.duration
  let q ← w.q.duration
  return larger i q

def durationAt (rate : Float) (w : IqWave) : Float :=
  larger (w.i.durationAt rate) (w.q.durationAt rate)

def attach (rate : SamplingRate) (w : IqWave) : IqWave :=
  ⟨w.i.attach rate, w.q.attach rate, by simpa using w.same_cycles⟩

def bytesAt (rate : Float) (w : IqWave) : List UInt8 := w.i.bytesAt rate ++ w.q.bytesAt rate

end IqWave

inductive Wave where
  | single (wave : ChannelWave)
  | iq (wave : IqWave)
  deriving BEq, DecidableEq

namespace Wave

def isIq : Wave → Bool
  | single _ => false
  | iq _ => true

def cycles : Wave → UInt32
  | single w => w.cycles
  | iq w => w.cycles

def duration : Wave → Except Fault Float
  | single w => w.duration
  | iq w => w.duration

def durationAt (rate : Float) : Wave → Float
  | single w => w.durationAt rate
  | iq w => w.durationAt rate

def attach (rate : SamplingRate) : Wave → Wave
  | single w => single (w.attach rate)
  | iq w => iq (w.attach rate)

def bytesAt (rate : Float) : Wave → List UInt8
  | single w => w.bytesAt rate
  | iq w => w.bytesAt rate

@[simp] theorem isIq_attach (rate : SamplingRate) (w : Wave) : (w.attach rate).isIq = w.isIq := by
  cases w <;> rfl

@[simp] theorem cycles_attach (rate : SamplingRate) (w : Wave) :
    (w.attach rate).cycles = w.cycles := by
  cases w with
  | single w => exact w.cycles_attach rate
  | iq w => exact w.i.cycles_attach rate

@[simp] theorem durationAt_attach (rate : SamplingRate) (r : Float) (w : Wave) :
    (w.attach rate).durationAt r = w.durationAt r := by
  cases w <;> simp [attach, durationAt, IqWave.attach, IqWave.durationAt]

@[simp] theorem bytesAt_attach (rate : SamplingRate) (r : Float) (w : Wave) :
    (w.attach rate).bytesAt r = w.bytesAt r := by
  cases w <;> simp [attach, bytesAt, IqWave.attach, IqWave.bytesAt]

@[simp] theorem attach_attach (rate : SamplingRate) (w : Wave) :
    (w.attach rate).attach rate = w.attach rate := by
  cases w <;> simp [attach, IqWave.attach]

theorem duration_attach (rate : SamplingRate) (w : Wave) :
    (w.attach rate).duration = .ok (w.durationAt rate.val) := by
  cases w with
  | single w => exact w.duration_attach rate
  | iq w => simp [attach, duration, durationAt, IqWave.attach, IqWave.duration,
      IqWave.durationAt, bind, Except.bind, pure, Except.pure]

end Wave
end WaveSequencer
