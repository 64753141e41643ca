import WaveSequencer.Capture.Config
import WaveSequencer.Dump.Decode

/-!
The diagnostics switch. Emitting an event is the only step that looks at it, and steps that are put
together pass it on. Main statement: whatever here can log has the same result with the switch on
and off, and logs the same apart from the events of level `debug`.
-/
namespace WaveSequencer
open Log

def Log.withoutDebug (events : List Event) : List Event := events.filter (·.level ≠ .debug)

/-- The switch has no influence on the value, and takes away the debug events and no others. -/
structure Logged.Transparent {α : Type} (x : Logged α) : Prop where
  value : x.value true = x.value false
  events : x.events false = withoutDebug (x.events true)

namespace Logged.Transparent
variable {α β : Type} {x : Logged α}

theorem pure (a : α) : (Pure.pure a : Logged α).Transparent := ⟨rfl, rfl⟩

theorem emit (e : Event) : (Logged.emit e).Transparent where
  value := rfl
  events := by
    simp only [events_emit, withoutDebug]
    by_cases h : e.level = .debug <;> simp [h]

theorem bind {f : α → Logged β} (hx : x.Transparent) (hf : ∀ a, (f a).Transparent) :
    (x >>= f).Transparent where
  value := by
    rw [value_bind, value_bind, hx.value]
    exact (hf _).value
  events := by
    rw [events_bind, events_bind, hx.events, (hf _).events, hx.value, withoutDebug, withoutDebug,
      withoutDebug, List.filter_append]

/-- An event before a result. -/
theorem emit_then (e : Event) (hx : x.Transparent) :
    (Logged.emit e >>= fun _ => x).Transparent := (emit e).bind fun _ => hx

end Logged.Transparent

namespace Attempt

/-- The same of a computation that may fail, of which the fault is a part of the value. -/
abbrev Transparent {α : Type} (x : Attempt α) : Prop := Logged.Transparent x.run

namespace Transparent
variable {α β : Type} {x : Attempt α}

theorem pure (a : α) : (Pure.pure a : Attempt α).Transparent := Logged.Transparent.pure _

theorem throw (cause : Fault) : (MonadExcept.throw cause : Attempt α).Transparent :=
  Logged.Transparent.pure _

theorem ofExcept (result : Except Fault α) : (Attempt.ofExcept result).Transparent :=
  Logged.Transparent.pure _

theorem ofLogged {x : Logged α} (h : x.Transparent) : (Attempt.ofLogged x).Transparent :=
  h.bind fun _ => Logged.Transparent.pure _

/-- After a fault nothing runs any more, with the switch on or off. -/
theorem bind {f : α → Attempt β} (hx : x.Transparent) (hf : ∀ a, (f a).Transparent) :
    (x >>= f).Transparent := by
  change (x.run >>= ExceptT.bindCont f).Transparent
  apply Logged.Transparent.bind hx
  intro result
  cases result with
  | ok a => exact hf a
  | error cause => exact Logged.Transparent.pure _

theorem map (f : α → β) (hx : x.Transparent) : (f <$> x).Transparent := by
  rw [map_eq_pure_bind]
  exact hx.bind fun _ => pure _

theorem mapM {f : α → Attempt β} (hf : ∀ a, (f a).Transparent) (xs : List α) :
    (xs.mapM f).Transparent := by
  induction xs with
  | nil => exact pure []
  | cons a rest ih =>
    rw [List.mapM_cons]
    exact (hf a).bind fun _ => ih.bind fun _ => pure _

end Transparent
end Attempt

theorem Synthesis.tile_transparent (cycle : List Int16) (cycles : UInt32) :
    (tile cycle cycles).Transparent := by
  unfold tile
  split
  · exact .pure _
  · exact .emit_then _ (.pure _)

theorem Synthesis.pad_transparent (i q : List Int16) : (pad i q).Transparent := by
  unfold pad
  split
  · exact .pure _
  · exact .emit_then _ (.pure _)

theorem ParametricWave.cycleAt_transparent (w : ParametricWave) (rate : Float) :
    (w.cycleAt rate).Transparent := by
  unfold cycleAt
  split <;> exact .emit_then _ (.pure _)

namespace ChannelWave

theorem cycleAt_transparent (rate : Float) (w : ChannelWave) : (w.cycleAt rate).Transparent := by
  cases w with
  | parametric w => exact w.cycleAt_transparent rate
  | sampled w => exact .pure _

theorem synthesize_transparent (w : ChannelWave) (rate : Float) :
    (w.synthesize rate).Transparent :=
  (w.cycleAt_transparent rate).bind fun _ => Synthesis.tile_transparent _ _

end ChannelWave

theorem IqWave.synthesize_transparent (w : IqWave) (rate : Float) :
    (w.synthesize rate).Transparent :=
  (w.i.cycleAt_transparent rate).bind fun _ => (w.q.cycleAt_transparent rate).bind fun _ =>
    (Synthesis.pad_transparent _ _).bind fun _ => (Synthesis.tile_transparent _ _).bind fun _ =>
      (Synthesis.tile_transparent _ _).bind fun _ => .pure _

namespace WaveSequence
variable {α : Type}

theorem playStep_transparent (missing : UInt32 → ArgumentFault)
    {sample : UInt32 → Wave → Attempt α} (h : ∀ id wave, (sample id wave).Transparent)
    (s : WaveSequence) (id : UInt32) : (s.playStep missing sample id).Transparent := by
  unfold playStep
  split
  · exact (h _ _).bind fun _ => .pure _
  · exact .throw _

theorem playWith_transparent (missing : UInt32 → ArgumentFault)
    {sample : UInt32 → Wave → Attempt α} (h : ∀ id wave, (sample id wave).Transparent)
    (s : WaveSequence) : (s.playWith missing sample).Transparent :=
  (Attempt.Transparent.mapM (s.playStep_transparent missing h) _).bind fun _ => .pure _

theorem playReal_transparent (s : WaveSequence) : s.playReal.Transparent := by
  unfold playReal
  split
  · exact .throw _
  · apply playWith_transparent
    intro id wave
    cases wave with
    | single w => exact .ofLogged (w.synthesize_transparent _)
    | iq w => exact .throw _

theorem playIq_transparent (s : WaveSequence) : s.playIq.Transparent := by
  unfold playIq
  split
  · apply playWith_transparent
    intro id wave
    cases wave with
    | single w => exact .throw _
    | iq w => exact .ofLogged (w.synthesize_transparent _)
  · exact .throw _

theorem play_transparent (s : WaveSequence) : s.play.Transparent := by
  unfold play
  split
  · exact s.playIq_transparent.map _
  · exact s.playReal_transparent.map _

end WaveSequence

/-- One step after the other, up to the first one that cannot be decoded. -/
theorem ChannelFormat.decodeSteps_transparent {α : Type} (format : ChannelFormat α)
    (layout : ValidLayout) (rate : Float) (dump : Dump) (index : Nat) (records : List StepRecord)
    (steps : SortedMap UInt32 (PlayedStep α)) :
    (format.decodeSteps layout rate dump index records steps).Transparent := by
  induction records generalizing index steps with
  | nil => exact .pure steps
  | cons record rest ih =>
    rw [decodeSteps]
    split
    · exact .throw _
    · apply Attempt.Transparent.bind (.ofExcept _)
      intro step
      exact (Attempt.Transparent.ofLogged (.emit _)).bind fun _ => ih _ _

theorem Dump.decode_transparent (layout : ValidLayout) (dump : Dump) :
    (decode layout dump).Transparent := by
  apply Attempt.Transparent.bind (.ofExcept _)
  rintro ⟨descriptor, rate⟩
  have report (e : Event) (playback : Playback) :
      (Attempt.ofLogged (Logged.emit e) >>= fun _ => pure playback).Transparent :=
    (Attempt.Transparent.ofLogged (.emit e)).bind fun _ => .pure playback
  dsimp only
  split
  · exact (ChannelFormat.decodeSteps_transparent ..).bind fun _ => report _ _
  · exact (ChannelFormat.decodeSteps_transparent ..).bind fun _ => report _ _

/-- Sampling, serializing, playing and decoding have the same results with diagnostics on and off,
and without diagnostics they log what they log with them, less the debug events. -/
theorem diagnostics_only_add_debug :
    (∀ e, (Logged.emit e).Transparent) ∧
    (∀ (w : ParametricWave) (rate : Float), (w.cycleAt rate).Transparent) ∧
    (∀ (w : ChannelWave) (rate : Float), (w.synthesize rate).Transparent) ∧
    (∀ (w : IqWave) (rate : Float), (w.synthesize rate).Transparent) ∧
    (∀ s : WaveSequence, s.serialize.Transparent) ∧
    (∀ c : CaptureConfig, c.serialize.Transparent) ∧
    (∀ s : WaveSequence, s.playReal.Transparent ∧ s.playIq.Transparent ∧ s.play.Transparent) ∧
    ∀ (layout : ValidLayout) (dump : Dump), (dump.decode layout).Transparent := by
  refine ⟨.emit, ?_, ?_, ?_, ?_, ?_, ?_, Dump.decode_transparent⟩
  · exact ParametricWave.cycleAt_transparent
  · exact ChannelWave.synthesize_transparent
  · exact IqWave.synthesize_transparent
  · exact fun _ => .emit_then _ (.pure _)
  · exact fun _ => .emit_then _ (.pure _)
  · intro s
    exact ⟨s.playReal_transparent, s.playIq_transparent, s.play_transparent⟩

end WaveSequencer
