import WaveSequencer.Proofs.SortedMap.Order
import WaveSequencer.Proofs.Waves.CycleLimit

/-!
What holds of a sequence after any calls to add waves, accepted or refused. Main statement: every
wave in it can be sampled and serialized, so that playing the sequence never fails, and yields
samples of the announced length under the times of the sequence.
-/
namespace WaveSequencer
open Numeric

namespace Wave
variable {rate : Float} {w : Wave} {n : Nat}

theorem stepLength?_of_cycleLength? (h : w.cycleLength? rate = some n)
    (fits : n * w.cycles.toNat ≤ Limits.samplesPerStep) :
    w.stepLength? rate = some (n * w.cycles.toNat) := by
  rw [stepLength?, h]
  exact if_pos fits

end Wave

namespace SampledWave

/-- All that depends on a rate is known once one is attached. -/
theorem ok_of_rate {w : SampledWave} {rate : SamplingRate} (h : w.rate = some rate) :
    w.frequency = .ok (w.frequencyAt rate.val) ∧ w.duration = .ok (w.durationAt rate.val) ∧
      w.bytes = .ok (w.bytesAt rate.val) := by
  have attached : w.attachedRate = .ok rate.val := by rw [attachedRate, h]
  rw [frequency, duration, bytes, attached]
  exact ⟨rfl, rfl, rfl⟩

end SampledWave

/-- The steps of a sequence under their numbers. Each of the channels has as many samples as the
wave announces, and the times are those of the sequence. -/
structure PlayedSequence.Follows {α : Type} (p : PlayedSequence α) (s : WaveSequence)
    (channels : α → List (List Int16)) : Prop where
  rate : p.rate = s.rate.val
  ids : p.steps.keys = s.steps.keys
  step : ∀ e ∈ s.steps.toList, ∃ q, p.steps.get? e.1 = some q ∧
    (∀ c ∈ channels q.samples, e.2.wave.stepLength? s.rate.val = some c.length) ∧
    s.duration? e.1 = some q.duration ∧
    (s.interval? e.1).map (larger · q.duration) = some q.interval

/-- Of the two ways to play a sequence, the one of its kind yields this playback, and the other
one is refused. -/
def Playback.Follows (s : WaveSequence) (d : Bool) : Playback → Prop
  | .real p => s.isIq = false ∧ s.playReal.value d = .ok p ∧
      (∃ cause, s.playIq.value d = .error (.argument cause)) ∧ p.Follows s fun c => [c]
  | .iq p => s.isIq = true ∧ s.playIq.value d = .ok p ∧
      (∃ cause, s.playReal.value d = .error (.argument cause)) ∧ p.Follows s fun c => [c.i, c.q]

namespace WaveSequence
variable {s : WaveSequence}

/-- No wave is stored of which the samples or the wire form could not be had. -/
structure Sound (s : WaveSequence) : Prop where
  count : s.steps.size ≤ 32
  ascending : s.steps.keys.Pairwise (· < ·)
  kind : ∀ e ∈ s.steps.toList, e.2.wave.isIq = s.isIq
  sampled : ∀ e ∈ s.steps.toList, ∀ w, .sampled w ∈ e.2.wave.channels → w.rate = some s.rate ∧
    w.frequency = .ok (w.frequencyAt s.rate.val) ∧ w.duration = .ok (w.durationAt s.rate.val) ∧
    w.bytes = .ok (w.bytesAt s.rate.val)
  length : ∀ e ∈ s.steps.toList, ∃ n, e.2.wave.stepLength? s.rate.val = some n

theorem Reachable.sound (h : s.Reachable) : s.Sound where
  count := h.invariant.size
  ascending := h.invariant.ascending.imp Std.compare_eq_lt.mp
  kind e he := (h.invariant.admitted e he).kind
  sampled e he w hw := by
    have attached : (ChannelWave.sampled w).attach s.rate = .sampled w := by
      rw [← h.attached e he, Wave.channels_attach, List.mem_map] at hw
      obtain ⟨c, _, same⟩ := hw
      rw [← same, ChannelWave.attach_attach]
    have rate : w.rate = some s.rate :=
      (congrArg SampledWave.rate (ChannelWave.sampled.inj attached)).symm
    exact ⟨rate, SampledWave.ok_of_rate rate⟩
  length e he := Option.ne_none_iff_exists'.mp (h.invariant.admitted e he).size

/-- A step with its samples and times. -/
def playedStep {α : Type} (rate : Float) (samples : Wave → α) (step : WaveStep) : PlayedStep α :=
  ⟨samples step.wave, step.duration rate, step.playTime rate⟩

/-- The entries of a playback need not be sorted again. -/
theorem ofList_playedEntry {α : Type} (hs : s.Invariant) (samples : Wave → α) :
    .ofList (s.steps.toList.map (playedEntry s.rate.val samples)) =
      s.steps.entries.mapValues (playedStep s.rate.val samples) := by
  rw [← hs.ascending.ofList_toList, SortedMap.mapValues_ofList]
  rfl

theorem follows_playedEntry {α : Type} (hs : s.Invariant) {samples : Wave → α}
    {channels : α → List (List Int16)}
    (length : ∀ e ∈ s.steps.toList, ∀ c ∈ channels (samples e.2.wave),
      e.2.wave.stepLength? s.rate.val = some c.length) :
    PlayedSequence.Follows
      ⟨s.rate.val, .ofList (s.steps.toList.map (playedEntry s.rate.val samples))⟩ s channels := by
  rw [ofList_playedEntry hs]
  constructor
  · rfl
  · exact SortedMap.keys_mapValues _ _
  · intro e he
    have found : s.steps.get? e.1 = some e.2 := SortedMap.get?_of_mem hs.ascending he
    have played : (s.steps.entries.mapValues (playedStep s.rate.val samples)).get? e.1 =
        some (playedStep s.rate.val samples e.2) :=
      (SortedMap.get?_mapValues _ _ _).trans (congrArg (Option.map _) found)
    refine ⟨_, played, length e he, ?_, ?_⟩
    · rw [duration?, found]
      rfl
    · rw [interval?, found]
      rfl

theorem playback_follows (hs : s.Invariant) (d : Bool) : s.playback.Follows s d := by
  cases kind : s.isIq with
  | false =>
    rw [playback, kind, if_neg Bool.false_ne_true]
    refine ⟨kind, value_playReal hs kind d, ⟨.sequenceKind true, ?_⟩, follows_playedEntry hs ?_⟩
    · rw [playIq, kind]
      rfl
    · intro e he c hc
      obtain rfl := List.mem_singleton.mp hc
      obtain ⟨w, n, wave, length, fits⟩ := (kind ▸ hs.admitted e he).single
      rw [Samples.length_repeated, wave, Wave.realCycle, ChannelWave.length_baseCycle length]
      exact Wave.stepLength?_of_cycleLength? length fits
  | true =>
    rw [playback, kind, if_pos rfl]
    refine ⟨kind, value_playIq hs kind d, ⟨.sequenceKind false, ?_⟩, follows_playedEntry hs ?_⟩
    · rw [playReal, kind]
      rfl
    · intro e he c hc
      obtain ⟨w, n, wave, length, fits⟩ := (kind ▸ hs.admitted e he).iq
      have cycle := IqWave.length_baseCycle length
      have same := (w.baseCycle s.rate.val).same_length
      rw [wave] at hc ⊢
      rcases List.mem_pair.mp hc with rfl | rfl
      · rw [Samples.length_repeated, Wave.iqCycle, cycle]
        exact Wave.stepLength?_of_cycleLength? length fits
      · rw [Samples.length_repeated, Wave.iqCycle, ← same, cycle]
        exact Wave.stepLength?_of_cycleLength? length fits

/-- After any calls every stored wave can be sampled and serialized, and the sequence is played. -/
theorem plays_after_calls {rate : Float} {isIq : Bool} {start : WaveSequence}
    (created : create rate isIq = .ok start) (calls : List WaveCall) (d : Bool) :
    (afterCalls addCall start calls).Sound ∧
      ∃ p, (afterCalls addCall start calls).play.value d = .ok p ∧
        p.Follows (afterCalls addCall start calls) d := by
  have reachable := (Reachable.create created).afterCalls calls
  exact ⟨reachable.sound, _, value_play reachable.invariant d,
    playback_follows reachable.invariant d⟩

/-- A wave that is accepted, its number once more, and a wave of the wrong kind. -/
def someRefused : List WaveCall :=
  [(9, .iq .toneAndBuffer, 0.0), (9, .iq .buffers, 0.0), (3, .single .buffer, 0.0)]

theorem plays_after_calls_someRefused :
    (afterCalls addCall (empty .thousand true) someRefused).steps.keys = [9] ∧
    ∃ p, (afterCalls addCall (empty .thousand true) someRefused).play.value false = .ok p ∧
      p.Follows (afterCalls addCall (empty .thousand true) someRefused) false := by
  have played := plays_after_calls (create_empty .thousand true) someRefused false
  exact ⟨by decide +kernel, played.2⟩

end WaveSequence
end WaveSequencer
