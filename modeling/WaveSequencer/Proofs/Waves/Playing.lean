import WaveSequencer.Playback
import WaveSequencer.Proofs.Dump.Recording
import WaveSequencer.Proofs.Waves.Reachable

/-!
The samples that playing a sequence yields. Main statement: every sequence that comes about by
adding waves is played, and each of its steps repeats one cycle as often as its wave says.
-/
namespace WaveSequencer
open Numeric

theorem Attempt.value_map {α β : Type} (f : α → β) (x : Attempt α) (d : Bool) :
    (f <$> x).value d = (x.value d).map f := by
  rw [map_eq_pure_bind, Attempt.value_bind]
  cases x.value d <;> rfl

theorem Attempt.value_mapM_of_ok {α β : Type} {f : α → Attempt β} {g : α → β} {xs : List α}
    {d : Bool} (h : ∀ x ∈ xs, (f x).value d = .ok (g x)) :
    (xs.mapM f).value d = .ok (xs.map g) := by
  induction xs with
  | nil => rfl
  | cons x xs ih =>
    rw [List.mapM_cons, Attempt.value_bind, h x List.mem_cons_self]
    change (xs.mapM f >>= fun ys => pure (g x :: ys)).value d = _
    rw [Attempt.value_bind, ih fun y hy => h y (List.mem_cons_of_mem x hy)]
    rfl

theorem Synthesis.value_tile {cycle : List Int16} {cycles : UInt32}
    (fits : cycle.length * cycles.toNat ≤ Limits.samplesPerStep) (d : Bool) :
    (tile cycle cycles).value d = Samples.repeated cycles.toNat cycle := by
  rw [tile, if_pos fits]
  rfl

theorem Samples.padded_of_length_eq {n : Nat} {samples : List Int16} (h : samples.length = n) :
    padded n samples = samples := by
  rw [padded, h, Nat.sub_self, List.replicate_zero, List.append_nil]

/-- Equally long cycles need no padding, so padding is done in both cases. -/
theorem Synthesis.value_pad (i q : List Int16) (d : Bool) :
    (pad i q).value d = ⟨Samples.padded (max i.length q.length) i,
      Samples.padded (max i.length q.length) q⟩ := by
  rw [pad]
  split
  · next same =>
    rw [same, Nat.max_self, Samples.padded_of_length_eq same, Samples.padded_of_length_eq rfl]
    rfl
  · rfl

namespace ChannelWave
variable (rate : Float)

/-- One cycle: what a parametric wave is at this rate, or the samples that are given. -/
def baseCycle : ChannelWave → List Int16
  | parametric w => (w.cycleAt rate).value false
  | sampled w => w.samples.toList

/-- The diagnostics switch has no part in a cycle. -/
theorem value_cycleAt (w : ChannelWave) (d : Bool) :
    (w.cycleAt rate).value d = w.baseCycle rate := by
  cases w with
  | sampled w => rfl
  | parametric w =>
    simp only [baseCycle, cycleAt, ParametricWave.cycleAt]
    split <;> rfl

variable {rate} {w : ChannelWave}

theorem length_baseCycle {n : Nat} (h : w.cycleLength? rate = some n) :
    (w.baseCycle rate).length = n := by
  cases w with
  | sampled w => exact Option.some.inj h
  | parametric w =>
    rw [cycleLength?] at h
    simp only [baseCycle, ParametricWave.cycleAt, h]
    cases n with
    | zero => rfl
    | succ n => exact w.length_cycle (Nat.succ_pos n)

theorem value_synthesize {n : Nat} (h : w.cycleLength? rate = some n)
    (fits : n * w.cycles.toNat ≤ Limits.samplesPerStep) (d : Bool) :
    (w.synthesize rate).value d = Samples.repeated w.cycles.toNat (w.baseCycle rate) := by
  rw [synthesize, Logged.value_bind, value_cycleAt]
  exact Synthesis.value_tile (by rwa [length_baseCycle h]) d

end ChannelWave

namespace IqWave
variable (rate : Float) (w : IqWave)

/-- One cycle, the shorter channel padded with zeros. -/
def baseCycle : PairedSamples where
  i := Samples.padded (max (w.i.baseCycle rate).length (w.q.baseCycle rate).length)
    (w.i.baseCycle rate)
  q := Samples.padded (max (w.i.baseCycle rate).length (w.q.baseCycle rate).length)
    (w.q.baseCycle rate)
  same_length := by
    rw [Samples.length_padded, Samples.length_padded]
    omega

variable {rate w}

theorem length_baseCycle {n : Nat} (h : w.cycleLength? rate = some n) :
    (w.baseCycle rate).i.length = n := by
  obtain ⟨i, hi, q, hq, rfl⟩ : ∃ i, w.i.cycleLength? rate = some i ∧
      ∃ q, w.q.cycleLength? rate = some q ∧ max i q = n := by
    simpa [cycleLength?, Option.bind_eq_some_iff] using h
  rw [baseCycle, Samples.length_padded, ChannelWave.length_baseCycle hi,
    ChannelWave.length_baseCycle hq]
  omega

/-- Both channels repeat their padded cycles the same number of times. -/
theorem value_synthesize_eq (d : Bool) : (w.synthesize rate).value d =
    ⟨(Synthesis.tile (w.baseCycle rate).i w.cycles).value d,
      (Synthesis.tile (w.baseCycle rate).q w.cycles).value d⟩ := by
  have padded : ∀ d, (Synthesis.pad (w.i.baseCycle rate) (w.q.baseCycle rate)).value d =
      (w.baseCycle rate).toIqSamples := Synthesis.value_pad _ _
  simp only [synthesize, Logged.value_bind, ChannelWave.value_cycleAt, padded, ← w.same_cycles,
    Logged.value_pure]
  rfl

theorem value_synthesize {n : Nat} (h : w.cycleLength? rate = some n)
    (fits : n * w.cycles.toNat ≤ Limits.samplesPerStep) (d : Bool) :
    (w.synthesize rate).value d =
      ⟨Samples.repeated w.cycles.toNat (w.baseCycle rate).i,
        Samples.repeated w.cycles.toNat (w.baseCycle rate).q⟩ := by
  have hi := length_baseCycle h
  have hq : (w.baseCycle rate).q.length = n := (w.baseCycle rate).same_length ▸ hi
  rw [value_synthesize_eq, Synthesis.value_tile (by rw [hi]; exact fits),
    Synthesis.value_tile (by rw [hq]; exact fits)]

end IqWave

namespace Wave
variable (rate : Float)

/-- One cycle of a single channel. A wave with two channels has none. -/
def realCycle : Wave → List Int16
  | single w => w.baseCycle rate
  | iq _ => []

/-- One cycle of two channels. A wave with a single one has none. -/
def iqCycle : Wave → PairedSamples
  | single _ => ⟨⟨[], []⟩, rfl⟩
  | iq w => w.baseCycle rate

theorem cycles_pos (w : Wave) : 1 ≤ w.cycles := by
  cases w with
  | single w => exact w.cycles_range.1
  | iq w => exact w.i.cycles_range.1

variable {rate}

theorem stepLength?_ne_none_iff {w : Wave} : w.stepLength? rate ≠ none ↔
    ∃ n, w.cycleLength? rate = some n ∧ n * w.cycles.toNat ≤ Limits.samplesPerStep := by
  rw [stepLength?]
  cases w.cycleLength? rate with
  | none => simp
  | some n => simp [bind, Option.bind]

end Wave

/-- The time in ns that a step takes: the interval, but never less than its wave. -/
def WaveStep.playTime (rate : Float) (step : WaveStep) : Float :=
  larger step.interval (step.duration rate)

namespace WaveStep.Admitted
variable {rate : SamplingRate} {step : WaveStep}

/-- A step of a sequence with one channel holds a single wave, and all of its cycles fit. -/
theorem single (h : step.Admitted rate false) : ∃ w n, step.wave = .single w ∧
    w.cycleLength? rate.val = some n ∧ n * w.cycles.toNat ≤ Limits.samplesPerStep := by
  obtain ⟨n, length, fits⟩ := Wave.stepLength?_ne_none_iff.mp h.size
  have kind := h.kind
  cases wave : step.wave with
  | iq w =>
    rw [wave] at kind
    cases kind
  | single w =>
    rw [wave] at length fits
    exact ⟨w, n, rfl, length, fits⟩

theorem iq (h : step.Admitted rate true) : ∃ w n, step.wave = .iq w ∧
    w.cycleLength? rate.val = some n ∧ n * w.cycles.toNat ≤ Limits.samplesPerStep := by
  obtain ⟨n, length, fits⟩ := Wave.stepLength?_ne_none_iff.mp h.size
  have kind := h.kind
  cases wave : step.wave with
  | single w =>
    rw [wave] at kind
    cases kind
  | iq w =>
    rw [wave] at length fits
    exact ⟨w, n, rfl, length, fits⟩

end WaveStep.Admitted

namespace WaveSequence
variable {s : WaveSequence} {α : Type}

/-- A step with its samples and times. -/
def playedEntry (rate : Float) (samples : Wave → α) (e : UInt32 × WaveStep) :
    UInt32 × PlayedStep α :=
  (e.1, ⟨samples e.2.wave, e.2.duration rate, e.2.playTime rate⟩)

section
variable (missing : UInt32 → ArgumentFault) (sample : UInt32 → Wave → Attempt α)

theorem playStep_of_get? {id : UInt32} {step : WaveStep} (found : s.steps.get? id = some step) :
    s.playStep missing sample id = sample id step.wave >>= fun samples =>
      pure (id, ⟨samples, step.duration s.rate.val, step.playTime s.rate.val⟩) := by
  simp only [playStep, wave?, duration?, interval?, found, Option.map_some]
  rfl

/-- Every number of a sequence is found, so that no step is ever missing. -/
theorem playStep_of_mem_keys {id : UInt32} (h : id ∈ s.steps.keys) :
    ∃ step, (id, step) ∈ s.steps.toList ∧ s.playStep missing sample id =
      sample id step.wave >>= fun samples =>
        pure (id, ⟨samples, step.duration s.rate.val, step.playTime s.rate.val⟩) := by
  have present : s.steps.get? id ≠ none := fun absent => SortedMap.get?_eq_none_iff.mp absent h
  obtain ⟨step, found⟩ := Option.ne_none_iff_exists'.mp present
  exact ⟨step, SortedMap.mem_of_get? found, playStep_of_get? missing sample found⟩

theorem value_playWith (hs : s.Invariant) {samples : Wave → α} {d : Bool}
    (h : ∀ e ∈ s.steps.toList, (sample e.1 e.2.wave).value d = .ok (samples e.2.wave)) :
    (s.playWith missing sample).value d =
      .ok ⟨s.rate.val, .ofList (s.steps.toList.map (playedEntry s.rate.val samples))⟩ := by
  have played : (s.steps.keys.mapM (s.playStep missing sample)).value d =
      .ok (s.steps.toList.map (playedEntry s.rate.val samples)) := by
    have ids : s.steps.keys = s.steps.toList.map (·.1) := rfl
    rw [ids, List.mapM_map]
    apply Attempt.value_mapM_of_ok
    intro e he
    have found : s.steps.get? e.1 = some e.2 := SortedMap.get?_of_mem hs.ascending he
    rw [Function.comp_apply, playStep_of_get? missing sample found, Attempt.value_bind, h e he]
    rfl
  rw [playWith, Attempt.value_bind, played]
  rfl

end

variable (s)

/-- What playing the sequence yields. -/
def playback : Playback :=
  if s.isIq then
    .iq ⟨s.rate.val, .ofList (s.steps.toList.map (playedEntry s.rate.val fun w =>
      ⟨Samples.repeated w.cycles.toNat (w.iqCycle s.rate.val).i,
        Samples.repeated w.cycles.toNat (w.iqCycle s.rate.val).q⟩))⟩
  else
    .real ⟨s.rate.val, .ofList (s.steps.toList.map (playedEntry s.rate.val fun w =>
      Samples.repeated w.cycles.toNat (w.realCycle s.rate.val)))⟩

variable {s}

theorem value_playReal (hs : s.Invariant) (kind : s.isIq = false) (d : Bool) :
    s.playReal.value d = .ok ⟨s.rate.val, .ofList (s.steps.toList.map (playedEntry s.rate.val
      fun w => Samples.repeated w.cycles.toNat (w.realCycle s.rate.val)))⟩ := by
  rw [playReal, kind, if_neg Bool.false_ne_true]
  apply value_playWith _ _ hs
  intro e he
  obtain ⟨w, n, wave, length, fits⟩ := (kind ▸ hs.admitted e he).single
  rw [wave]
  exact congrArg Except.ok (ChannelWave.value_synthesize length fits d)

theorem value_playIq (hs : s.Invariant) (kind : s.isIq = true) (d : Bool) :
    s.playIq.value d = .ok ⟨s.rate.val, .ofList (s.steps.toList.map (playedEntry s.rate.val
      fun w => ⟨Samples.repeated w.cycles.toNat (w.iqCycle s.rate.val).i,
        Samples.repeated w.cycles.toNat (w.iqCycle s.rate.val).q⟩))⟩ := by
  rw [playIq, kind, if_pos rfl]
  apply value_playWith _ _ hs
  intro e he
  obtain ⟨w, n, wave, length, fits⟩ := (kind ▸ hs.admitted e he).iq
  rw [wave]
  exact congrArg Except.ok (IqWave.value_synthesize length fits d)

theorem value_play (hs : s.Invariant) (d : Bool) : s.play.value d = .ok s.playback := by
  cases kind : s.isIq with
  | true =>
    rw [play, playback, kind, if_pos rfl, if_pos rfl, Attempt.value_map, value_playIq hs kind]
    rfl
  | false =>
    rw [play, playback, kind, if_neg Bool.false_ne_true, if_neg Bool.false_ne_true,
      Attempt.value_map, value_playReal hs kind]
    rfl

end WaveSequence
end WaveSequencer
