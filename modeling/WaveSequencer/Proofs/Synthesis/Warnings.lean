import WaveSequencer.Proofs.Synthesis.Repetition

/-!
What sampling warns of. Main statement: a channel is sampled to nothing exactly under one warning,
two channels are sampled without a warning exactly if neither loses or gains a sample, and playing a
sequence never finds a wave too long, since such a wave is not stored.
-/
namespace WaveSequencer
open Log

namespace Log

def warnings (events : List Event) : List Event := events.filter (·.level = .warn)

theorem warnings_append (first second : List Event) :
    warnings (first ++ second) = warnings first ++ warnings second := List.filter_append ..

namespace Event

def isPadding : Event → Bool
  | padding .. => true
  | _ => false

/-- A cycle is too long for the hardware, or all cycles together are for a step. -/
def isOverlong : Event → Bool
  | cycleTooLong .. | stepTooLong .. => true
  | _ => false

end Event
end Log

namespace Synthesis

theorem events_tile (cycle : List Int16) (cycles : UInt32) (d : Bool) :
    (tile cycle cycles).events d =
      if cycle.length * cycles.toNat ≤ Limits.samplesPerStep then []
      else [.stepTooLong cycles cycle.length] := by
  rw [tile]
  split <;> rfl

theorem events_pad (i q : List Int16) (d : Bool) :
    (pad i q).events d = if i.length = q.length then [] else [.padding i.length q.length] := by
  rw [pad]
  split <;> rfl

end Synthesis

namespace ChannelWave
variable (c : ChannelWave) (rate : Float) (d : Bool)

/-- The events of one cycle: why there is none, or how many samples are computed. -/
theorem events_cycleAt : (c.cycleAt rate).events d = match c with
    | .sampled _ => []
    | .parametric w => match w.cycleLength? rate with
      | none => [.cycleTooLong w.frequency rate]
      | some 0 => [.cycleEmpty w.frequency rate]
      | some (n + 1) => if d then [.sampling w.kind (n + 1)] else [] := by
  cases c with
  | sampled w => rfl
  | parametric w =>
    simp only [cycleAt, ParametricWave.cycleAt]
    cases w.cycleLength? rate with
    | none => rfl
    | some n => cases n <;> cases d <;> rfl

theorem events_synthesize : (c.synthesize rate).events d =
    (c.cycleAt rate).events d ++ (Synthesis.tile (c.baseCycle rate) c.cycles).events d := by
  rw [synthesize, Logged.events_bind, value_cycleAt]

theorem baseCycle_eq_nil_iff : c.baseCycle rate = [] ↔ (c.cycleLength? rate).getD 0 = 0 := by
  rw [← List.length_eq_zero_iff, length_baseCycle_eq]

/-- Exactly an empty cycle is warned of. -/
theorem length_warnings_cycleAt :
    (warnings ((c.cycleAt rate).events d)).length = if c.baseCycle rate = [] then 1 else 0 := by
  rw [events_cycleAt]
  cases c with
  | sampled w =>
    have some : (sampled w).baseCycle rate ≠ [] := by
      simpa [baseCycle, cycleAt] using w.samples_ne_empty
    rw [if_neg some]
    rfl
  | parametric w =>
    simp only [baseCycle_eq_nil_iff, cycleLength?]
    cases w.cycleLength? rate with
    | none => rfl
    | some n => cases n <;> cases d <;> rfl

theorem warnings_cycleAt_eq_nil_iff :
    warnings ((c.cycleAt rate).events d) = [] ↔ c.baseCycle rate ≠ [] := by
  rw [← List.length_eq_zero_iff, length_warnings_cycleAt]
  split <;> simp_all

theorem filter_isPadding_cycleAt : ((c.cycleAt rate).events d).filter (·.isPadding) = [] := by
  rw [events_cycleAt]
  split
  · rfl
  · split
    · rfl
    · rfl
    · cases d <;> rfl

/-- There is nothing to repeat, or too much. -/
theorem synthesize_eq_nil_iff : (c.synthesize rate).value d = [] ↔
    ((c.baseCycle rate).length * c.cycles.toNat ≤ Limits.samplesPerStep → c.baseCycle rate = []) := by
  have repeats : c.cycles.toNat ≠ 0 := Nat.pos_iff_ne_zero.mp c.cycles_range.1
  rw [← List.length_eq_zero_iff, (c.tiles_synthesize rate d).length]
  split <;> simp_all

/-- A channel is sampled to nothing under one warning, and to something under none. -/
theorem length_warnings_synthesize : (warnings ((c.synthesize rate).events d)).length =
    if (c.synthesize rate).value d = [] then 1 else 0 := by
  rw [events_synthesize, warnings_append, List.length_append, length_warnings_cycleAt,
    Synthesis.events_tile]
  simp only [synthesize_eq_nil_iff]
  by_cases fits : (c.baseCycle rate).length * c.cycles.toNat ≤ Limits.samplesPerStep
  · simp [fits, warnings]
  · -- Cycles that are too long together are not empty, so there is one warning here as well.
    have filled : c.baseCycle rate ≠ [] := by
      intro empty
      rw [empty, List.length_nil, Nat.zero_mul] at fits
      exact fits (Nat.zero_le _)
    rw [if_neg fits, if_neg filled, if_pos (absurd · fits)]
    rfl

theorem not_overlong_cycleAt {n : ℕ} (length : c.cycleLength? rate = some n) :
    ∀ e ∈ (c.cycleAt rate).events d, e.isOverlong = false := by
  rw [events_cycleAt]
  cases c with
  | sampled w => exact fun _ he => absurd he List.not_mem_nil
  | parametric w =>
    rw [cycleLength?] at length
    simp only [length]
    cases n with
    | zero => simp [Event.isOverlong]
    | succ n => cases d <;> simp [Event.isOverlong]

end ChannelWave

namespace IqWave
variable (w : IqWave) (rate : Float) (d : Bool)

theorem events_synthesize : (w.synthesize rate).events d =
    (w.i.cycleAt rate).events d ++ ((w.q.cycleAt rate).events d ++
      ((Synthesis.pad (w.i.baseCycle rate) (w.q.baseCycle rate)).events d ++
        ((Synthesis.tile (w.baseCycle rate).i w.cycles).events d ++
          (Synthesis.tile (w.baseCycle rate).q w.cycles).events d))) := by
  have padded : (Synthesis.pad (w.i.baseCycle rate) (w.q.baseCycle rate)).value d =
      (w.baseCycle rate).toIqSamples := Synthesis.value_pad _ _ d
  simp only [synthesize, Logged.events_bind, ChannelWave.value_cycleAt, padded, ← w.same_cycles,
    Logged.events_pure, List.append_nil]
  rfl

/-- Without a warning, no sample is missing from either channel and none is added. -/
theorem warnings_synthesize_eq_nil_iff : warnings ((w.synthesize rate).events d) = [] ↔
    w.i.baseCycle rate ≠ [] ∧ w.q.baseCycle rate ≠ [] ∧
      (w.i.baseCycle rate).length = (w.q.baseCycle rate).length ∧
      (w.i.baseCycle rate).length * w.cycles.toNat ≤ Limits.samplesPerStep := by
  have padding : warnings ((Synthesis.pad (w.i.baseCycle rate) (w.q.baseCycle rate)).events d) = []
      ↔ (w.i.baseCycle rate).length = (w.q.baseCycle rate).length := by
    rw [Synthesis.events_pad]
    split <;> simp_all [warnings, Event.level]
  have tiling (cycle : List Int16) : warnings ((Synthesis.tile cycle w.cycles).events d) = [] ↔
      cycle.length * w.cycles.toNat ≤ Limits.samplesPerStep := by
    rw [Synthesis.events_tile]
    split <;> simp_all [warnings, Event.level]
  have longer : (w.baseCycle rate).i.length =
      max (w.i.baseCycle rate).length (w.q.baseCycle rate).length := by
    rw [baseCycle, Samples.length_padded]
    omega
  rw [events_synthesize, warnings_append, warnings_append, warnings_append, warnings_append]
  simp only [List.append_eq_nil_iff, ChannelWave.warnings_cycleAt_eq_nil_iff, padding, tiling,
    ← (w.baseCycle rate).same_length, longer, and_self]
  apply and_congr_right
  intro _
  apply and_congr_right
  intro _
  apply and_congr_right
  intro same
  rw [same, Nat.max_self]

/-- Padding is warned of exactly if there is padding. -/
theorem filter_isPadding_synthesize : ((w.synthesize rate).events d).filter (·.isPadding) =
    if (w.i.baseCycle rate).length = (w.q.baseCycle rate).length then []
    else [.padding (w.i.baseCycle rate).length (w.q.baseCycle rate).length] := by
  have tiling (cycle : List Int16) :
      ((Synthesis.tile cycle w.cycles).events d).filter (·.isPadding) = [] := by
    rw [Synthesis.events_tile]
    split <;> rfl
  rw [events_synthesize]
  simp only [List.filter_append, ChannelWave.filter_isPadding_cycleAt, tiling, List.nil_append,
    List.append_nil, Synthesis.events_pad]
  split <;> rfl

end IqWave

namespace Synthesis

theorem not_overlong_tile {cycle : List Int16} {cycles : UInt32}
    (fits : cycle.length * cycles.toNat ≤ Limits.samplesPerStep) (d : Bool) :
    ∀ e ∈ (tile cycle cycles).events d, e.isOverlong = false := by
  rw [events_tile, if_pos fits]
  exact fun _ he => absurd he List.not_mem_nil

end Synthesis

theorem ChannelWave.not_overlong_synthesize {c : ChannelWave} {rate : Float} {n : ℕ}
    (length : c.cycleLength? rate = some n) (fits : n * c.cycles.toNat ≤ Limits.samplesPerStep)
    (d : Bool) : ∀ e ∈ (c.synthesize rate).events d, e.isOverlong = false := by
  intro e he
  rw [events_synthesize] at he
  rcases List.mem_append.mp he with cycle | tiled
  · exact c.not_overlong_cycleAt rate d length e cycle
  · exact Synthesis.not_overlong_tile (by rwa [length_baseCycle length]) d e tiled

theorem IqWave.not_overlong_synthesize {w : IqWave} {rate : Float} {n : ℕ}
    (length : w.cycleLength? rate = some n) (fits : n * w.cycles.toNat ≤ Limits.samplesPerStep)
    (d : Bool) : ∀ e ∈ (w.synthesize rate).events d, e.isOverlong = false := by
  obtain ⟨i, hi, q, hq, _⟩ : ∃ i, w.i.cycleLength? rate = some i ∧
      ∃ q, w.q.cycleLength? rate = some q ∧ max i q = n := by
    simpa [cycleLength?, Option.bind_eq_some_iff] using length
  have cycle := length_baseCycle length
  intro e he
  rw [events_synthesize] at he
  simp only [List.mem_append] at he
  rcases he with ofI | ofQ | padding | tiledI | tiledQ
  · exact w.i.not_overlong_cycleAt rate d hi e ofI
  · exact w.q.not_overlong_cycleAt rate d hq e ofQ
  · rw [Synthesis.events_pad] at padding
    split at padding
    · cases padding
    · rw [List.mem_singleton.mp padding]
      rfl
  · exact Synthesis.not_overlong_tile (by rwa [cycle]) d e tiledI
  · exact Synthesis.not_overlong_tile (by rwa [← (w.baseCycle rate).same_length, cycle]) d e tiledQ

namespace Attempt
variable {α β : Type}

theorem mem_events_bind {x : Attempt α} {f : α → Attempt β} {d : Bool} {e : Event}
    (he : e ∈ (x >>= f).events d) : e ∈ x.events d ∨ ∃ a, e ∈ (f a).events d := by
  rw [events_bind] at he
  rcases List.mem_append.mp he with first | second
  · exact .inl first
  · split at second
    · exact .inr ⟨_, second⟩
    · cases second

theorem mem_events_mapM {f : α → Attempt β} {xs : List α} {d : Bool} {e : Event}
    (he : e ∈ (xs.mapM f).events d) : ∃ x ∈ xs, e ∈ (f x).events d := by
  induction xs with
  | nil => cases he
  | cons x rest ih =>
    rw [List.mapM_cons] at he
    rcases mem_events_bind he with first | ⟨_, later⟩
    · exact ⟨x, List.mem_cons_self, first⟩
    · rcases mem_events_bind later with others | ⟨_, none⟩
      · obtain ⟨y, hy, found⟩ := ih others
        exact ⟨y, List.mem_cons_of_mem x hy, found⟩
      · cases none

end Attempt

namespace WaveSequence
variable {s : WaveSequence} {d : Bool} {e : Event}

/-- All that playing logs comes from sampling one of the steps. -/
theorem mem_events_playWith {α : Type} {missing : UInt32 → ArgumentFault}
    {sample : UInt32 → Wave → Attempt α} (he : e ∈ (s.playWith missing sample).events d) :
    ∃ p ∈ s.steps.toList, e ∈ (sample p.1 p.2.wave).events d := by
  rcases Attempt.mem_events_bind he with sampled | ⟨_, none⟩
  · obtain ⟨id, hid, played⟩ := Attempt.mem_events_mapM sampled
    obtain ⟨step, hstep, same⟩ := playStep_of_mem_keys missing sample hid
    rw [same] at played
    rcases Attempt.mem_events_bind played with here | ⟨_, none⟩
    · exact ⟨(id, step), hstep, here⟩
    · cases none
  · cases none

theorem not_overlong_playReal (hs : s.Invariant) (he : e ∈ s.playReal.events d) :
    e.isOverlong = false := by
  rw [playReal] at he
  split at he
  · cases he
  · next kind =>
    have single : s.isIq = false := Bool.eq_false_iff.mpr kind
    obtain ⟨p, hp, found⟩ := mem_events_playWith he
    obtain ⟨w, n, wave, length, fits⟩ := (single ▸ hs.admitted p hp).single
    rw [wave] at found
    dsimp only at found
    rw [Attempt.events_ofLogged] at found
    exact ChannelWave.not_overlong_synthesize length fits d e found

theorem not_overlong_playIq (hs : s.Invariant) (he : e ∈ s.playIq.events d) :
    e.isOverlong = false := by
  rw [playIq] at he
  split at he
  · next kind =>
    obtain ⟨p, hp, found⟩ := mem_events_playWith he
    obtain ⟨w, n, wave, length, fits⟩ := (kind ▸ hs.admitted p hp).iq
    rw [wave] at found
    dsimp only at found
    rw [Attempt.events_ofLogged] at found
    exact IqWave.not_overlong_synthesize length fits d e found
  · cases he

theorem not_overlong_play (hs : s.Invariant) (he : e ∈ s.play.events d) :
    e.isOverlong = false := by
  rw [play] at he
  split at he
  · rw [Attempt.events_map] at he
    exact not_overlong_playIq hs he
  · rw [Attempt.events_map] at he
    exact not_overlong_playReal hs he

end WaveSequence

/-- Samples are neither lost nor added without a warning: not those of a channel, nor those of two
channels, and a sequence that comes about by adding waves has none that are too long. -/
theorem warnings_tell_losses (d : Bool) :
    (∀ (c : ChannelWave) (rate : Float), (warnings ((c.synthesize rate).events d)).length =
      if (c.synthesize rate).value d = [] then 1 else 0) ∧
    (∀ (w : IqWave) (rate : Float), warnings ((w.synthesize rate).events d) = [] ↔
      (w.i.cycleAt rate).value d ≠ [] ∧ (w.q.cycleAt rate).value d ≠ [] ∧
        ((w.i.cycleAt rate).value d).length = ((w.q.cycleAt rate).value d).length ∧
        ((w.i.cycleAt rate).value d).length * w.cycles.toNat ≤ Limits.samplesPerStep) ∧
    (∀ (w : IqWave) (rate : Float), ((w.synthesize rate).events d).filter (·.isPadding) =
      if ((w.i.cycleAt rate).value d).length = ((w.q.cycleAt rate).value d).length then []
      else [.padding ((w.i.cycleAt rate).value d).length
        ((w.q.cycleAt rate).value d).length]) ∧
    ∀ s : WaveSequence, s.Reachable →
      ∀ e ∈ s.play.events d ++ s.playReal.events d ++ s.playIq.events d,
        e.isOverlong = false := by
  simp only [ChannelWave.value_cycleAt]
  refine ⟨fun c rate => c.length_warnings_synthesize rate d,
    fun w rate => w.warnings_synthesize_eq_nil_iff rate d,
    fun w rate => w.filter_isPadding_synthesize rate d, ?_⟩
  intro s hs e he
  rw [List.append_assoc, List.mem_append, List.mem_append] at he
  rcases he with play | real | iq
  · exact WaveSequence.not_overlong_play hs.invariant play
  · exact WaveSequence.not_overlong_playReal hs.invariant real
  · exact WaveSequence.not_overlong_playIq hs.invariant iq

/-- Four samples beside three: the wave is warned of, the tone alone is not, and a sequence that
holds the wave is played without a further warning. -/
theorem warnings_tell_losses_toneAndBuffer :
    warnings ((IqWave.toneAndBuffer.synthesize 1000.0).events false) ≠ [] ∧
    ((IqWave.toneAndBuffer.synthesize 1000.0).events false).filter (·.isPadding) =
      [.padding 4 3] ∧
    warnings ((ChannelWave.tone.synthesize 1000.0).events false) = [] ∧
    ∀ e ∈ (afterCalls WaveSequence.addCall (.empty .thousand true)
      [(9, .iq .toneAndBuffer, 0.0)]).play.events false, e.isOverlong = false := by
  obtain ⟨single, paired, padding, playing⟩ := warnings_tell_losses false
  have i : ((ChannelWave.tone.cycleAt 1000.0).value false).length = 4 := by
    rw [ChannelWave.value_cycleAt]
    exact ChannelWave.length_baseCycle (by decide)
  have q : ((ChannelWave.buffer.cycleAt 1000.0).value false).length = 3 := rfl
  have alone : (ChannelWave.tone.synthesize 1000.0).value false ≠ [] := by
    rw [← List.length_pos_iff, ChannelWave.value_synthesize (n := 4) (by decide) (by decide),
      Samples.length_repeated, ChannelWave.length_baseCycle (n := 4) (by decide)]
    decide
  refine ⟨?_, ?_, ?_, ?_⟩
  · intro none
    exact absurd (((paired _ _).mp none).2.2.1) (by rw [IqWave.toneAndBuffer, i, q]; decide)
  · rw [padding, IqWave.toneAndBuffer, i, q]
    rfl
  · rw [← List.length_eq_zero_iff, single, if_neg alone]
  · intro e he
    have reachable := (WaveSequence.reachable_empty .thousand true).afterCalls
      [(9, .iq .toneAndBuffer, 0.0)]
    exact playing _ reachable e (List.mem_append_left _ (List.mem_append_left _ he))

end WaveSequencer
