import WaveSequencer.Capture.Config
import WaveSequencer.Digital.Sequence
import WaveSequencer.Proofs.SortedMap.Runs
import WaveSequencer.Proofs.Waves.Reachable

/-!
Containers do not show in which order they were filled. All of them check what they are asked to
add without regard to what they hold, and put it into a bounded map. Main statement: the same
additions in another order are accepted too and give the same container.
-/
namespace WaveSequencer
open Numeric

/-- Adding is a check of the addition and the insertion of one entry into the map of a container,
of which the rest stays as it is. -/
structure InsertsInto {σ γ κ α : Type} [Ord κ] (add : σ → γ → Except Fault σ)
    (container : BoundedMap κ α → σ) (admits : γ → Prop) (entry : γ → κ × α) : Prop where
  add_eq_ok_iff : ∀ m c t, add (container m) c = .ok t ↔
    admits c ∧ ∃ n, m.insert (entry c).1 (entry c).2 = .ok n ∧ t = container n

/-- From this container on, the same additions in another order have the same result, which lists
their numbers by ascending number. -/
structure OrderFree {σ β : Type} (add : σ → UInt32 × β → Except Fault σ) (start : σ)
    (numbers : σ → List UInt32) : Prop where
  same : ∀ {calls calls' : List (UInt32 × β)} {t : σ}, calls.Perm calls' →
    calls.foldlM add start = .ok t → calls'.foldlM add start = .ok t
  ascending : ∀ {calls : List (UInt32 × β)} {t : σ}, calls.foldlM add start = .ok t →
    (numbers t).Pairwise (· < ·) ∧ (numbers t).Perm (calls.map (·.1))

namespace InsertsInto
variable {σ γ κ α : Type} [Ord κ] {add : σ → γ → Except Fault σ}
  {container : BoundedMap κ α → σ} {admits : γ → Prop} {entry : γ → κ × α}

/-- All additions are accepted if each of them is admitted and the map takes all entries. -/
theorem foldlM_eq_ok_iff (h : InsertsInto add container admits entry) {calls : List γ}
    {m : BoundedMap κ α} {t : σ} : calls.foldlM add (container m) = .ok t ↔
      (∀ c ∈ calls, admits c) ∧
        ∃ n, m.insertAll (calls.map entry) = .ok n ∧ t = container n := by
  induction calls generalizing m with
  | nil =>
    constructor
    · intro done
      exact ⟨nofun, m, rfl, (Except.ok.inj done).symm⟩
    · rintro ⟨_, n, inserted, rfl⟩
      exact congrArg (Except.ok ∘ container) (Except.ok.inj inserted)
  | cons c rest ih =>
    rw [List.foldlM_cons, except_bind_eq_ok_iff, List.map_cons, BoundedMap.insertAll,
      List.foldlM_cons]
    simp only [except_bind_eq_ok_iff, h.add_eq_ok_iff, List.forall_mem_cons]
    constructor
    · rintro ⟨_, ⟨admitted, m', inserted, rfl⟩, done⟩
      obtain ⟨others, n, later, rfl⟩ := ih.mp done
      exact ⟨⟨admitted, others⟩, n, ⟨m', inserted, later⟩, rfl⟩
    · rintro ⟨⟨admitted, others⟩, n, ⟨m', inserted, later⟩, rfl⟩
      exact ⟨_, ⟨admitted, m', inserted, rfl⟩, ih.mpr ⟨others, n, later, rfl⟩⟩

theorem orderFree {β : Type} {add : σ → UInt32 × β → Except Fault σ}
    {container : BoundedMap UInt32 α → σ} {admits : UInt32 × β → Prop}
    {entry : UInt32 × β → UInt32 × α} (h : InsertsInto add container admits entry)
    (hn : ∀ c, (entry c).1 = c.1) {numbers : σ → List UInt32}
    (hk : ∀ m, numbers (container m) = m.keys) (capacity : Nat) :
    OrderFree add (container (.empty capacity)) numbers where
  same reordered done := by
    obtain ⟨admitted, n, inserted, rfl⟩ := h.foldlM_eq_ok_iff.mp done
    apply h.foldlM_eq_ok_iff.mpr
    refine ⟨?_, n, ?_, rfl⟩
    · intro c hc
      exact admitted c (reordered.mem_iff.mpr hc)
    · exact BoundedMap.insertAll_empty_perm (reordered.map entry) inserted
  ascending := by
    intro calls t done
    obtain ⟨_, n, inserted, rfl⟩ := h.foldlM_eq_ok_iff.mp done
    obtain ⟨distinct, _, rfl⟩ := BoundedMap.insertAll_empty_eq_ok_iff.mp inserted
    have same : calls.map (·.1) = (calls.map entry).map (·.1) := by
      rw [List.map_map]
      exact List.map_congr_left fun c _ => (hn c).symm
    rw [hk, same]
    constructor
    · exact (SortedMap.ascending_ofList (calls.map entry)).imp Std.compare_eq_lt.mp
    · exact SortedMap.keys_ofList_perm distinct

omit [Ord κ] in
/-- A computation that succeeds exactly if an insertion does. -/
theorem eq_ok_iff_of_insert {inserted : Except (InsertFault κ) (BoundedMap κ α)}
    {added : Except Fault σ} {t : σ} (ok : ∀ n, inserted = .ok n → added = .ok (container n))
    (error : ∀ cause, inserted = .error cause → ∃ fault, added = .error fault) :
    added = .ok t ↔ ∃ n, inserted = .ok n ∧ t = container n := by
  cases h : inserted with
  | ok n =>
    rw [ok n h]
    constructor
    · intro same
      exact ⟨n, rfl, (Except.ok.inj same).symm⟩
    · rintro ⟨n', same, rfl⟩
      rw [Except.ok.inj same]
  | error cause =>
    obtain ⟨fault, refused⟩ := error cause h
    rw [refused]
    constructor
    · intro same
      cases same
    · rintro ⟨n, same, _⟩
      cases same

end InsertsInto

theorem WaveSequence.insertsInto (rate : SamplingRate) (isIq : Bool) :
    InsertsInto addCall (WaveSequence.mk rate isIq)
      (fun c => WaveStep.Admitted rate isIq ⟨c.2.1.attach rate, c.2.2⟩)
      fun c => (c.1, ⟨c.2.1.attach rate, c.2.2⟩) where
  add_eq_ok_iff m c t := by
    rw [addCall, WaveSequence.add_eq_ok_iff]
    simp only [BoundedMap.insert_eq_ok_iff]
    constructor
    · rintro ⟨admitted, free, room, same⟩
      exact ⟨admitted, _, ⟨free, room, rfl⟩, same⟩
    · rintro ⟨admitted, _, ⟨free, room, rfl⟩, same⟩
      exact ⟨admitted, free, room, same⟩

def CaptureSequence.addCall (s : CaptureSequence) (c : UInt32 × Capture) :
    Except Fault CaptureSequence := s.add c.1 c.2

theorem CaptureSequence.insertsInto (rate : SamplingRate) (isIq : Bool) :
    InsertsInto addCall (CaptureSequence.mk rate isIq) (fun _ => True) (fun c => c) where
  add_eq_ok_iff m c t := by
    rw [true_and]
    apply InsertsInto.eq_ok_iff_of_insert
    · intro n inserted
      rw [addCall, add, inserted]
    · intro cause refused
      rw [addCall, add, refused]
      exact ⟨_, rfl⟩

def DigitalSequence.addCall (s : DigitalSequence) (c : UInt32 × DigitalVector) :
    Except Fault DigitalSequence := s.add c.1 c.2

theorem DigitalSequence.insertsInto :
    InsertsInto addCall DigitalSequence.mk (fun _ => True) (fun c => c) where
  add_eq_ok_iff m c t := by
    rw [true_and]
    apply InsertsInto.eq_ok_iff_of_insert
    · intro n inserted
      rw [addCall, add, inserted]
    · intro cause refused
      rw [addCall, add, refused]
      exact ⟨_, rfl⟩

def CaptureConfig.addCall (s : CaptureConfig) (c : UInt32 × CaptureSequence) :
    Except Fault CaptureConfig := s.add c.1 c.2

theorem CaptureConfig.insertsInto :
    InsertsInto addCall CaptureConfig.mk (fun c => c.1.toNat < Limits.captureDevices) (fun c => c) where
  add_eq_ok_iff m c t := by
    by_cases near : c.1.toNat < Limits.captureDevices
    · rw [and_iff_right near]
      apply InsertsInto.eq_ok_iff_of_insert
      · intro n inserted
        rw [addCall, add, if_neg (Nat.not_le.mpr near), inserted]
      · intro cause refused
        rw [addCall, add, if_neg (Nat.not_le.mpr near), refused]
        exact ⟨_, rfl⟩
    · rw [addCall, add, if_pos (Nat.not_lt.mp near)]
      constructor
      · intro refused
        cases refused
      · rintro ⟨admitted, _⟩
        exact absurd admitted near

theorem CaptureSequence.create_eq_ok_iff {rate : Float} {isIq : Bool} {s : CaptureSequence} :
    create rate isIq = .ok s ↔ ∃ h : IsPositive rate, s = empty ⟨rate, h⟩ isIq :=
  SamplingRate.map_check_eq_ok_iff

/-- What was added in which order can be seen neither in the container nor, therefore, in its
bytes, in what it answers for a number, or in how it is played. -/
theorem containers_order_free {rate rate' : Float} {isIq isIq' : Bool} {waves : WaveSequence}
    {captures : CaptureSequence} (hw : WaveSequence.create rate isIq = .ok waves)
    (hc : CaptureSequence.create rate' isIq' = .ok captures) :
    OrderFree WaveSequence.addCall waves (·.steps.keys) ∧
    OrderFree CaptureSequence.addCall captures (·.steps.keys) ∧
    OrderFree DigitalSequence.addCall .empty (·.steps.keys) ∧
    OrderFree CaptureConfig.addCall .empty (·.sequences.keys) := by
  obtain ⟨positive, rfl⟩ := WaveSequence.create_eq_ok_iff.mp hw
  obtain ⟨positive', rfl⟩ := CaptureSequence.create_eq_ok_iff.mp hc
  refine ⟨?_, ?_, ?_, ?_⟩
  · exact (WaveSequence.insertsInto _ _).orderFree (fun _ => rfl) (fun _ => rfl) _
  · exact (CaptureSequence.insertsInto _ _).orderFree (fun _ => rfl) (fun _ => rfl) _
  · exact DigitalSequence.insertsInto.orderFree (fun _ => rfl) (fun _ => rfl) _
  · exact CaptureConfig.insertsInto.orderFree (fun _ => rfl) (fun _ => rfl) _

/-- A capture of a fifth of a microsecond. -/
def Capture.brief : Capture := ⟨200.0, 0.0, .single false, by decide, by decide⟩

/-- Digital outputs that are all low. -/
def DigitalVector.low : DigitalVector := ⟨0.0, [⟨0, 10.0⟩], by decide⟩

theorem containers_order_free_twoCalls :
    (∃ t, [(9, .single .tone, 0.0), (2, .single .buffer, 50.0)].foldlM WaveSequence.addCall
        (.empty .thousand false) = .ok t ∧
      [(2, .single .buffer, 50.0), (9, .single .tone, 0.0)].foldlM WaveSequence.addCall
        (.empty .thousand false) = .ok t) ∧
    (∃ t, [(9, .brief), (2, .brief)].foldlM CaptureSequence.addCall
        (.empty .thousand false) = .ok t ∧
      [(2, .brief), (9, .brief)].foldlM CaptureSequence.addCall
        (.empty .thousand false) = .ok t) ∧
    (∃ t, [(9, .low), (2, .low)].foldlM DigitalSequence.addCall .empty = .ok t ∧
      [(2, .low), (9, .low)].foldlM DigitalSequence.addCall .empty = .ok t) ∧
    ∃ t, [(7, .empty .thousand true), (2, .empty .thousand false)].foldlM
        CaptureConfig.addCall .empty = .ok t ∧
      [(2, .empty .thousand false), (7, .empty .thousand true)].foldlM
        CaptureConfig.addCall .empty = .ok t := by
  obtain ⟨waves, captures, outputs, config⟩ := containers_order_free
    (WaveSequence.create_empty .thousand false)
    (CaptureSequence.create_eq_ok_iff.mpr ⟨SamplingRate.thousand.property, rfl⟩)
  have admitted : ∀ c ∈ [((9 : UInt32), Wave.single .tone, 0.0), (2, .single .buffer, 50.0)],
      WaveStep.Admitted .thousand false ⟨c.2.1.attach .thousand, c.2.2⟩ := by
    intro c hc
    rcases List.mem_pair.mp hc with rfl | rfl
    · exact ⟨by decide, rfl, by decide⟩
    · exact ⟨by decide, rfl, by decide⟩
  have added := ((WaveSequence.insertsInto .thousand false).foldlM_eq_ok_iff
    (m := .empty Limits.steps)).mpr ⟨admitted, _, rfl, rfl⟩
  refine ⟨⟨_, added, ?_⟩, ⟨_, rfl, ?_⟩, ⟨_, rfl, ?_⟩, _, rfl, ?_⟩
  · exact waves.same (.swap _ _ _) added
  · exact captures.same (.swap _ _ _) rfl
  · exact outputs.same (.swap _ _ _) rfl
  · exact config.same (.swap _ _ _) rfl

end WaveSequencer
