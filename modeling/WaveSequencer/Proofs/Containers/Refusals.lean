/-!
Calls to add something, of which any may be refused. A call that is refused leaves no trace. Main
statement: what every accepted call keeps is kept by any calls.
-/
namespace WaveSequencer
variable {σ γ ε : Type}

/-- What a call leaves behind, which is what was there before if it is refused. -/
def afterCall (add : σ → γ → Except ε σ) (s : σ) (c : γ) : σ :=
  match add s c with
  | .ok t => t
  | .error _ => s

def afterCalls (add : σ → γ → Except ε σ) (s : σ) (calls : List γ) : σ :=
  calls.foldl (afterCall add) s

variable {add : σ → γ → Except ε σ} {s t : σ} {c : γ} {fault : ε}

theorem afterCall_of_ok (h : add s c = .ok t) : afterCall add s c = t := by
  simp only [afterCall, h]

theorem afterCall_of_error (h : add s c = .error fault) : afterCall add s c = s := by
  simp only [afterCall, h]

theorem afterCall_induction {motive : σ → Prop}
    (step : ∀ {s c t}, motive s → add s c = .ok t → motive t) (start : motive s) (c : γ) :
    motive (afterCall add s c) := by
  cases called : add s c with
  | ok t =>
    rw [afterCall_of_ok called]
    exact step start called
  | error fault =>
    rw [afterCall_of_error called]
    exact start

theorem afterCalls_induction {motive : σ → Prop}
    (step : ∀ {s c t}, motive s → add s c = .ok t → motive t) (start : motive s)
    (calls : List γ) : motive (afterCalls add s calls) := by
  induction calls generalizing s with
  | nil => exact start
  | cons c rest ih => exact ih (afterCall_induction step start c)

/-- Calls that are answered alike leave the same behind. -/
theorem afterCalls_map {f : γ → γ} (same : ∀ s c, add s (f c) = add s c) (s : σ)
    (calls : List γ) : afterCalls add s (calls.map f) = afterCalls add s calls := by
  induction calls generalizing s with
  | nil => rfl
  | cons c rest ih =>
    have answer : afterCall add s (f c) = afterCall add s c := by
      rw [afterCall, same]
      rfl
    rw [List.map_cons, afterCalls, List.foldl_cons, answer]
    exact ih _

end WaveSequencer
