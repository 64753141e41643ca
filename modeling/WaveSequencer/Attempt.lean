import WaveSequencer.Fault
import WaveSequencer.Log.Logged

/-!
Computations that log and may fail. A fault ends the computation, and what was logged before it
stays.
-/
namespace WaveSequencer

abbrev Attempt : Type → Type := ExceptT Fault Logged

namespace Attempt
variable {α β : Type}

/-- A result that is there without an event. -/
def ofExcept (result : Except Fault α) : Attempt α := ExceptT.mk (pure result)

def ofLogged (x : Logged α) : Attempt α := ExceptT.lift x

/-- The result with the given diagnostics switch. -/
def value (x : Attempt α) (diagnostics : Bool) : Except Fault α := Logged.value x.run diagnostics

/-- The events emitted with the given switch. -/
def events (x : Attempt α) (diagnostics : Bool) : List Log.Event :=
  Logged.events x.run diagnostics

@[simp] theorem value_pure (a : α) (d : Bool) : (pure a : Attempt α).value d = .ok a := rfl

@[simp] theorem events_pure (a : α) (d : Bool) : (pure a : Attempt α).events d = [] := rfl

@[simp] theorem value_throw (cause : Fault) (d : Bool) :
    (throw cause : Attempt α).value d = .error cause := rfl

@[simp] theorem events_throw (cause : Fault) (d : Bool) :
    (throw cause : Attempt α).events d = [] := rfl

/-- A fault of the first computation is that of both. -/
@[simp] theorem value_bind (x : Attempt α) (f : α → Attempt β) (d : Bool) :
    (x >>= f).value d = x.value d >>= fun a => (f a).value d := by
  change Logged.value (x.run >>= ExceptT.bindCont f) d = _
  rw [Logged.value_bind]
  cases h : x.value d with
  | ok a => simp only [value, ExceptT.run] at h; simp only [ExceptT.run, h]; rfl
  | error cause => simp only [value, ExceptT.run] at h; simp only [ExceptT.run, h]; rfl

/-- After a fault the second computation does not run, so it emits nothing. -/
theorem events_bind (x : Attempt α) (f : α → Attempt β) (d : Bool) :
    (x >>= f).events d = x.events d ++ match x.value d with
      | .ok a => (f a).events d
      | .error _ => [] := by
  change Logged.events (x.run >>= ExceptT.bindCont f) d = _
  rw [Logged.events_bind]
  cases h : x.value d with
  | ok a => simp only [value, ExceptT.run] at h; simp only [ExceptT.run, h]; rfl
  | error cause => simp only [value, ExceptT.run] at h; simp only [ExceptT.run, h]; rfl

theorem events_bind_pure (x : Attempt α) (f : α → β) (d : Bool) :
    (x >>= fun a => pure (f a)).events d = x.events d := by
  rw [events_bind]
  cases x.value d <;> exact List.append_nil _

theorem events_map (f : α → β) (x : Attempt α) (d : Bool) : (f <$> x).events d = x.events d := by
  rw [map_eq_pure_bind, events_bind_pure]

@[simp] theorem value_ofExcept (result : Except Fault α) (d : Bool) :
    (ofExcept result).value d = result := rfl

@[simp] theorem events_ofExcept (result : Except Fault α) (d : Bool) :
    (ofExcept result).events d = [] := rfl

@[simp] theorem value_ofLogged (x : Logged α) (d : Bool) :
    (ofLogged x).value d = .ok (x.value d) := rfl

@[simp] theorem events_ofLogged (x : Logged α) (d : Bool) :
    (ofLogged x).events d = x.events d := List.append_nil _

end Attempt
end WaveSequencer
