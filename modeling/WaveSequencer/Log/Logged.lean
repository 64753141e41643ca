import WaveSequencer.Log.Event

/-!
Computations that emit log events. Such a computation is given the diagnostics switch, and yields
its value with the events in the order of emission; without the switch, events of level `debug`
are dropped where they are emitted.
-/
namespace WaveSequencer
open Log

def Logged (α : Type) : Type := (diagnostics : Bool) → α × List Event

namespace Logged
variable {α β : Type}

/-- The value computed with the given switch. -/
def value (x : Logged α) (diagnostics : Bool) : α := (x diagnostics).1

/-- The events emitted with the given switch. -/
def events (x : Logged α) (diagnostics : Bool) : List Event := (x diagnostics).2

protected def pure (a : α) : Logged α := fun _ => (a, [])

protected def bind (x : Logged α) (f : α → Logged β) : Logged β := fun diagnostics =>
  let (a, before) := x diagnostics
  let (b, after) := f a diagnostics
  (b, before ++ after)

instance : Monad Logged where
  pure := Logged.pure
  bind := Logged.bind

/-- Emits an event, unless it is for diagnosis and that is off. -/
def emit (e : Event) : Logged Unit := fun diagnostics =>
  ((), if e.level = .debug ∧ !diagnostics then [] else [e])

@[simp] theorem value_pure (a : α) (d : Bool) : (pure a : Logged α).value d = a := rfl

@[simp] theorem events_pure (a : α) (d : Bool) : (pure a : Logged α).events d = [] := rfl

@[simp] theorem value_bind (x : Logged α) (f : α → Logged β) (d : Bool) :
    (x >>= f).value d = (f (x.value d)).value d := rfl

@[simp] theorem events_bind (x : Logged α) (f : α → Logged β) (d : Bool) :
    (x >>= f).events d = x.events d ++ (f (x.value d)).events d := rfl

@[simp] theorem events_emit (e : Event) (d : Bool) :
    (emit e).events d = if e.level = .debug ∧ !d then [] else [e] := rfl

@[ext] theorem ext {x y : Logged α} (hv : ∀ d, x.value d = y.value d)
    (he : ∀ d, x.events d = y.events d) : x = y :=
  funext fun d => Prod.ext (hv d) (he d)

instance : LawfulMonad Logged := LawfulMonad.mk' Logged
  (fun x => ext (fun _ => rfl) fun _ => List.append_nil _)
  (fun _ _ => ext (fun _ => rfl) fun _ => List.nil_append _)
  (fun _ _ _ => ext (fun _ => rfl) fun _ => List.append_assoc _ _ _)

end Logged
end WaveSequencer
