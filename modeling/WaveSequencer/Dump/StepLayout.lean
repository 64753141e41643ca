import WaveSequencer.Fault
import WaveSequencer.Wire.Address

/-!
Where the fields of a step word lie in its block. A layout is valid if the block is not too large,
every field lies within it, and no two fields overlap.
-/
namespace WaveSequencer
open Wire

structure StepLayout where
  blockSize : Nat := 32
  startAddress : Nat := 0
  sampleCount : Nat := 4
  lastStartAddress : Nat := 8
  lastSampleCount : Nat := 12
  cycles : Nat := 16
  interval : Nat := 24
  deriving DecidableEq, Repr

namespace StepLayout

/-- The names under which layouts are configured, in the order of their values. -/
def names : List String := "block_size" :: WordField.all.map WordField.name

def values (l : StepLayout) : List Nat :=
  [l.blockSize, l.startAddress, l.sampleCount, l.lastStartAddress, l.lastSampleCount, l.cycles,
    l.interval]

def ofValues? : List Nat → Option StepLayout
  | [blockSize, startAddress, sampleCount, lastStartAddress, lastSampleCount, cycles, interval] =>
    some { blockSize, startAddress, sampleCount, lastStartAddress, lastSampleCount, cycles,
           interval }
  | _ => none

/-- The layout of a configuration in which every name has a value. -/
def ofNamed? (value? : String → Option Nat) : Option StepLayout :=
  (names.mapM value?).bind ofValues?

def offset (l : StepLayout) : WordField → Nat
  | .startAddress => l.startAddress
  | .sampleCount => l.sampleCount
  | .lastStartAddress => l.lastStartAddress
  | .lastSampleCount => l.lastSampleCount
  | .cycles => l.cycles
  | .interval => l.interval

def holds (l : StepLayout) (f : WordField) : Bool :=
  match address? (l.offset f + f.width) with
  | some stop => stop ≤ l.blockSize
  | none => false

def overlap (l : StepLayout) (f g : WordField) : Bool :=
  l.offset f < l.offset g + g.width && l.offset g < l.offset f + f.width

/-- Each field with each later one, in the order in which they are checked. -/
def fieldPairs : List WordField → List (WordField × WordField)
  | [] => []
  | f :: rest => rest.map (f, ·) ++ fieldPairs rest

/-- The first thing that is wrong: the size of the block, a field outside, or an overlap. -/
def fault? (l : StepLayout) : Option ArgumentFault :=
  if Limits.stepWordBlock < l.blockSize then some (.blockSize l.blockSize)
  else match WordField.all.find? (!l.holds ·) with
    | some f => some (.fieldOutside f (l.offset f) l.blockSize)
    | none =>
      ((fieldPairs WordField.all).find? fun (f, g) => l.overlap f g).map fun (f, g) =>
        .fieldsOverlap f g

def validate (l : StepLayout) : Except Fault Unit :=
  match l.fault? with
  | some cause => .error (.argument cause)
  | none => .ok ()

theorem validate_eq_ok_iff {l : StepLayout} : l.validate = .ok () ↔ l.fault? = none := by
  unfold validate
  split <;> simp_all

theorem fault?_default : ({} : StepLayout).fault? = none := by decide

end StepLayout

structure ValidLayout extends StepLayout where
  valid : toStepLayout.fault? = none := by decide
  deriving DecidableEq

def ValidLayout.check (layout : StepLayout) : Except Fault ValidLayout :=
  match h : layout.fault? with
  | some cause => .error (.argument cause)
  | none => .ok ⟨layout, h⟩

end WaveSequencer
