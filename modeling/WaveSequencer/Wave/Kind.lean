/-!
The shapes of waves that the hardware computes itself.
-/
namespace WaveSequencer

inductive WaveKind where
  | sine
  | square
  | sawtooth
  | gaussian
  deriving DecidableEq, Repr

namespace WaveKind

def all : List WaveKind := [sine, square, sawtooth, gaussian]

def code : WaveKind → UInt32
  | sine => 0
  | square => 1
  | sawtooth => 2
  | gaussian => 3

def name : WaveKind → String
  | sine => "SINE"
  | square => "SQUARE"
  | sawtooth => "SAWTOOTH"
  | gaussian => "GAUSSIAN"

def ofName? (name : String) : Option WaveKind := all.find? (·.name == name)

@[simp] theorem mem_all (k : WaveKind) : k ∈ all := by cases k <;> decide

theorem ofName?_name (k : WaveKind) : ofName? k.name = some k := by cases k <;> decide

end WaveKind
end WaveSequencer
