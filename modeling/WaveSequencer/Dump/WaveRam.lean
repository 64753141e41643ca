import WaveSequencer.Dump.StepWord

/-!
The samples that step words refer to. The primary samples are played for all cycles but the last
one; two channels are stored in pairs.
-/
namespace WaveSequencer
open Wire

namespace StepWord

def checkCycles (w : StepWord) : Except Fault Unit :=
  if w.cycles = 0 then .error (.malformed .noCycles) else .ok ()

/-- Refuses half pairs of samples, in the primary samples first. -/
def checkPairs (w : StepWord) : Except Fault Unit :=
  if w.sampleCount % 2 ≠ 0 then .error (.malformed (.oddCount .sampleCount w.sampleCount))
  else if w.lastSampleCount % 2 ≠ 0 then
    .error (.malformed (.oddCount .lastSampleCount w.lastSampleCount))
  else .ok ()

/-- How many samples a channel has in all, if 64 bits hold the number. -/
def totalLength (w : StepWord) (primary last : Nat) : Except Fault Nat :=
  match address? (primary * (w.cycles.toNat - 1) + last) with
  | some total => .ok total
  | none => .error (.malformed (.stepSize w.cycles primary))

def played {α : Type} (w : StepWord) (primary last : List α) : List α :=
  Samples.repeated (w.cycles.toNat - 1) primary ++ last

def decodeReal (w : StepWord) (ram : List UInt8) : Except Fault (List Int16) := do
  w.checkCycles
  let reader : Reader := ⟨ram, .waveRam⟩
  let primary ← reader.samplesAt w.startAddress.toNat w.sampleCount.toNat
  let last ← reader.samplesAt w.lastStartAddress.toNat w.lastSampleCount.toNat
  let _ ← w.totalLength primary.length last.length
  return w.played primary last

def decodeIq (w : StepWord) (ram : List UInt8) : Except Fault IqSamples := do
  w.checkCycles
  w.checkPairs
  let reader : Reader := ⟨ram, .waveRam⟩
  let primary ← reader.pairsAt w.startAddress.toNat (w.sampleCount.toNat / 2)
  let last ← reader.pairsAt w.lastStartAddress.toNat (w.lastSampleCount.toNat / 2)
  let _ ← w.totalLength primary.i.length last.i.length
  return ⟨w.played primary.i last.i, w.played primary.q last.q⟩

@[simp] theorem length_played {α : Type} (w : StepWord) (primary last : List α) :
    (w.played primary last).length = primary.length * (w.cycles.toNat - 1) + last.length := by
  simp [played]

end StepWord
end WaveSequencer
