/-!
Limits of the hardware, fixed by its design.
-/
namespace WaveSequencer.Limits

def steps : Nat := 32

def captureDevices : Nat := 8

def digitalEntries : Nat := 32

/-- Repetitions of a wave. The next larger number is reserved. -/
def cycles : UInt32 := 0xFFFFFFFE

/-- Samples in one wave cycle: a cycle of interleaved channels stays within the four gigabytes
that 32-bit byte offsets address. -/
def samplesPerCycle : Nat := 0xFFFFFFFF / 4

/-- Samples of one step that fit into an address space of `2 ^ 63` bytes. -/
def samplesPerStep : Nat := 0x7FFFFFFFFFFFFFFF / 2

/-- Start delay of a capture or a digital output in ns. -/
def delay : Float := 1.4e10

/-- Duration of one digital output entry in ns. -/
def digitalDuration : Float := 1e10

def stepWordBlock : Nat := 1024

end WaveSequencer.Limits
