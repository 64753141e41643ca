/-!
Little-endian bytes. `leBytes` writes a number into a given width and `leValue` reads bytes of
any width. The codecs of words, floats, flags and samples all go through them.
-/
namespace WaveSequencer.Wire

/-- The lowest `width` bytes of `n`, the lowest one first. -/
def leBytes : (width n : Nat) → List UInt8
  | 0, _ => []
  | w + 1, n => n.toUInt8 :: leBytes w (n / 256)

def leValue : List UInt8 → Nat
  | [] => 0
  | b :: rest => b.toNat + 256 * leValue rest

@[simp] theorem length_leBytes (w n : Nat) : (leBytes w n).length = w := by
  induction w generalizing n with
  | zero => rfl
  | succ w ih => simp [leBytes, ih]

def wordBytes (x : UInt32) : List UInt8 := leBytes 4 x.toNat

def longBytes (x : UInt64) : List UInt8 := leBytes 8 x.toNat

/-- A count as a 32-bit word, which keeps only its low bits. -/
def countBytes (n : Nat) : List UInt8 := wordBytes n.toUInt32

def floatBytes (x : Float) : List UInt8 := longBytes x.toBits

/-- A truth value as a 32-bit word. -/
def flagBytes (b : Bool) : List UInt8 := wordBytes (if b then 1 else 0)

def tagBytes (tag : List Char) : List UInt8 := tag.map (·.toNat.toUInt8)

def sampleBytes (s : Int16) : List UInt8 := leBytes 2 s.toUInt16.toNat

def samplesBytes (samples : List Int16) : List UInt8 := samples.flatMap sampleBytes

/-- Samples from pairs of bytes; a last single byte is no sample. -/
def samplesOfBytes : List UInt8 → List Int16
  | low :: high :: rest => (leValue [low, high]).toUInt16.toInt16 :: samplesOfBytes rest
  | _ => []

@[simp] theorem length_wordBytes (x : UInt32) : (wordBytes x).length = 4 := length_leBytes 4 _

@[simp] theorem length_longBytes (x : UInt64) : (longBytes x).length = 8 := length_leBytes 8 _

@[simp] theorem length_countBytes (n : Nat) : (countBytes n).length = 4 := length_leBytes 4 _

@[simp] theorem length_floatBytes (x : Float) : (floatBytes x).length = 8 := length_leBytes 8 _

@[simp] theorem length_flagBytes (b : Bool) : (flagBytes b).length = 4 := length_leBytes 4 _

@[simp] theorem length_sampleBytes (s : Int16) : (sampleBytes s).length = 2 := length_leBytes 2 _

@[simp] theorem length_samplesBytes (samples : List Int16) :
    (samplesBytes samples).length = 2 * samples.length := by
  induction samples with
  | nil => rfl
  | cons s rest ih =>
    have split : samplesBytes (s :: rest) = sampleBytes s ++ samplesBytes rest := rfl
    simp only [split, List.length_append, length_sampleBytes, ih, List.length_cons]
    omega

end WaveSequencer.Wire
