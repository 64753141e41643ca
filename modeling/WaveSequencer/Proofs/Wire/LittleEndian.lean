import Mathlib.Algebra.Group.Nat.Defs
import WaveSequencer.Wire.LittleEndian

/-!
Writing and reading little-endian bytes are inverse as long as the number fits into the bytes, and
so are the codecs that go through them.
-/
namespace WaveSequencer.Wire

theorem leValue_lt (bytes : List UInt8) : leValue bytes < 256 ^ bytes.length := by
  induction bytes with
  | nil => simp [leValue]
  | cons b rest ih =>
    have hb := b.toNat_lt
    simp only [leValue, List.length_cons, Nat.pow_succ]
    omega

theorem leValue_leBytes {w n : Nat} (h : n < 256 ^ w) : leValue (leBytes w n) = n := by
  induction w generalizing n with
  | zero => simp at h; simp [leBytes, leValue, h]
  | succ w ih =>
    have hn : n / 256 < 256 ^ w := by
      rw [Nat.pow_succ] at h
      exact Nat.div_lt_of_lt_mul (by omega)
    simp only [leBytes, leValue, ih hn, UInt8.toNat_ofNat', Nat.toUInt8_eq]
    omega

theorem leBytes_leValue (bytes : List UInt8) : leBytes bytes.length (leValue bytes) = bytes := by
  induction bytes with
  | nil => rfl
  | cons b rest ih =>
    have hb := b.toNat_lt
    have hdiv : leValue (b :: rest) / 256 = leValue rest := by simp only [leValue]; omega
    have hmod : (leValue (b :: rest)).toUInt8 = b := by
      apply UInt8.toNat_inj.mp
      simp only [leValue, UInt8.toNat_ofNat', Nat.toUInt8_eq]
      omega
    simp only [List.length_cons, leBytes, hdiv, hmod, ih]

/-- A count that 32 bits hold stands on the wire without a loss. -/
theorem countBytes_eq {n : Nat} (fits : n < 2 ^ 32) : countBytes n = leBytes 4 n := by
  rw [countBytes, wordBytes, Nat.toUInt32_eq, UInt32.toNat_ofNat_of_lt' fits]

theorem samplesOfBytes_samplesBytes (samples : List Int16) :
    samplesOfBytes (samplesBytes samples) = samples := by
  induction samples with
  | nil => rfl
  | cons s rest ih =>
    have hs : leValue (sampleBytes s) = s.toUInt16.toNat := leValue_leBytes s.toUInt16.toNat_lt
    have split : samplesBytes (s :: rest) = sampleBytes s ++ samplesBytes rest := rfl
    simp only [sampleBytes, leBytes] at hs
    simp only [split, sampleBytes, leBytes, List.cons_append, List.nil_append, samplesOfBytes, ih,
      hs]
    simp

end WaveSequencer.Wire
