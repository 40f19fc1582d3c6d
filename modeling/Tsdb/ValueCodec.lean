import Tsdb.Value
import Tsdb.BitReading

namespace Tsdb.ValueCodec

open BitField BitIO BitWriting BitReading Value

theorem getLsbD_clz (x : BitVec 64) (i : Nat) (hi : 64 - x.clz.toNat ≤ i) : x.getLsbD i = false := by
  rw [← BitVec.testBit_toNat]
  exact Nat.testBit_lt_two_pow (lt_of_lt_of_le BitVec.toNat_lt_two_pow_sub_clz
    (Nat.pow_le_pow_right (by decide) hi))

theorem clz_add_ctz_lt {x : BitVec 64} (hx : x ≠ 0#64) : x.clz.toNat + x.ctz.toNat < 64 := by
  have hset : x.getLsbD x.ctz.toNat = true := BitVec.getLsbD_true_ctz_of_ne_zero hx
  by_contra hge
  rw [getLsbD_clz x _ (by omega)] at hset
  cases hset

/-- The bits outside a window of `l` leading and `t` trailing zeros are lost in no write. -/
theorem window_round_trip (x : BitVec 64) (l t : Nat) (hl : l ≤ x.clz.toNat)
    (ht : t ≤ x.ctz.toNat) : (((x >>> t).setWidth (64 - l - t)).setWidth 64) <<< t = x := by
  apply BitVec.eq_of_getLsbD_eq
  intro i hi
  rw [BitVec.getLsbD_shiftLeft, BitVec.getLsbD_setWidth, BitVec.getLsbD_setWidth,
    BitVec.getLsbD_ushiftRight]
  by_cases hlow : i < t
  · simp [hlow, BitVec.getLsbD_false_of_lt_ctz (lt_of_lt_of_le hlow ht)]
  · by_cases hhigh : i < 64 - l
    · simp [hi, hlow, show i - t < 64 - l - t by omega, show i - t < 64 by omega,
        show t + (i - t) = i by omega]
    · rw [getLsbD_clz x i (by omega)]
      simp [show ¬ i - t < 64 - l - t by omega]

theorem leadingZeros_le (x : BitVec 64) :
    0 ≤ leadingZeros x ∧ leadingZeros x ≤ 31 ∧ leadingZeros x ≤ x.clz.toNat := by
  unfold leadingZeros
  split <;> omega

/-- A window as the encoder uses it, with room for at least one meaningful bit. -/
structure Window (leading trailing : Int) : Prop where
  leading_nonneg : 0 ≤ leading
  leading_le : leading ≤ 31
  trailing_nonneg : 0 ≤ trailing
  sum_lt : leading + trailing < 64

theorem window_xor {x : BitVec 64} (hx : x ≠ 0#64) : Window (leadingZeros x) (trailingZeros x) := by
  have hl := leadingZeros_le x
  have hs := clz_add_ctz_lt hx
  unfold trailingZeros
  exact ⟨hl.1, hl.2.1, by omega, by omega⟩

/-- The decoder that has read everything the encoder has written. -/
def mirror (encoder : ValueEncoder) : ValueDecoder :=
  ⟨encoder.prevValueBits, encoder.prevLeading, encoder.prevTrailing, encoder.isFirst⟩

def xorCode (encoder : ValueEncoder) (xorVal : BitVec 64) : List Bool :=
  if xorVal = 0#64 then [false]
  else if encoder.prevLeading ≤ leadingZeros xorVal ∧ encoder.prevTrailing ≤ trailingZeros xorVal then
    [true, false] ++ bits (xorVal >>> encoder.prevTrailing.toNat)
      (64 - encoder.prevLeading - encoder.prevTrailing).toNat
  else
    let nMeaningful := 64 - leadingZeros xorVal - trailingZeros xorVal
    [true, true] ++ (bits (BitVec.ofInt 64 (leadingZeros xorVal)) 5 ++
      (bits (BitVec.ofInt 64 nMeaningful) 6 ++
        bits (xorVal >>> (trailingZeros xorVal).toNat) nMeaningful.toNat))

def valCode (encoder : ValueEncoder) (value : BitVec 64) : List Bool :=
  if encoder.isFirst then bits (value &&& valueMask) 64
  else xorCode encoder ((value &&& valueMask) ^^^ encoder.prevValueBits)

theorem written_xor {bs : List Bool} {bw : BitWriter} (h : Written bs bw)
    (encoder : ValueEncoder) (xorVal : BitVec 64) :
    Written (bs ++ xorCode encoder xorVal) (valEncoderWriteXor encoder bw xorVal).2.2 := by
  unfold xorCode valEncoderWriteXor
  split
  · exact written_write h 0 1
  dsimp only
  split
  · rw [← List.append_assoc]
    exact written_write (written_write h 0x02 2) _ _
  · rw [← bits_and_mask _ 6 (by decide)]
    simp only [← List.append_assoc]
    exact written_write (written_write (written_write (written_write h 0x03 2) _ 5) _ 6) _ _

theorem written_val {bs : List Bool} {bw : BitWriter} (h : Written bs bw)
    (encoder : ValueEncoder) (value : BitVec 64) :
    Written (bs ++ valCode encoder value) (valEncoderWrite encoder bw value).2 := by
  unfold valCode valEncoderWrite
  dsimp only
  split
  · exact written_write h _ 64
  · exact written_xor h encoder _

def nextWindow (encoder : ValueEncoder) (xorVal : BitVec 64) : Int × Int :=
  if xorVal = 0#64 ∨ encoder.prevLeading ≤ leadingZeros xorVal ∧
      encoder.prevTrailing ≤ trailingZeros xorVal then (encoder.prevLeading, encoder.prevTrailing)
  else (leadingZeros xorVal, trailingZeros xorVal)

theorem window_next {encoder : ValueEncoder} (h : Window encoder.prevLeading encoder.prevTrailing)
    (xorVal : BitVec 64) :
    Window (nextWindow encoder xorVal).1 (nextWindow encoder xorVal).2 := by
  unfold nextWindow
  split
  · exact h
  · rename_i hn
    exact window_xor fun h0 => hn (.inl h0)

theorem valEncoderWriteXor_window (encoder : ValueEncoder) (bw : BitWriter) (xorVal : BitVec 64) :
    valEncoderWriteXor encoder bw xorVal = ((nextWindow encoder xorVal).1,
      (nextWindow encoder xorVal).2, (valEncoderWriteXor encoder bw xorVal).2.2) := by
  unfold valEncoderWriteXor nextWindow
  by_cases h0 : xorVal = 0#64
  · simp [h0]
  · by_cases hw : encoder.prevLeading ≤ leadingZeros xorVal ∧
      encoder.prevTrailing ≤ trailingZeros xorVal <;> simp [h0, hw]

theorem toNat_small (n : Int) (k : Nat) (h0 : 0 ≤ n) (hk : n < 2 ^ k) (hk' : k ≤ 64) :
    ((((BitVec.ofInt 64 n).setWidth k).setWidth 64).toNat : Int) = n := by
  obtain ⟨m, rfl⟩ := Int.eq_ofNat_of_zero_le h0
  have hm : m < 2 ^ k := by exact_mod_cast hk
  have h64 : m < 2 ^ 64 := lt_of_lt_of_le hm (Nat.pow_le_pow_right (by decide) hk')
  rw [BitVec.ofInt_natCast, BitVec.toNat_setWidth, BitVec.toNat_setWidth, BitVec.toNat_ofNat,
    Nat.mod_eq_of_lt h64, Nat.mod_eq_of_lt hm, Nat.mod_eq_of_lt h64]

/-- A width of 64 does not fit its six bits: it is written as 0 and read as 64. -/
theorem width_back (n : Int) (h0 : 0 < n) (h64 : n ≤ 64) :
    (if ((BitVec.ofInt 64 n).setWidth 6).setWidth 64 = 0#64 then (64 : Int)
      else ((((BitVec.ofInt 64 n).setWidth 6).setWidth 64).toNat : Int)) = n := by
  by_cases he : n = 64
  · subst he
    rfl
  · have hn := toNat_small n 6 (by omega) (by omega) (by decide)
    rw [if_neg, hn]
    intro hz
    rw [hz] at hn
    simp at hn
    omega

theorem ready_xor {buf : ByteBuffer} {more : List Bool} {br : BitReader}
    {encoder : ValueEncoder} (hw : Window encoder.prevLeading encoder.prevTrailing)
    (xorVal : BitVec 64) (h : Ready buf (xorCode encoder xorVal ++ more) br) :
    ∃ br', valDecoderReadXor (mirror encoder) br = (xorVal, (nextWindow encoder xorVal).1,
      (nextWindow encoder xorVal).2, br') ∧ Ready buf more br' := by
  unfold xorCode at h
  unfold valDecoderReadXor nextWindow mirror
  dsimp only
  split at h
  · rename_i h0
    obtain ⟨br', he, h⟩ := ready_bit false h
    exact ⟨br', by simp [he, h0], h⟩
  split at h
  · rename_i h0 hin
    obtain ⟨br₀, h0', h⟩ := ready_bit true h
    obtain ⟨br₁, h1, h⟩ := ready_bit false h
    obtain ⟨br', he, h⟩ := ready_bits _ _ h
    refine ⟨br', ?_, h⟩
    have hx := window_round_trip xorVal encoder.prevLeading.toNat encoder.prevTrailing.toNat
      (by have := leadingZeros_le xorVal; omega) (by have := hin.2; unfold trailingZeros at this; omega)
    have hn : (64 - encoder.prevLeading - encoder.prevTrailing).toNat =
        64 - encoder.prevLeading.toNat - encoder.prevTrailing.toNat := by
      have := hw.leading_nonneg
      have := hw.trailing_nonneg
      omega
    rw [hn] at he
    simp [h0', h1, hn, he, hx, hin]
  · rename_i h0 hin
    have hx := window_xor h0
    obtain ⟨hl0, hl31, ht0, hsum⟩ := hx
    simp only [List.cons_append, List.nil_append, List.append_assoc] at h
    obtain ⟨br₀, h0', h⟩ := ready_bit true h
    obtain ⟨br₁, h1, h⟩ := ready_bit true h
    obtain ⟨br₂, h2, h⟩ := ready_bits _ 5 h
    obtain ⟨br₃, h3, h⟩ := ready_bits _ 6 h
    obtain ⟨br', h4, h⟩ := ready_bits _ _ h
    refine ⟨br', ?_, h⟩
    have hlead := toNat_small (leadingZeros xorVal) 5 hl0 (by omega) (by decide)
    have hwidth := width_back (64 - leadingZeros xorVal - trailingZeros xorVal) (by omega) (by omega)
    have hround := window_round_trip xorVal (leadingZeros xorVal).toNat (trailingZeros xorVal).toNat
      (by have := leadingZeros_le xorVal; omega) (by simp [trailingZeros])
    have hn : (64 - leadingZeros xorVal - trailingZeros xorVal).toNat =
        64 - (leadingZeros xorVal).toNat - (trailingZeros xorVal).toNat := by omega
    rw [← hn] at hround
    have ht : 64 - leadingZeros xorVal - (64 - leadingZeros xorVal - trailingZeros xorVal) =
        trailingZeros xorVal := by omega
    simp only [h0', h1, h2, h3, hlead, hwidth, h4, hround, ht]
    simp [h0, hin]

theorem window_write {encoder : ValueEncoder}
    (hw : Window encoder.prevLeading encoder.prevTrailing) (bw : BitWriter) (value : BitVec 64) :
    Window (valEncoderWrite encoder bw value).1.prevLeading
      (valEncoderWrite encoder bw value).1.prevTrailing := by
  unfold valEncoderWrite
  dsimp only
  split
  · exact hw
  · rw [valEncoderWriteXor_window]
    exact window_next hw _

theorem ready_val {buf : ByteBuffer} {more : List Bool} {br : BitReader} {encoder : ValueEncoder}
    (hw : Window encoder.prevLeading encoder.prevTrailing) (bw : BitWriter) (value : BitVec 64)
    (h : Ready buf (valCode encoder value ++ more) br) :
    ∃ br', valDecoderRead (mirror encoder) br =
      (value &&& valueMask, mirror (valEncoderWrite encoder bw value).1, br') ∧
      Ready buf more br' := by
  unfold valCode at h
  unfold valDecoderRead valEncoderWrite
  split at h
  · rename_i hfirst
    obtain ⟨br', he, h⟩ := ready_bits _ 64 h
    refine ⟨br', ?_, h⟩
    simp [mirror, hfirst, he, BitVec.and_assoc]
  · rename_i hfirst
    obtain ⟨br', he, h⟩ := ready_xor hw _ h
    refine ⟨br', ?_, h⟩
    have hback : encoder.prevValueBits ^^^ ((value &&& valueMask) ^^^ encoder.prevValueBits) =
        value &&& valueMask := by
      rw [BitVec.xor_comm, BitVec.xor_assoc, BitVec.xor_self, BitVec.xor_zero]
    rw [he]
    dsimp only
    rw [valEncoderWriteXor_window]
    simp [mirror, hfirst, hback]

end Tsdb.ValueCodec
