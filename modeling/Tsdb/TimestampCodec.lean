import Tsdb.Timestamp
import Tsdb.BitReading

namespace Tsdb.TimestampCodec

open BitField BitIO BitWriting BitReading Timestamp

/-- What is left of a 64-bit difference after a round trip through an `n`-bit field. -/
def narrow (n : Nat) (x : BitVec 64) : BitVec 64 := (x.setWidth n).signExtend 64

theorem narrow_toInt {n : Nat} (hn : n ≤ 64) (x : BitVec 64) :
    (narrow n x).toInt = x.toInt.bmod (2 ^ n) := by
  rw [narrow, BitVec.toInt_signExtend_of_le hn, BitVec.toInt_setWidth,
    BitVec.toInt_eq_toNat_bmod, Int.bmod_bmod_of_dvd (Nat.pow_dvd_pow 2 hn)]

theorem narrow_eq_iff (n : Nat) (hn : 0 < n) (hn' : n ≤ 64) (x : BitVec 64) :
    narrow n x = x ↔ -2 ^ (n - 1) ≤ x.toInt ∧ x.toInt < 2 ^ (n - 1) := by
  have ht := narrow_toInt hn' x
  have hp : (2 ^ n : Nat) = 2 * 2 ^ (n - 1) := by
    rw [← Nat.pow_succ', Nat.succ_eq_add_one, Nat.sub_add_cancel hn]
  have hi : ((2 ^ (n - 1) : Nat) : Int) = 2 ^ (n - 1) := by push_cast; rfl
  rw [← BitVec.toInt_inj, ht, Int.bmod_eq_iff (Nat.two_pow_pos n), sub_self, hp, ← hi]
  generalize 2 ^ (n - 1) = m
  push_cast
  constructor
  · rintro ⟨h1, h2, _⟩
    omega
  · intro h
    exact ⟨by omega, by omega, dvd_zero _⟩

theorem narrow_of_range (n : Nat) (hn : 0 < n) (hn' : n ≤ 64) (x : BitVec 64)
    (h : -2 ^ (n - 1) ≤ x.toInt ∧ x.toInt < 2 ^ (n - 1)) : narrow n x = x :=
  (narrow_eq_iff n hn hn' x).mpr h

theorem signExtend_narrow (n : Nat) (hn : 0 < n) (hn' : n < 64) (x : BitVec 64) :
    signExtend ((x.setWidth n).setWidth 64) n = narrow n x := by
  have hsign : (x.setWidth n).setWidth 64 &&& (1#64 <<< (n - 1)) =
      if x.getLsbD (n - 1) then BitVec.twoPow 64 (n - 1) else 0#64 := by
    change _ &&& BitVec.twoPow 64 (n - 1) = _
    rw [BitVec.and_twoPow]
    simp [show n - 1 < 64 by omega, hn]
  have htwo : BitVec.twoPow 64 (n - 1) ≠ 0 := by
    intro h
    have hb := congrArg (fun y => y.getLsbD (n - 1)) h
    simp [BitVec.getLsbD_twoPow] at hb
    omega
  apply BitVec.eq_of_getLsbD_eq
  intro i hi
  rw [signExtend, hsign, narrow, BitVec.getLsbD_signExtend, BitVec.msb_setWidth]
  have hones : (BitVec.allOnes 64 <<< n).getLsbD i = decide (n ≤ i) := by
    rw [BitVec.getLsbD_shiftLeft, BitVec.getLsbD_allOnes]
    by_cases hin : i < n
    · simp [hin]
    · simp [hi, hin, show n ≤ i by omega, show i - n < 64 by omega]
  cases x.getLsbD (n - 1) with
  | false => by_cases hin : i < n <;> simp [hi, hin]
  | true =>
    rw [if_pos rfl, if_pos htwo, BitVec.getLsbD_or, hones, BitVec.getLsbD_setWidth,
      BitVec.getLsbD_setWidth]
    by_cases hin : i < n <;> simp [hi, hin, hn]
    omega

def dodCode (d : BitVec 64) : List Bool :=
  if d = 0 then [false]
  else if -64 ≤ d.toInt ∧ d.toInt ≤ 63 then [true, false] ++ bits d 7
  else if -256 ≤ d.toInt ∧ d.toInt ≤ 255 then [true, true, false] ++ bits d 9
  else if -2048 ≤ d.toInt ∧ d.toInt ≤ 2047 then [true, true, true, false] ++ bits d 12
  else [true, true, true, true] ++ bits d 32

def tsCode (encoder : TimestampEncoder) (timestamp : BitVec 64) : List Bool :=
  let delta := timestamp - encoder.prevTimestamp
  if encoder.isFirst then bits timestamp 64
  else if encoder.isSecond then bits delta 14
  else dodCode (delta - encoder.prevDelta)

theorem written_dod {bs : List Bool} {bw : BitWriter} (h : Written bs bw) (d : BitVec 64) :
    Written (bs ++ dodCode d) (tsEncoderWriteD bw d) := by
  have hclass (p : BitVec 64) (k n : Nat) (hn : n < 64) :
      Written (bs ++ (bits p k ++ bits d n))
        (bwWrite (bwWrite bw p k) (d &&& ((1#64 <<< n) - 1#64)) n) := by
    rw [← bits_and_mask d n hn, ← List.append_assoc]
    exact written_write (written_write h p k) _ n
  unfold dodCode tsEncoderWriteD
  split
  · exact written_write h 0 1
  split
  · exact hclass 0x02 2 7 (by decide)
  split
  · exact hclass 0x06 3 9 (by decide)
  split
  · exact hclass 0x0E 4 12 (by decide)
  · exact hclass 0x0F 4 32 (by decide)

theorem written_ts {bs : List Bool} {bw : BitWriter} (h : Written bs bw)
    (encoder : TimestampEncoder) (timestamp : BitVec 64) :
    Written (bs ++ tsCode encoder timestamp) (tsEncoderWrite encoder bw timestamp).2 := by
  unfold tsCode tsEncoderWrite
  dsimp only
  split
  · exact written_write h timestamp 64
  split
  · rw [← bits_and_mask _ 14 (by decide)]
    exact written_write h _ 14
  · exact written_dod h _

theorem ready_dod {buf : ByteBuffer} {more : List Bool} {br : BitReader} (d : BitVec 64)
    (hd : d ≠ 0) (h : Ready buf (dodCode d ++ more) br) :
    ∃ br₀ br', brRead br 1 = (1, br₀) ∧ tsDecoderReadD br₀ = (narrow 32 d, br') ∧
      Ready buf more br' := by
  have hclass (n : Nat) (hn : 0 < n) (hn' : n < 64) {br₁ : BitReader}
      (hr : Ready buf (bits d n ++ more) br₁)
      (hrange : n = 32 ∨ n < 32 ∧ -2 ^ (n - 1) ≤ d.toInt ∧ d.toInt < 2 ^ (n - 1)) :
      ∃ raw br', brRead br₁ n = (raw, br') ∧ signExtend raw n = narrow 32 d ∧
        Ready buf more br' := by
    obtain ⟨br', he, hr'⟩ := ready_bits d n hr
    refine ⟨_, br', he, ?_, hr'⟩
    rw [signExtend_narrow n hn hn' d]
    rcases hrange with rfl | ⟨hlt, hlo, hhi⟩
    · rfl
    · have hp : (2 : Int) ^ (n - 1) ≤ 2 ^ 31 := by
        exact_mod_cast Nat.pow_le_pow_right (by decide) (by omega : n - 1 ≤ 31)
      rw [narrow_of_range n hn (by omega) d ⟨hlo, hhi⟩,
        narrow_of_range 32 (by decide) (by decide) d ⟨by omega, by omega⟩]
  unfold dodCode at h
  rw [if_neg hd] at h
  split at h
  · rename_i hr
    obtain ⟨br₀, h0, h⟩ := ready_bit true h
    obtain ⟨br₁, h1, h⟩ := ready_bit false h
    obtain ⟨raw, br', he, hv, h⟩ := hclass 7 (by decide) (by decide) h (by omega)
    exact ⟨br₀, br', h0, by simp [tsDecoderReadD, h1, he, hv], h⟩
  split at h
  · rename_i hr
    obtain ⟨br₀, h0, h⟩ := ready_bit true h
    obtain ⟨br₁, h1, h⟩ := ready_bit true h
    obtain ⟨br₂, h2, h⟩ := ready_bit false h
    obtain ⟨raw, br', he, hv, h⟩ := hclass 9 (by decide) (by decide) h (by omega)
    exact ⟨br₀, br', h0, by simp [tsDecoderReadD, h1, h2, he, hv], h⟩
  split at h
  · rename_i hr
    obtain ⟨br₀, h0, h⟩ := ready_bit true h
    obtain ⟨br₁, h1, h⟩ := ready_bit true h
    obtain ⟨br₂, h2, h⟩ := ready_bit true h
    obtain ⟨br₃, h3, h⟩ := ready_bit false h
    obtain ⟨raw, br', he, hv, h⟩ := hclass 12 (by decide) (by decide) h (by omega)
    exact ⟨br₀, br', h0, by simp [tsDecoderReadD, h1, h2, h3, he, hv], h⟩
  · obtain ⟨br₀, h0, h⟩ := ready_bit true h
    obtain ⟨br₁, h1, h⟩ := ready_bit true h
    obtain ⟨br₂, h2, h⟩ := ready_bit true h
    obtain ⟨br₃, h3, h⟩ := ready_bit true h
    obtain ⟨raw, br', he, hv, h⟩ := hclass 32 (by decide) (by decide) h (.inl rfl)
    exact ⟨br₀, br', h0, by simp [tsDecoderReadD, h1, h2, h3, he, hv], h⟩

/-- The decoder's state after the codeword of `timestamp`; it drifts from the encoder's
once a difference has not fitted its field. -/
def recover (decoder : TimestampDecoder) (encoder : TimestampEncoder) (timestamp : BitVec 64) :
    TimestampDecoder :=
  let delta := timestamp - encoder.prevTimestamp
  if encoder.isFirst then
    { decoder with prevTimestamp := timestamp, isFirst := false, isSecond := true }
  else if encoder.isSecond then
    { decoder with
      prevTimestamp := decoder.prevTimestamp + narrow 14 delta
      prevDelta := narrow 14 delta
      isSecond := false }
  else
    let delta' := decoder.prevDelta + narrow 32 (delta - encoder.prevDelta)
    { decoder with prevTimestamp := decoder.prevTimestamp + delta', prevDelta := delta' }

structure SameStage (encoder : TimestampEncoder) (decoder : TimestampDecoder) : Prop where
  first_eq : decoder.isFirst = encoder.isFirst
  second_eq : decoder.isSecond = encoder.isSecond

theorem sameStage_init : SameStage tsEncoderInit tsDecoderInit := ⟨rfl, rfl⟩

theorem sameStage_step {encoder : TimestampEncoder} {decoder : TimestampDecoder}
    (h : SameStage encoder decoder) (bw : BitWriter) (timestamp : BitVec 64) :
    SameStage (tsEncoderWrite encoder bw timestamp).1 (recover decoder encoder timestamp) := by
  obtain ⟨h1, h2⟩ := h
  unfold tsEncoderWrite recover
  dsimp only
  split
  · exact ⟨rfl, rfl⟩
  split
  · exact ⟨h1, rfl⟩
  · exact ⟨h1, h2⟩

theorem ready_ts {buf : ByteBuffer} {more : List Bool} {br : BitReader}
    {encoder : TimestampEncoder} {decoder : TimestampDecoder} (hs : SameStage encoder decoder)
    (timestamp : BitVec 64) (h : Ready buf (tsCode encoder timestamp ++ more) br) :
    ∃ br', tsDecoderRead decoder br = ((recover decoder encoder timestamp).prevTimestamp,
      recover decoder encoder timestamp, br') ∧ Ready buf more br' := by
  obtain ⟨h1, h2⟩ := hs
  unfold tsCode at h
  unfold tsDecoderRead recover
  rw [h1, h2]
  dsimp only at h ⊢
  split at h
  · rename_i hf
    obtain ⟨br', he, h⟩ := ready_bits timestamp 64 h
    refine ⟨br', ?_, h⟩
    simp [hf, he]
  split at h
  · rename_i hf hsec
    obtain ⟨br', he, h⟩ := ready_bits _ 14 h
    refine ⟨br', ?_, h⟩
    simp only [hf, hsec, he, signExtend_narrow 14 (by decide) (by decide)]
    rfl
  · rename_i hf hsec
    rw [if_neg hf, if_neg hf, if_neg hsec, if_neg hsec]
    by_cases hd : timestamp - encoder.prevTimestamp - encoder.prevDelta = 0
    · rw [hd] at h ⊢
      obtain ⟨br', he, h⟩ := ready_bit false h
      refine ⟨br', ?_, h⟩
      simp [he, narrow]
    · obtain ⟨br₀, br', h0, he, h⟩ := ready_dod _ hd h
      refine ⟨br', ?_, h⟩
      simp [h0, he]

end Tsdb.TimestampCodec
