import Tsdb.ChunkLossless

namespace Tsdb.TimestampStream

open BitIO BitWriting BitReading Timestamp TimestampCodec ChunkCodec ChunkLossless

def tsEncode (encoder : TimestampEncoder) (bw : BitWriter) : List (BitVec 64) → BitWriter
  | [] => bw
  | ts :: rest =>
    let (encoder, bw) := tsEncoderWrite encoder bw ts
    tsEncode encoder bw rest

def tsDecode (decoder : TimestampDecoder) (br : BitReader) : Nat → List (BitVec 64)
  | 0 => []
  | count + 1 =>
    let (ts, decoder, br) := tsDecoderRead decoder br
    ts :: tsDecode decoder br count

def tsBuffer (ts : List (BitVec 64)) : ByteBuffer :=
  (bwClose (tsEncode tsEncoderInit bwCreate ts)).buffer

/-- The two states walk together: what one list adds to the writer is exactly what the reader
takes off again, each timestamp recovered in its turn. -/
theorem tsStream_run (ts : List (BitVec 64)) {encoder : TimestampEncoder}
    {decoder : TimestampDecoder} {bs : List Bool} {bw : BitWriter}
    (h : Written bs bw) (hs : SameStage encoder decoder) :
    ∃ code, Written (bs ++ code) (tsEncode encoder bw ts) ∧
      ∀ buf more br, Ready buf (code ++ more) br →
        tsDecode decoder br ts.length = recovered encoder decoder ts := by
  induction ts generalizing encoder decoder bs bw with
  | nil => exact ⟨[], by simpa [tsEncode] using h, fun _ _ _ _ => rfl⟩
  | cons t ts ih =>
    obtain ⟨code, hcode, hread⟩ := ih (written_ts h encoder t) (sameStage_step hs bw t)
    refine ⟨tsCode encoder t ++ code, ?_, ?_⟩
    · simpa [tsEncode] using hcode
    · intro buf more br hr
      rw [List.append_assoc] at hr
      obtain ⟨br', he, hr'⟩ := ready_ts hs t hr
      rw [List.length_cons, tsDecode, he]
      dsimp only
      rw [hread buf more br' hr', tsEncoderWrite_state encoder bw bwCreate t]
      rfl

theorem tsDecode_tsBuffer (ts : List (BitVec 64)) :
    tsDecode tsDecoderInit (brCreate (tsBuffer ts)) ts.length =
      recovered tsEncoderInit tsDecoderInit ts := by
  obtain ⟨code, hcode, hread⟩ := tsStream_run ts written_create sameStage_init
  rw [List.nil_append] at hcode
  have hready := ready_create (tsBuffer ts)
  obtain ⟨hpad, _⟩ := octets_close hcode
  change octets (tsBuffer ts).data = _ at hpad
  rw [hpad] at hready
  exact hread _ _ _ hready

/-- Decoding returns the list that was written exactly when the first difference fits its 14-bit
field and each later difference of differences the 32-bit one. -/
theorem tsDecode_eq_iff (ts : List (BitVec 64)) :
    tsDecode tsDecoderInit (brCreate (tsBuffer ts)) ts.length = ts ↔
      (∀ d ∈ (diffs ts).head?, -8192 ≤ d.toInt ∧ d.toInt ≤ 8191) ∧
        ∀ d ∈ diffs (diffs ts), -2 ^ 31 ≤ d.toInt ∧ d.toInt ≤ 2 ^ 31 - 1 := by
  rw [tsDecode_tsBuffer, recovered_eq_iff, FitsFields]
  refine and_congr (forall₂_congr fun d _ => ?_) (forall₂_congr fun d _ => ?_)
  · rw [InField]
    norm_num
    omega
  · rw [InField]
    norm_num
    omega

/-- A gap of 8192 seconds is the first that the 14 bits turn into another one. -/
example : tsDecode tsDecoderInit (brCreate (tsBuffer [0, 8192])) 2 = [0, -8192] := by
  decide +kernel

end Tsdb.TimestampStream
