import Tsdb.Chunk
import Tsdb.TimestampCodec
import Tsdb.ValueCodec

namespace Tsdb.ChunkCodec

open BitField BitIO BitWriting BitReading Timestamp Value TimestampCodec ValueCodec Chunk

/-- What the readers make of the timestamps, each side moving through its own states. -/
def recovered (encoder : TimestampEncoder) (decoder : TimestampDecoder) :
    List (BitVec 64) → List (BitVec 64)
  | [] => []
  | ts :: rest =>
    let decoder := recover decoder encoder ts
    decoder.prevTimestamp :: recovered (tsEncoderWrite encoder bwCreate ts).1 decoder rest

theorem tsEncoderWrite_state (encoder : TimestampEncoder) (bw bw' : BitWriter) (ts : BitVec 64) :
    (tsEncoderWrite encoder bw ts).1 = (tsEncoderWrite encoder bw' ts).1 := by
  unfold tsEncoderWrite
  dsimp only
  split
  · rfl
  split <;> rfl

theorem tsCode_length (encoder : TimestampEncoder) (ts : BitVec 64) :
    (tsCode encoder ts).length ≤ 64 := by
  unfold tsCode dodCode
  dsimp only
  repeat' split
  all_goals simp

theorem valCode_length {encoder : ValueEncoder} (h : Window encoder.prevLeading encoder.prevTrailing)
    (value : BitVec 64) : (valCode encoder value).length ≤ 80 := by
  have hl := h.leading_nonneg
  have ht := h.trailing_nonneg
  unfold valCode xorCode
  split
  · simp
  split
  · simp
  split
  · simp
    omega
  · rename_i h0 _
    have hw := window_xor h0
    have := hw.leading_nonneg
    have := hw.trailing_nonneg
    simp
    omega

/-- One interleaved stream: what the encoder loop writes, the decoder loop reads back,
with no bit left over and none missing. -/
theorem stream_run (points : List (BitVec 64 × BitVec 64)) {tsEnc : TimestampEncoder}
    {valEnc : ValueEncoder} {tsDec : TimestampDecoder} {bs : List Bool} {bw : BitWriter}
    (h : Written bs bw) (hs : SameStage tsEnc tsDec)
    (hw : Window valEnc.prevLeading valEnc.prevTrailing) :
    ∃ code, Written (bs ++ code) (encodeLoop tsEnc valEnc bw points) ∧
      code.length ≤ 144 * points.length ∧
      ∀ buf more br, Ready buf (code ++ more) br →
        ∃ br', decodeLoop points.length tsDec (mirror valEnc) br =
          ((recovered tsEnc tsDec (points.map Prod.fst)).zip
            (points.map fun p => p.2 &&& valueMask), br') ∧ Ready buf more br' := by
  induction points generalizing tsEnc valEnc tsDec bs bw with
  | nil => exact ⟨[], by simpa [encodeLoop] using h, by simp, fun buf more br hr => ⟨br, rfl, hr⟩⟩
  | cons p points ih =>
    obtain ⟨ts, value⟩ := p
    have hts := written_ts h tsEnc ts
    have hval := written_val hts valEnc value
    obtain ⟨code, hcode, hlen, hread⟩ := ih hval (sameStage_step hs bw ts)
      (window_write hw (tsEncoderWrite tsEnc bw ts).2 value)
    refine ⟨tsCode tsEnc ts ++ valCode valEnc value ++ code, ?_, ?_, ?_⟩
    · simpa [encodeLoop] using hcode
    · have h1 := tsCode_length tsEnc ts
      have h2 := valCode_length hw value
      simp only [List.length_append, List.length_cons]
      omega
    · intro buf more br hr
      rw [List.append_assoc, List.append_assoc] at hr
      obtain ⟨br₁, he₁, hr⟩ := ready_ts hs ts hr
      obtain ⟨br₂, he₂, hr⟩ := ready_val hw (tsEncoderWrite tsEnc bw ts).2 value hr
      obtain ⟨br', he, hr⟩ := hread buf more br₂ hr
      refine ⟨br', ?_, hr⟩
      rw [List.length_cons, decodeLoop, he₁]
      dsimp only
      rw [he₂]
      dsimp only
      rw [he, tsEncoderWrite_state tsEnc bw bwCreate ts]
      rfl

theorem window_init : Window valEncoderInit.prevLeading valEncoderInit.prevTrailing :=
  ⟨by decide, by decide, by decide, by decide⟩

theorem decode_encode (points : List (BitVec 64 × BitVec 64)) (buf : ByteBuffer)
    (hbuf : buf.data = (bwClose (encodePoints points)).buffer.data) :
    (decodePoints points.length buf).1 =
        (recovered tsEncoderInit tsDecoderInit (points.map Prod.fst)).zip
          (points.map fun p => p.2 &&& valueMask) ∧
      position (decodePoints points.length buf).2 =
        8 * (encodePoints points).buffer.data.length + (encodePoints points).filledBits ∧
      (decodePoints points.length buf).2.hitEnd = false ∧
      buf.data.length ≤ 18 * points.length := by
  obtain ⟨code, hcode, hlen, hread⟩ :=
    stream_run points written_create sameStage_init window_init
  rw [List.nil_append] at hcode
  change Written code (encodePoints points) at hcode
  obtain ⟨hpad, hsize⟩ := octets_close hcode
  have hready := ready_create buf
  rw [hbuf, hpad] at hready
  obtain ⟨br', he, hr⟩ := hread buf _ _ hready
  change decodePoints points.length buf = _ at he
  have hpos := position_ready hr
  have hbits := congrArg List.length hcode.bits_eq
  rw [List.length_replicate, hbuf] at hpos
  rw [List.length_append, octets_length, field_length] at hbits
  have hle := congrArg List.length hpad
  rw [octets_length, List.length_append] at hle
  refine ⟨by rw [he], ?_, by rw [he]; exact hr.clean, by rw [hbuf]; omega⟩
  rw [he]
  dsimp only
  omega

end Tsdb.ChunkCodec
