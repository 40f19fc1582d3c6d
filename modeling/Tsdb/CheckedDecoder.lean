import Tsdb.ChunkLossless

namespace Tsdb.CheckedDecoder

open BitIO BitWriting BitReading Timestamp TimestampCodec Value ValueCodec Chunk ChunkCodec
  ChunkLossless Head

/-- `brread` as the value decoder may call it; `none` is a count outside of 0 to 64. -/
def brReadInt (br : BitReader) (nBits : Int) : Option (BitVec 64 × BitReader) :=
  if 0 ≤ nBits ∧ nBits ≤ 64 then some (brRead br nBits.toNat) else none

/-- A shift to the left; `none` is an amount for which C leaves it undefined. -/
def shiftLeft (x : BitVec 64) (n : Int) : Option (BitVec 64) :=
  if 0 ≤ n ∧ n ≤ 63 then some (x <<< n.toNat) else none

def readXor (decoder : ValueDecoder) (br : BitReader) :
    Option (BitVec 64 × Int × Int × BitReader) := do
  let (bit0, br) ← brReadInt br 1
  if bit0 = 0#64 then some (0, decoder.prevLeading, decoder.prevTrailing, br)
  else
    let (bit1, br) ← brReadInt br 1
    if bit1 = 0#64 then
      let nMeaningful := 64 - decoder.prevLeading - decoder.prevTrailing
      let (meaningfulBits, br) ← brReadInt br nMeaningful
      let xorVal ← shiftLeft meaningfulBits decoder.prevTrailing
      some (xorVal, decoder.prevLeading, decoder.prevTrailing, br)
    else
      let (rawLeading, br) ← brReadInt br 5
      let leading : Int := rawLeading.toNat
      let (rawMeaningful, br) ← brReadInt br 6
      let nMeaningful : Int := if rawMeaningful = 0#64 then 64 else rawMeaningful.toNat
      let trailing := 64 - leading - nMeaningful
      let (meaningfulBits, br) ← brReadInt br nMeaningful
      let xorVal ← shiftLeft meaningfulBits trailing
      some (xorVal, leading, trailing, br)

def valRead (decoder : ValueDecoder) (br : BitReader) :
    Option (BitVec 64 × ValueDecoder × BitReader) :=
  if decoder.isFirst then do
    let (raw, br) ← brReadInt br 64
    let valBits := raw &&& valueMask
    some (valBits, { decoder with prevValueBits := valBits, isFirst := false }, br)
  else do
    let (xorVal, leading, trailing, br) ← readXor decoder br
    let valBits := decoder.prevValueBits ^^^ xorVal
    some (valBits, { decoder with
      prevValueBits := valBits, prevLeading := leading, prevTrailing := trailing }, br)

structure KeepsWindow (decoder : ValueDecoder) : Prop where
  leading : 0 ≤ decoder.prevLeading
  trailing : 0 ≤ decoder.prevTrailing
  sum : decoder.prevLeading + decoder.prevTrailing ≤ 63

/-- Decoding `count` points goes through with every count and shift in its range, and every
decoder state on the way keeps its window. -/
def WellDefined : Nat → TimestampDecoder → ValueDecoder → BitReader → Prop
  | 0, _, valDec, _ => KeepsWindow valDec
  | count + 1, tsDec, valDec, br => KeepsWindow valDec ∧
    ∃ value valDec' br', valRead valDec (tsDecoderRead tsDec br).2.2 = some (value, valDec', br') ∧
      WellDefined count (tsDecoderRead tsDec br).2.1 valDec' br'

/-- The points the loop of a chunk reader decodes, `none` once a count or a shift is out of its
range. -/
def readPoints : Nat → TimestampDecoder → ValueDecoder → BitReader →
    Option (List (BitVec 64 × BitVec 64) × BitReader)
  | 0, _, _, br => some ([], br)
  | count + 1, tsDec, valDec, br => do
    let (timestamp, tsDec, br) := tsDecoderRead tsDec br
    let (value, valDec, br) ← valRead valDec br
    let (points, br) ← readPoints count tsDec valDec br
    some ((timestamp, value) :: points, br)

def DecodesWell (file : ChunkBytes) : Prop :=
  ∀ header payload, chunkRead file = some (header, payload) →
    WellDefined header.pointCount.toNat tsDecoderInit valDecoderInit (brCreate ⟨payload, 0⟩)

theorem brReadInt_some {br : BitReader} {nBits : Int} {out : BitVec 64 × BitReader}
    (h : brReadInt br nBits = some out) : brRead br nBits.toNat = out := by
  unfold brReadInt at h
  split at h
  · exact Option.some.inj h
  · cases h

theorem shiftLeft_some {x y : BitVec 64} {n : Int} (h : shiftLeft x n = some y) :
    x <<< n.toNat = y := by
  unfold shiftLeft at h
  split at h
  · exact Option.some.inj h
  · cases h

theorem readXor_eq {decoder : ValueDecoder} {br : BitReader}
    {out : BitVec 64 × Int × Int × BitReader} (h : readXor decoder br = some out) :
    valDecoderReadXor decoder br = out := by
  unfold readXor at h
  obtain ⟨⟨bit0, br₀⟩, hbit0, h⟩ := Option.bind_eq_some_iff.mp h
  have hbit0 : brRead br 1 = _ := brReadInt_some hbit0
  unfold valDecoderReadXor
  rw [hbit0]
  dsimp only at h ⊢
  split at h
  case isTrue hzero =>
    rw [if_pos hzero]
    exact Option.some.inj h
  case isFalse hset =>
    rw [if_neg hset]
    obtain ⟨⟨bit1, br₁⟩, hbit1, h⟩ := Option.bind_eq_some_iff.mp h
    have hbit1 : brRead br₀ 1 = _ := brReadInt_some hbit1
    rw [hbit1]
    dsimp only at h ⊢
    split at h
    case isTrue hagain =>
      rw [if_pos hagain]
      obtain ⟨⟨meaningful, br₂⟩, hread, h⟩ := Option.bind_eq_some_iff.mp h
      obtain ⟨xorVal, hshift, h⟩ := Option.bind_eq_some_iff.mp h
      rw [brReadInt_some hread]
      dsimp only at hshift ⊢
      rw [shiftLeft_some hshift]
      exact Option.some.inj h
    case isFalse hnew =>
      rw [if_neg hnew]
      obtain ⟨⟨rawLeading, br₂⟩, hleading, h⟩ := Option.bind_eq_some_iff.mp h
      have hleading : brRead br₁ 5 = _ := brReadInt_some hleading
      obtain ⟨⟨rawMeaningful, br₃⟩, hwidth, h⟩ := Option.bind_eq_some_iff.mp h
      have hwidth : brRead br₂ 6 = _ := brReadInt_some hwidth
      obtain ⟨⟨meaningful, br₄⟩, hread, h⟩ := Option.bind_eq_some_iff.mp h
      obtain ⟨xorVal, hshift, h⟩ := Option.bind_eq_some_iff.mp h
      rw [hleading]
      dsimp only at hwidth hread hshift h ⊢
      rw [hwidth]
      dsimp only
      rw [brReadInt_some hread]
      dsimp only at hshift ⊢
      rw [shiftLeft_some hshift]
      exact Option.some.inj h

theorem valRead_eq {decoder : ValueDecoder} {br : BitReader}
    {out : BitVec 64 × ValueDecoder × BitReader} (h : valRead decoder br = some out) :
    valDecoderRead decoder br = out := by
  unfold valRead at h
  unfold valDecoderRead
  split at h
  case isTrue hfirst =>
    rw [if_pos hfirst]
    exact Option.some.inj h
  case isFalse hlater =>
    rw [if_neg hlater]
    obtain ⟨⟨xorVal, leading, trailing, br'⟩, hxor, h⟩ := Option.bind_eq_some_iff.mp h
    rw [readXor_eq hxor]
    exact Option.some.inj h

theorem wellDefined_readPoints {count : Nat} {tsDec : TimestampDecoder} {valDec : ValueDecoder}
    {br : BitReader} (h : WellDefined count tsDec valDec br) :
    readPoints count tsDec valDec br = some (decodeLoop count tsDec valDec br) := by
  induction count generalizing tsDec valDec br with
  | zero => rfl
  | succ count ih =>
    obtain ⟨-, value, valDec', br', hread, hrest⟩ := h
    unfold readPoints decodeLoop
    dsimp only
    rw [hread, valRead_eq hread, Option.bind_eq_bind, Option.bind_some]
    dsimp only
    rw [ih hrest]
    rfl

variable {br : BitReader} {decoder : ValueDecoder}

theorem wellDefined_succ {count : Nat} {tsDec : TimestampDecoder} {value : BitVec 64}
    {valDec' : ValueDecoder} {br' : BitReader} (hwindow : KeepsWindow decoder)
    (h : valRead decoder (tsDecoderRead tsDec br).2.2 = some (value, valDec', br')) :
    WellDefined (count + 1) tsDec decoder br ↔
      WellDefined count (tsDecoderRead tsDec br).2.1 valDec' br' := by
  constructor
  · rintro ⟨-, value₁, valDec₁, br₁, hread, hrest⟩
    cases h.symm.trans hread
    exact hrest
  · intro hrest
    exact ⟨hwindow, value, valDec', br', h, hrest⟩

theorem not_wellDefined {count : Nat} {tsDec : TimestampDecoder}
    (h : valRead decoder (tsDecoderRead tsDec br).2.2 = none) :
    ¬ WellDefined (count + 1) tsDec decoder br := by
  rintro ⟨-, value, valDec', br', hread, -⟩
  cases h.symm.trans hread

theorem KeepsWindow.of_same {decoder' : ValueDecoder} (h : KeepsWindow decoder)
    (hleading : decoder'.prevLeading = decoder.prevLeading)
    (htrailing : decoder'.prevTrailing = decoder.prevTrailing) : KeepsWindow decoder' := by
  obtain ⟨hl, ht, hs⟩ := h
  constructor
  · rwa [hleading]
  · rwa [htrailing]
  · rwa [hleading, htrailing]

theorem brReadInt_range (br : BitReader) {nBits : Int} (h0 : 0 ≤ nBits) (h64 : nBits ≤ 64) :
    brReadInt br nBits = some (brRead br nBits.toNat) := if_pos ⟨h0, h64⟩

/-- The checks miss nothing but a window that is not kept. -/
theorem readXor_of_keeps (hwindow : KeepsWindow decoder)
    (hleading : 0 ≤ (valDecoderReadXor decoder br).2.1)
    (htrailing : 0 ≤ (valDecoderReadXor decoder br).2.2.1)
    (hsum : (valDecoderReadXor decoder br).2.1 + (valDecoderReadXor decoder br).2.2.1 ≤ 63) :
    readXor decoder br = some (valDecoderReadXor decoder br) := by
  obtain ⟨hl, ht, hs⟩ := hwindow
  have hbit (br : BitReader) : brReadInt br 1 = some (brRead br 1) := rfl
  have hfive (br : BitReader) : brReadInt br 5 = some (brRead br 5) := rfl
  have hsix (br : BitReader) : brReadInt br 6 = some (brRead br 6) := rfl
  unfold valDecoderReadXor at hleading htrailing hsum ⊢
  unfold readXor
  rw [hbit, Option.bind_eq_bind, Option.bind_some]
  dsimp only at hleading htrailing hsum ⊢
  by_cases h0 : (brRead br 1).1 = 0#64
  · rw [if_pos h0, if_pos h0]
  rw [if_neg h0] at hleading htrailing hsum
  rw [if_neg h0, if_neg h0, hbit, Option.bind_some]
  by_cases h1 : (brRead (brRead br 1).2 1).1 = 0#64
  · rw [if_pos h1, if_pos h1, brReadInt_range _ (by omega) (by omega), Option.bind_some,
      shiftLeft, if_pos ⟨ht, by omega⟩]
    rfl
  rw [if_neg h1] at hleading htrailing hsum
  rw [if_neg h1, if_neg h1, hfive, Option.bind_some, hsix, Option.bind_some]
  dsimp only at hleading htrailing hsum
  have hwidth : (0 : Int) ≤ if (brRead (brRead (brRead (brRead br 1).2 1).2 5).2 6).1 = 0#64 then 64
      else ((brRead (brRead (brRead (brRead br 1).2 1).2 5).2 6).1.toNat : Int) := by
    split <;> omega
  rw [brReadInt_range _ hwidth (by omega), Option.bind_some, shiftLeft,
    if_pos ⟨htrailing, by omega⟩]
  rfl

theorem valRead_of_keeps (hwindow : KeepsWindow decoder)
    (hnext : KeepsWindow (valDecoderRead decoder br).2.1) :
    valRead decoder br = some (valDecoderRead decoder br) := by
  obtain ⟨hleading, htrailing, hsum⟩ := hnext
  unfold valDecoderRead at hleading htrailing hsum ⊢
  unfold valRead
  by_cases hfirst : decoder.isFirst = true
  · rw [if_pos hfirst, if_pos hfirst]
    rfl
  · rw [if_neg hfirst] at hleading htrailing hsum
    rw [if_neg hfirst, if_neg hfirst, readXor_of_keeps hwindow hleading htrailing hsum]
    rfl

theorem keeps_mirror {encoder : ValueEncoder}
    (hw : Window encoder.prevLeading encoder.prevTrailing) : KeepsWindow (mirror encoder) where
  leading := hw.leading_nonneg
  trailing := hw.trailing_nonneg
  sum := Int.lt_add_one_iff.mp hw.sum_lt

theorem encoded_wellDefined (points : List (BitVec 64 × BitVec 64)) {tsEnc : TimestampEncoder}
    {valEnc : ValueEncoder} {tsDec : TimestampDecoder} {bs : List Bool} {bw : BitWriter}
    (h : Written bs bw) (hs : SameStage tsEnc tsDec)
    (hw : Window valEnc.prevLeading valEnc.prevTrailing) :
    ∃ code, Written (bs ++ code) (encodeLoop tsEnc valEnc bw points) ∧
      ∀ buf more br, Ready buf (code ++ more) br →
        WellDefined points.length tsDec (mirror valEnc) br := by
  induction points generalizing tsEnc valEnc tsDec bs bw with
  | nil => exact ⟨[], by simpa [encodeLoop] using h, fun _ _ _ _ => keeps_mirror hw⟩
  | cons p points ih =>
    obtain ⟨ts, value⟩ := p
    have hval := written_val (written_ts h tsEnc ts) valEnc value
    have hw' := window_write hw (tsEncoderWrite tsEnc bw ts).2 value
    obtain ⟨code, hcode, hread⟩ := ih hval (sameStage_step hs bw ts) hw'
    refine ⟨tsCode tsEnc ts ++ valCode valEnc value ++ code, ?_, ?_⟩
    · simpa [encodeLoop] using hcode
    · intro buf more br hready
      rw [List.append_assoc, List.append_assoc] at hready
      obtain ⟨br₁, hts, hready⟩ := ready_ts hs ts hready
      obtain ⟨br₂, hvalue, hready⟩ := ready_val hw (tsEncoderWrite tsEnc bw ts).2 value hready
      have hnext : KeepsWindow (valDecoderRead (mirror valEnc) br₁).2.1 := by
        rw [hvalue]
        exact keeps_mirror hw'
      have hchecked := valRead_of_keeps (keeps_mirror hw) hnext
      rw [hvalue] at hchecked
      rw [List.length_cons, WellDefined, hts]
      exact ⟨keeps_mirror hw, _, _, _, hchecked, hread buf more br₂ hready⟩

/-- A chunk that the server has written itself is read without a failing check. -/
theorem flushed_decodesWell {chunkId : BitVec 32} {points : List (BitVec 64 × BitVec 64)}
    {file : ChunkBytes} (hcap : points.length ≤ headCapacity)
    (hfile : flushToChunk chunkId points = some file) : DecodesWell file := by
  have hne : points ≠ [] := by
    rintro rfl
    cases hfile
  obtain ⟨file', header, hfile', hread, hcount⟩ := chunkRead_flush chunkId hne hcap
  obtain rfl := Option.some.inj (hfile.symm.trans hfile')
  obtain ⟨code, hcode, hwell⟩ :=
    encoded_wellDefined points written_create sameStage_init window_init
  rw [List.nil_append] at hcode
  change Written code (encodePoints points) at hcode
  intro header' payload hread'
  cases hread.symm.trans hread'
  rw [hcount]
  have hready := ready_create ⟨(bwClose (encodePoints points)).buffer.data, 0⟩
  dsimp only at hready
  rw [(octets_close hcode).1] at hready
  exact hwell _ _ _ hready

end Tsdb.CheckedDecoder
