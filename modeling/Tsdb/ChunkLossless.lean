import Tsdb.ChunkCodec
import Tsdb.Head

namespace Tsdb.ChunkLossless

open BitIO BitReading Timestamp Value TimestampCodec ChunkCodec Chunk Head

def diffs : List (BitVec 64) → List (BitVec 64)
  | a :: b :: rest => (b - a) :: diffs (b :: rest)
  | _ => []

def InField (n : Nat) (d : BitVec 64) : Prop := -2 ^ (n - 1) ≤ d.toInt ∧ d.toInt < 2 ^ (n - 1)

/-- The timestamps whose gaps the encoder's fields can hold: 14 bits for the first
difference, 32 bits for every later difference of differences. -/
def FitsFields (ts : List (BitVec 64)) : Prop :=
  (∀ d ∈ (diffs ts).head?, InField 14 d) ∧ ∀ d ∈ diffs (diffs ts), InField 32 d

def LowBitsClear (value : BitVec 64) : Prop := value &&& 0xF#64 = 0#64

theorem add_add_eq_iff (t d x y : BitVec 64) : t + (d + y) = x ↔ y = x - t - d := by
  constructor
  · rintro rfl
    ring
  · rintro rfl
    ring

theorem recovered_steady (t d : BitVec 64) (ts : List (BitVec 64)) :
    recovered ⟨t, d, false, false⟩ ⟨t, d, false, false⟩ ts = ts ↔
      ∀ e ∈ diffs (d :: diffs (t :: ts)), InField 32 e := by
  induction ts generalizing t d with
  | nil => simp [recovered, diffs]
  | cons x ts ih =>
    have hstep := add_add_eq_iff t d x (narrow 32 (x - t - d))
    have hfield := narrow_eq_iff 32 (by decide) (by decide) (x - t - d)
    simp only [recovered, recover, tsEncoderWrite, Bool.false_eq_true, if_false, List.cons.injEq,
      diffs, List.forall_mem_cons]
    rw [hstep, hfield]
    refine and_congr_right fun hin => ?_
    rw [hfield.mpr hin]
    have hd : d + (x - t - d) = x - t := by ring
    have ht : t + (x - t) = x := by ring
    rw [hd, ht]
    exact ih x (x - t)

theorem recovered_eq_iff (ts : List (BitVec 64)) :
    recovered tsEncoderInit tsDecoderInit ts = ts ↔ FitsFields ts := by
  cases ts with
  | nil => simp [recovered, FitsFields, diffs]
  | cons t0 ts =>
    cases ts with
    | nil => simp [recovered, recover, tsEncoderInit, FitsFields, diffs]
    | cons t1 ts =>
      have hfield := narrow_eq_iff 14 (by decide) (by decide) (t1 - t0)
      have hstep : t0 + narrow 14 (t1 - t0) = t1 ↔ narrow 14 (t1 - t0) = t1 - t0 :=
        eq_sub_iff_add_eq'.symm
      simp only [recovered, recover, tsEncoderInit, tsDecoderInit, tsEncoderWrite, if_true,
        Bool.false_eq_true, if_false, List.cons.injEq, true_and, FitsFields, diffs,
        List.head?_cons, Option.mem_some_iff, forall_eq']
      rw [hstep, hfield]
      refine and_congr_right fun hin => ?_
      rw [hfield.mpr hin, add_sub_cancel]
      exact recovered_steady t1 (t1 - t0) ts

theorem mask_eq_iff (value : BitVec 64) : value &&& valueMask = value ↔ LowBitsClear value := by
  unfold LowBitsClear
  constructor
  · intro h
    rw [← h, BitVec.and_assoc, show valueMask &&& 0xF#64 = 0#64 by decide, BitVec.and_zero]
  · intro h
    calc value &&& valueMask = (value &&& valueMask) ||| (value &&& 0xF#64) := by
          rw [h, BitVec.or_zero]
      _ = value &&& (valueMask ||| 0xF#64) := BitVec.and_or_distrib_left.symm
      _ = value := by
          rw [show valueMask ||| 0xF#64 = BitVec.allOnes 64 by decide, BitVec.and_allOnes]

theorem recovered_length (encoder : TimestampEncoder) (decoder : TimestampDecoder)
    (ts : List (BitVec 64)) : (recovered encoder decoder ts).length = ts.length := by
  induction ts generalizing encoder decoder with
  | nil => rfl
  | cons t ts ih => simp [recovered, ih]

/-- Values never desynchronise: decoding stops exactly where the encoders stopped, before the
padding, and returns every value without its four low bits, whatever became of the timestamps. -/
theorem decode_in_step (points : List (BitVec 64 × BitVec 64)) :
    position (decodePoints points.length (bwClose (encodePoints points)).buffer).2 =
        8 * (encodePoints points).buffer.data.length + (encodePoints points).filledBits ∧
      (decodePoints points.length (bwClose (encodePoints points)).buffer).2.hitEnd = false ∧
      (decodePoints points.length (bwClose (encodePoints points)).buffer).1.map Prod.snd =
        points.map (fun p => p.2 &&& valueMask) := by
  obtain ⟨hout, hpos, hend, _⟩ := decode_encode points _ rfl
  refine ⟨hpos, hend, ?_⟩
  rw [hout, List.map_snd_zip]
  simp [recovered_length]

theorem chunkRead_whole {header : ChunkHeader} {payload : List (BitVec 8)}
    (h : header.sizeBytes.toNat = payload.length) :
    chunkRead (chunkWrite header payload) = some (header, payload) := by
  simp [chunkRead, chunkWrite, h]

theorem chunkRead_flush (chunkId : BitVec 32) {points : List (BitVec 64 × BitVec 64)}
    (hne : points ≠ []) (hcap : points.length ≤ headCapacity) :
    ∃ file header, flushToChunk chunkId points = some file ∧
      chunkRead file = some (header, (bwClose (encodePoints points)).buffer.data) ∧
      header.pointCount.toNat = points.length := by
  unfold headCapacity at hcap
  have hsize := (decode_encode points _ rfl).2.2.2
  have hbytes : (BitVec.ofNat 32 (bwClose (encodePoints points)).buffer.data.length).toNat =
      (bwClose (encodePoints points)).buffer.data.length := by
    rw [BitVec.toNat_ofNat]
    exact Nat.mod_eq_of_lt (by omega)
  have hcount : (BitVec.ofNat 32 points.length).toNat = points.length := by
    rw [BitVec.toNat_ofNat]
    exact Nat.mod_eq_of_lt (by omega)
  rw [flushToChunk, List.head?_eq_some_head hne, List.getLast?_eq_some_getLast hne]
  exact ⟨_, _, rfl, chunkRead_whole hbytes, hcount⟩

theorem decompress_flush (chunkId : BitVec 32) (points : List (BitVec 64 × BitVec 64))
    (hne : points ≠ []) (hcap : points.length ≤ headCapacity) :
    (flushToChunk chunkId points).bind decompressAll =
      some ((recovered tsEncoderInit tsDecoderInit (points.map Prod.fst)).zip
        (points.map fun p => p.2 &&& valueMask)) := by
  obtain ⟨file, header, hfile, hread, hcount⟩ := chunkRead_flush chunkId hne hcap
  have hpoints := (decode_encode points ⟨(bwClose (encodePoints points)).buffer.data, 0⟩ rfl).1
  rw [hfile, Option.bind_some, decompressAll, hread]
  dsimp only
  rw [hcount, hpoints]

/-- A chunk gives back its points exactly when every gap fits its field and no value has
anything in its four low bits. -/
theorem chunk_lossless_iff (chunkId : BitVec 32) (points : List (BitVec 64 × BitVec 64))
    (hne : points ≠ []) (hcap : points.length ≤ headCapacity) :
    (flushToChunk chunkId points).bind decompressAll = some points ↔
      FitsFields (points.map Prod.fst) ∧ ∀ p ∈ points, LowBitsClear p.2 := by
  have hzip (xs ys : List (BitVec 64)) (hx : xs.length = points.length)
      (hy : ys.length = points.length) :
      xs.zip ys = points ↔ xs = points.map Prod.fst ∧ ys = points.map Prod.snd := by
    constructor
    · rintro rfl
      exact ⟨(List.map_fst_zip (by omega)).symm, (List.map_snd_zip (by omega)).symm⟩
    · rintro ⟨rfl, rfl⟩
      rw [List.zip_map']
      simp
  rw [decompress_flush chunkId points hne hcap, Option.some.injEq,
    hzip _ _ (by simp [recovered_length]) (by simp), recovered_eq_iff]
  refine and_congr_right fun _ => ?_
  rw [List.map_inj_left]
  exact forall₂_congr fun p _ => mask_eq_iff p.2

theorem chunk_lossless_iff_two_points :
    (flushToChunk 0 [(100, 0x4045400000000000), (110, 0xC000000000000000)]).bind decompressAll =
      some [(100, 0x4045400000000000), (110, 0xC000000000000000)] :=
  (chunk_lossless_iff 0 _ (by decide) (by decide)).mpr
    (by simp [FitsFields, diffs, InField, LowBitsClear])

/-- Three hours between the first two points are already too much for the 14-bit field. -/
theorem chunk_loses_gap : ¬ ∀ (chunkId : BitVec 32) (points : List (BitVec 64 × BitVec 64)),
    points ≠ [] → points.length ≤ headCapacity →
    points.Pairwise (fun p q => p.1.toInt ≤ q.1.toInt) →
    (flushToChunk chunkId points).bind decompressAll = some points := by
  intro h
  have hc := h 0 [(0, 0), (10800, 0)] (by decide) (by decide) (by decide)
  revert hc
  decide

end Tsdb.ChunkLossless
