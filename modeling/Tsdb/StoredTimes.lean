import Tsdb.Checked
import Tsdb.ChunkLossless

namespace Tsdb.StoredTimes

open Timestamp TimestampCodec ChunkCodec Chunk ChunkLossless Head Checked

/-- The timestamps behind `prev`, for a chunk that has `t` in its place. A gap is kept as its change
since the one before, of which 32 bits are left. -/
def storedFrom (t gap prev prevGap : Int) : List Int → List Int
  | [] => []
  | x :: xs =>
    let gap := gap + (x - prev - prevGap).bmod (2 ^ 32)
    (t + gap).bmod (2 ^ 64) :: storedFrom (t + gap) gap x (x - prev) xs

/-- What a chunk keeps of timestamps: the first, 14 bits of the first gap, and what is left of the
later ones. -/
def stored : List Int → List Int
  | [] => []
  | [x] => [x.bmod (2 ^ 64)]
  | x :: y :: xs =>
    let gap := (y - x).bmod (2 ^ 14)
    x.bmod (2 ^ 64) :: (x + gap).bmod (2 ^ 64) :: storedFrom (x + gap) gap y (y - x) xs

theorem narrow_ofInt {n : Nat} (hn : n ≤ 64) (x : Int) :
    narrow n (BitVec.ofInt 64 x) = BitVec.ofInt 64 (x.bmod (2 ^ n)) := by
  have hnarrow : (narrow n (BitVec.ofInt 64 x)).toInt = x.bmod (2 ^ n) := by
    rw [narrow_toInt hn, BitVec.toInt_ofInt, Int.bmod_bmod_of_dvd (Nat.pow_dvd_pow 2 hn)]
  rw [← hnarrow, BitVec.ofInt_toInt]

theorem ofInt_sub (x y : Int) :
    BitVec.ofInt 64 (x - y) = BitVec.ofInt 64 x - BitVec.ofInt 64 y := by
  rw [Int.sub_eq_add_neg, BitVec.ofInt_add, BitVec.ofInt_neg, BitVec.sub_eq_add_neg]

theorem recovered_from (t gap prev prevGap : Int) (xs : List Int) :
    (recovered ⟨BitVec.ofInt 64 prev, BitVec.ofInt 64 prevGap, false, false⟩
        ⟨BitVec.ofInt 64 t, BitVec.ofInt 64 gap, false, false⟩ (xs.map (BitVec.ofInt 64))).map
      BitVec.toInt = storedFrom t gap prev prevGap xs := by
  induction xs generalizing t gap prev prevGap with
  | nil => rfl
  | cons x xs ih =>
    have hgap : BitVec.ofInt 64 gap + narrow 32 (BitVec.ofInt 64 x - BitVec.ofInt 64 prev -
        BitVec.ofInt 64 prevGap) = BitVec.ofInt 64 (gap + (x - prev - prevGap).bmod (2 ^ 32)) := by
      rw [← ofInt_sub, ← ofInt_sub, narrow_ofInt (by decide), BitVec.ofInt_add]
    simp only [List.map_cons, recovered, recover, tsEncoderWrite, storedFrom, Bool.false_eq_true,
      if_false]
    rw [hgap, ← BitVec.ofInt_add, BitVec.toInt_ofInt, ← ofInt_sub, ih]

/-- The codec's words and this arithmetic agree: to wrap after each step is to wrap at the end. -/
theorem recovered_stored (ts : List Int) :
    (recovered tsEncoderInit tsDecoderInit (ts.map (BitVec.ofInt 64))).map BitVec.toInt =
      stored ts := by
  match ts with
  | [] => rfl
  | [x] =>
    simp only [List.map_cons, List.map_nil, recovered, recover, tsEncoderInit, stored, if_true]
    rw [BitVec.toInt_ofInt]
  | x :: y :: xs =>
    simp only [List.map_cons, recovered, recover, tsEncoderInit, tsDecoderInit, tsEncoderWrite,
      stored, if_true, Bool.false_eq_true, if_false]
    rw [← ofInt_sub, narrow_ofInt (by decide), ← BitVec.ofInt_add, BitVec.toInt_ofInt,
      BitVec.toInt_ofInt, recovered_from]

theorem stored_eq_self {ts : List Int} (hlong : ∀ t ∈ ts, InBits 63 t)
    (hfits : FitsFields (ts.map (BitVec.ofInt 64))) : stored ts = ts := by
  rw [← recovered_stored, (recovered_eq_iff _).mpr hfits, List.map_map]
  calc ts.map (BitVec.toInt ∘ BitVec.ofInt 64) = ts.map id := by
        apply List.map_congr_left
        intro t ht
        obtain ⟨hlow, hhigh⟩ := hlong t ht
        exact BitVec.toInt_ofInt_eq_self (by decide) (by simpa using hlow) (by simpa using hhigh)
    _ = ts := List.map_id ts

theorem stored_inBits (ts : List Int) : ∀ t ∈ stored ts, InBits 63 t := by
  intro t ht
  rw [← recovered_stored] at ht
  obtain ⟨word, -, rfl⟩ := List.mem_map.mp ht
  exact ⟨BitVec.le_toInt word, BitVec.toInt_lt⟩

def wordPoints (head : HeadBlock (BitVec 64)) : List (BitVec 64 × BitVec 64) :=
  head.points.map fun p => (BitVec.ofInt 64 p.ts, p.value)

theorem decompress_head {chunkId : BitVec 32} {head : HeadBlock (BitVec 64)} {file : ChunkBytes}
    (hroom : head.points.length ≤ headCapacity)
    (hfile : flushToChunk chunkId (wordPoints head) = some file) :
    ∃ points, decompressAll file = some points ∧
      (points.map fun p => p.1.toInt) = stored (head.points.map Point.ts) := by
  have hne : wordPoints head ≠ [] := by
    rintro hnil
    rw [hnil] at hfile
    cases hfile
  have hread := decompress_flush chunkId (wordPoints head) hne (by simpa [wordPoints] using hroom)
  rw [hfile, Option.bind_some] at hread
  refine ⟨_, hread, ?_⟩
  have hwords : (wordPoints head).map Prod.fst =
      (head.points.map Point.ts).map (BitVec.ofInt 64) := by
    simp [wordPoints]
  change List.map (BitVec.toInt ∘ Prod.fst) _ = _
  rw [← List.map_map, List.map_fst_zip (by simp [recovered_length]), hwords, recovered_stored]

end Tsdb.StoredTimes
