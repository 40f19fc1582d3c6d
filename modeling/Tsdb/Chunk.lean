import Tsdb.Timestamp
import Tsdb.Value

namespace Tsdb.Chunk

open BitIO Timestamp Value

structure ChunkHeader where
  chunkId : BitVec 32
  startTs : BitVec 64
  endTs : BitVec 64
  sizeBytes : BitVec 32
  pointCount : BitVec 32
  deriving DecidableEq, Repr

/-- A chunk file: its header, once that is completely there, and the bytes behind it. -/
structure ChunkBytes where
  header : Option ChunkHeader
  payload : List (BitVec 8)
  deriving DecidableEq, Repr

def chunkWrite (header : ChunkHeader) (payload : List (BitVec 8)) : ChunkBytes :=
  ⟨some header, payload.take header.sizeBytes.toNat⟩

def chunkRead (file : ChunkBytes) : Option (ChunkHeader × List (BitVec 8)) :=
  match file.header with
  | none => none
  | some header =>
    if file.payload.length < header.sizeBytes.toNat then none
    else some (header, file.payload.take header.sizeBytes.toNat)

/-- The loop of `flushtochunk`: one shared stream, timestamp then value for each point. -/
def encodeLoop (tsEnc : TimestampEncoder) (valEnc : ValueEncoder) (bw : BitWriter) :
    List (BitVec 64 × BitVec 64) → BitWriter
  | [] => bw
  | (timestamp, value) :: points =>
    let (tsEnc, bw) := tsEncoderWrite tsEnc bw timestamp
    let (valEnc, bw) := valEncoderWrite valEnc bw value
    encodeLoop tsEnc valEnc bw points

def encodePoints (points : List (BitVec 64 × BitVec 64)) : BitWriter :=
  encodeLoop tsEncoderInit valEncoderInit bwCreate points

/-- The file that a successful `flushtochunk` leaves; an empty head writes none. -/
def flushToChunk (chunkId : BitVec 32) (points : List (BitVec 64 × BitVec 64)) :
    Option ChunkBytes :=
  match points.head?, points.getLast? with
  | some first, some last =>
    let bw := bwClose (encodePoints points)
    let header : ChunkHeader :=
      { chunkId := chunkId
        startTs := first.1
        endTs := last.1
        sizeBytes := BitVec.ofNat 32 bw.buffer.data.length
        pointCount := BitVec.ofNat 32 points.length }
    some (chunkWrite header bw.buffer.data)
  | _, _ => none

def decodeLoop : Nat → TimestampDecoder → ValueDecoder → BitReader →
    List (BitVec 64 × BitVec 64) × BitReader
  | 0, _, _, br => ([], br)
  | count + 1, tsDec, valDec, br =>
    let (timestamp, tsDec, br) := tsDecoderRead tsDec br
    let (value, valDec, br) := valDecoderRead valDec br
    let (points, br) := decodeLoop count tsDec valDec br
    ((timestamp, value) :: points, br)

def decodePoints (count : Nat) (buf : ByteBuffer) : List (BitVec 64 × BitVec 64) × BitReader :=
  decodeLoop count tsDecoderInit valDecoderInit (brCreate buf)

def decompressAll (file : ChunkBytes) : Option (List (BitVec 64 × BitVec 64)) :=
  match chunkRead file with
  | none => none
  | some (header, payload) => some (decodePoints header.pointCount.toNat ⟨payload, 0⟩).1

end Tsdb.Chunk
