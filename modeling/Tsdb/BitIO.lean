import Mathlib

namespace Tsdb.BitIO

structure ByteBuffer where
  data : List (BitVec 8)
  capacity : Nat
  deriving DecidableEq, Repr

def bufferCreate : ByteBuffer := ⟨[], 64⟩

def bufferAppend (buf : ByteBuffer) (byte : BitVec 8) : ByteBuffer :=
  { data := buf.data ++ [byte],
    capacity := if buf.capacity ≤ buf.data.length then buf.capacity * 2 else buf.capacity }

structure BitWriter where
  buffer : ByteBuffer
  currentByte : BitVec 8
  filledBits : Nat
  deriving DecidableEq, Repr

def bwCreate : BitWriter := ⟨bufferCreate, 0, 0⟩

/-- Every round of the loop places at least one bit, so `nBits` rounds suffice. -/
def bwWriteLoop : Nat → BitWriter → BitVec 64 → Nat → BitWriter
  | 0, bw, _, _ => bw
  | fuel + 1, bw, value, nBits =>
    if nBits = 0 then bw
    else
      let freeInByte := 8 - bw.filledBits
      let take := if nBits < freeInByte then nBits else freeInByte
      let shift := nBits - take
      let mask := if take = 64 then BitVec.allOnes 64 else (1#64 <<< take) - 1#64
      let chunk := (value >>> shift) &&& mask
      let currentByte := bw.currentByte ||| (chunk <<< (freeInByte - take)).setWidth 8
      let filledBits := bw.filledBits + take
      if filledBits = 8 then
        bwWriteLoop fuel ⟨bufferAppend bw.buffer currentByte, 0, 0⟩ value (nBits - take)
      else bwWriteLoop fuel ⟨bw.buffer, currentByte, filledBits⟩ value (nBits - take)

def bwWrite (bw : BitWriter) (value : BitVec 64) (nBits : Nat) : BitWriter :=
  bwWriteLoop nBits bw value nBits

def bwClose (bw : BitWriter) : BitWriter :=
  if 0 < bw.filledBits then ⟨bufferAppend bw.buffer bw.currentByte, 0, 0⟩ else bw

/-- `hitEnd` records that `brRead` left through its end-of-buffer return; the reader
itself never looks at it. -/
structure BitReader where
  buffer : ByteBuffer
  byteOffset : Nat
  bitsConsumed : Nat
  hitEnd : Bool
  deriving DecidableEq, Repr

def brCreate (buffer : ByteBuffer) : BitReader := ⟨buffer, 0, 0, false⟩

def brReadLoop : Nat → BitReader → BitVec 64 → Nat → BitVec 64 × BitReader
  | 0, br, result, _ => (result, br)
  | fuel + 1, br, result, nBits =>
    if nBits = 0 then (result, br)
    else
      match br.buffer.data[br.byteOffset]? with
      | none => (result, { br with hitEnd := true })
      | some current =>
        let availableInByte := 8 - br.bitsConsumed
        let take := if nBits < availableInByte then nBits else availableInByte
        let mask := if take = 8 then 0xFF#8 else (1#8 <<< take) - 1#8
        let chunk := (current >>> (availableInByte - take)) &&& mask
        let result := (result <<< take) ||| chunk.setWidth 64
        let bitsConsumed := br.bitsConsumed + take
        if bitsConsumed = 8 then
          brReadLoop fuel { br with bitsConsumed := 0, byteOffset := br.byteOffset + 1 }
            result (nBits - take)
        else brReadLoop fuel { br with bitsConsumed := bitsConsumed } result (nBits - take)

def brRead (br : BitReader) (nBits : Nat) : BitVec 64 × BitReader :=
  brReadLoop nBits br 0 nBits

end Tsdb.BitIO
