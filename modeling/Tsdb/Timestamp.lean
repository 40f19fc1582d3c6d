import Tsdb.BitIO

namespace Tsdb.Timestamp

open BitIO

def signExtend (val : BitVec 64) (nBits : Nat) : BitVec 64 :=
  if val &&& (1#64 <<< (nBits - 1)) ≠ 0 then val ||| (BitVec.allOnes 64 <<< nBits) else val

structure TimestampEncoder where
  prevTimestamp : BitVec 64
  prevDelta : BitVec 64
  isFirst : Bool
  isSecond : Bool
  deriving DecidableEq, Repr

def tsEncoderInit : TimestampEncoder := ⟨0, 0, true, false⟩

/-- The delta-of-delta classes: a prefix that names the width, then the difference. -/
def tsEncoderWriteD (bw : BitWriter) (d : BitVec 64) : BitWriter :=
  if d = 0 then bwWrite bw 0 1
  else if -64 ≤ d.toInt ∧ d.toInt ≤ 63 then bwWrite (bwWrite bw 0x02 2) (d &&& 0x7F#64) 7
  else if -256 ≤ d.toInt ∧ d.toInt ≤ 255 then bwWrite (bwWrite bw 0x06 3) (d &&& 0x1FF#64) 9
  else if -2048 ≤ d.toInt ∧ d.toInt ≤ 2047 then bwWrite (bwWrite bw 0x0E 4) (d &&& 0xFFF#64) 12
  else bwWrite (bwWrite bw 0x0F 4) (d &&& 0xFFFFFFFF#64) 32

def tsEncoderWrite (encoder : TimestampEncoder) (bw : BitWriter) (timestamp : BitVec 64) :
    TimestampEncoder × BitWriter :=
  if encoder.isFirst then
    ({ encoder with prevTimestamp := timestamp, isFirst := false, isSecond := true },
      bwWrite bw timestamp 64)
  else
    let delta := timestamp - encoder.prevTimestamp
    if encoder.isSecond then
      ({ encoder with prevTimestamp := timestamp, prevDelta := delta, isSecond := false },
        bwWrite bw (delta &&& 0x3FFF#64) 14)
    else
      ({ encoder with prevTimestamp := timestamp, prevDelta := delta },
        tsEncoderWriteD bw (delta - encoder.prevDelta))

structure TimestampDecoder where
  prevTimestamp : BitVec 64
  prevDelta : BitVec 64
  isFirst : Bool
  isSecond : Bool
  deriving DecidableEq, Repr

def tsDecoderInit : TimestampDecoder := ⟨0, 0, true, false⟩

def tsDecoderReadD (br : BitReader) : BitVec 64 × BitReader :=
  let (bit1, br) := brRead br 1
  if bit1 = 0 then
    let (raw, br) := brRead br 7
    (signExtend raw 7, br)
  else
    let (bit2, br) := brRead br 1
    if bit2 = 0 then
      let (raw, br) := brRead br 9
      (signExtend raw 9, br)
    else
      let (bit3, br) := brRead br 1
      if bit3 = 0 then
        let (raw, br) := brRead br 12
        (signExtend raw 12, br)
      else
        let (raw, br) := brRead br 32
        (signExtend raw 32, br)

def tsDecoderRead (decoder : TimestampDecoder) (br : BitReader) :
    BitVec 64 × TimestampDecoder × BitReader :=
  if decoder.isFirst then
    let (timestamp, br) := brRead br 64
    (timestamp, { decoder with prevTimestamp := timestamp, isFirst := false, isSecond := true }, br)
  else if decoder.isSecond then
    let (raw, br) := brRead br 14
    let delta := signExtend raw 14
    let timestamp := decoder.prevTimestamp + delta
    (timestamp,
      { decoder with prevTimestamp := timestamp, prevDelta := delta, isSecond := false }, br)
  else
    let (bit0, br) := brRead br 1
    if bit0 = 0 then
      let timestamp := decoder.prevTimestamp + decoder.prevDelta
      (timestamp, { decoder with prevTimestamp := timestamp }, br)
    else
      let (d, br) := tsDecoderReadD br
      let delta := decoder.prevDelta + d
      let timestamp := decoder.prevTimestamp + delta
      (timestamp, { decoder with prevTimestamp := timestamp, prevDelta := delta }, br)

end Tsdb.Timestamp
