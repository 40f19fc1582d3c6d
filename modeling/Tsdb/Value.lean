import Tsdb.BitIO

namespace Tsdb.Value

open BitIO

/-- The encoder and the decoder drop the four low bits of every double. -/
def valueMask : BitVec 64 := 0xFFFFFFFFFFFFFFF0#64

structure ValueEncoder where
  prevValueBits : BitVec 64
  prevLeading : Int
  prevTrailing : Int
  isFirst : Bool
  deriving DecidableEq, Repr

def valEncoderInit : ValueEncoder := ⟨0, 0, 0, true⟩

def leadingZeros (xorVal : BitVec 64) : Int :=
  if xorVal.clz.toNat > 31 then 31 else xorVal.clz.toNat

def trailingZeros (xorVal : BitVec 64) : Int := xorVal.ctz.toNat

/-- The part of `valEncoderWrite` from `xorval` on, with the window it leaves behind. -/
def valEncoderWriteXor (encoder : ValueEncoder) (bw : BitWriter) (xorVal : BitVec 64) :
    Int × Int × BitWriter :=
  if xorVal = 0#64 then (encoder.prevLeading, encoder.prevTrailing, bwWrite bw 0 1)
  else
    let leading := leadingZeros xorVal
    let trailing := trailingZeros xorVal
    if encoder.prevLeading ≤ leading ∧ encoder.prevTrailing ≤ trailing then
      let nMeaningful := 64 - encoder.prevLeading - encoder.prevTrailing
      let meaningfulBits := xorVal >>> encoder.prevTrailing.toNat
      (encoder.prevLeading, encoder.prevTrailing,
        bwWrite (bwWrite bw 0x02 2) meaningfulBits nMeaningful.toNat)
    else
      let nMeaningful := 64 - leading - trailing
      let meaningfulBits := xorVal >>> trailing.toNat
      let bw := bwWrite (bwWrite bw 0x03 2) (BitVec.ofInt 64 leading) 5
      let bw := bwWrite bw (BitVec.ofInt 64 nMeaningful &&& 0x3F#64) 6
      (leading, trailing, bwWrite bw meaningfulBits nMeaningful.toNat)

/-- `value` is the bit pattern that `doubletobits` copies out of the double. -/
def valEncoderWrite (encoder : ValueEncoder) (bw : BitWriter) (value : BitVec 64) :
    ValueEncoder × BitWriter :=
  let valBits := value &&& valueMask
  if encoder.isFirst then
    ({ encoder with prevValueBits := valBits, isFirst := false }, bwWrite bw valBits 64)
  else
    let (leading, trailing, bw) := valEncoderWriteXor encoder bw (valBits ^^^ encoder.prevValueBits)
    ({ encoder with prevValueBits := valBits, prevLeading := leading, prevTrailing := trailing }, bw)

structure ValueDecoder where
  prevValueBits : BitVec 64
  prevLeading : Int
  prevTrailing : Int
  isFirst : Bool
  deriving DecidableEq, Repr

def valDecoderInit : ValueDecoder := ⟨0, 0, 0, true⟩

def valDecoderReadXor (decoder : ValueDecoder) (br : BitReader) :
    BitVec 64 × Int × Int × BitReader :=
  let (bit0, br) := brRead br 1
  if bit0 = 0#64 then (0, decoder.prevLeading, decoder.prevTrailing, br)
  else
    let (bit1, br) := brRead br 1
    if bit1 = 0#64 then
      let nMeaningful := 64 - decoder.prevLeading - decoder.prevTrailing
      let (meaningfulBits, br) := brRead br nMeaningful.toNat
      (meaningfulBits <<< decoder.prevTrailing.toNat, decoder.prevLeading, decoder.prevTrailing, br)
    else
      let (rawLeading, br) := brRead br 5
      let leading : Int := rawLeading.toNat
      let (rawMeaningful, br) := brRead br 6
      let nMeaningful : Int := if rawMeaningful = 0#64 then 64 else rawMeaningful.toNat
      let trailing := 64 - leading - nMeaningful
      let (meaningfulBits, br) := brRead br nMeaningful.toNat
      (meaningfulBits <<< trailing.toNat, leading, trailing, br)

def valDecoderRead (decoder : ValueDecoder) (br : BitReader) :
    BitVec 64 × ValueDecoder × BitReader :=
  if decoder.isFirst then
    let (raw, br) := brRead br 64
    let valBits := raw &&& valueMask
    (valBits, { decoder with prevValueBits := valBits, isFirst := false }, br)
  else
    let (xorVal, leading, trailing, br) := valDecoderReadXor decoder br
    let valBits := decoder.prevValueBits ^^^ xorVal
    (valBits, { decoder with
      prevValueBits := valBits, prevLeading := leading, prevTrailing := trailing }, br)

end Tsdb.Value
