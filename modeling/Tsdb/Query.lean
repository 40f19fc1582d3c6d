import Tsdb.Registry

namespace Tsdb.Query

open CStrings Head Files Registry

variable {V : Type} (fmt : V → Text) (start stop : Int)

def row (p : Point V) : Text := signedDecimal p.ts ++ '\t' :: (fmt p.value ++ ['\n'])

def InRange (p : Point V) : Prop := start ≤ p.ts ∧ p.ts < stop

instance (p : Point V) : Decidable (InRange start stop p) :=
  inferInstanceAs (Decidable (start ≤ p.ts ∧ p.ts < stop))

def pointsLine (n : Nat) : Text := '(' :: (decimal n ++ " points)\n".toList)

/-- `strcat(strcat(longToString(ts), "\t"), doubleToString(value))`, each string in 32 bytes.
Here and below `none` is a write behind the end of an allocation. -/
def headRow (p : Point V) : Option Text :=
  ((⟨32, (signedDecimal p.ts).take 31⟩ : TextBuffer).strcat ['\t']).bind fun tmp =>
    (tmp.strcat ((fmt p.value).take 31)).map TextBuffer.text

def getValueLoop : List (Point V) → TextBuffer → Nat → Nat → Option (TextBuffer × Nat)
  | [], range, _, size => some (range, size)
  | p :: points, range, offset, size =>
    if InRange start stop p then
      (headRow fmt p).bind fun tmp =>
        let needed := tmp.length + 2
        let range := range.grow (offset + needed + 1) (range.capacity * 2)
        (range.strcpyAt offset (tmp ++ ['\n'])).bind fun range =>
          getValueLoop points range (offset + tmp.length + 1) (size + 1)
    else getValueLoop points range offset size

def getValue (head : HeadBlock V) : Option (Text × Nat) :=
  (getValueLoop fmt start stop head.points (.new 128) 0 0).bind fun (range, size) =>
    (range.strcat ['(']).bind fun range =>
      (range.strcat (decimal size)).bind fun range =>
        (range.strcat " points)\n".toList).map fun range => (range.text, size)

/-- The loop of `decompressChunk`: `temp` takes 127 characters of a row, `n` counts them all. -/
def decompressLoop : List (Point V) → TextBuffer → Nat → Nat → Option (Text × Nat)
  | [], chunkResult, _, count => some (chunkResult.text, count)
  | p :: points, chunkResult, currentLen, count =>
    if InRange start stop p then
      let temp := (row fmt p).take 127
      let n := (row fmt p).length
      let chunkResult := chunkResult.grow (currentLen + n + 1) (chunkResult.capacity * 2)
      (chunkResult.strcpyAt currentLen temp).bind fun chunkResult =>
        decompressLoop points chunkResult (currentLen + n) (count + 1)
    else decompressLoop points chunkResult currentLen count

def decompressChunk (data : ChunkData V) : Option (Text × Nat) :=
  decompressLoop fmt start stop data.points (.new 1024) 0 0

/-- `result`, `current_len` and `*size` of `Head_GET`. -/
structure Answer where
  result : TextBuffer
  currentLen : Nat
  size : Nat
  deriving DecidableEq, Repr

def appendDisk (a : Answer) (disk : Text × Nat) : Option Answer :=
  let diskLen := disk.1.length
  let result := a.result.grow (a.currentLen + diskLen + 1) (a.currentLen + diskLen + 2048)
  (result.strcat disk.1).map fun result => ⟨result, a.currentLen + diskLen, a.size + disk.2⟩

/-- One round of the chunk loop of `Head_GET`; a file that cannot be read adds nothing. -/
def getChunk (dir : Dir V) (a : Answer) (chunk : ChunkMetadata) : Option Answer :=
  if chunk.startTs ≤ stop ∧ start ≤ chunk.endTs then
    match chunkRead dir chunk.filename with
    | none => some a
    | some data => (decompressChunk fmt start stop data).bind (appendDisk a)
  else some a

/-- The end of `Head_GET`: the head's text goes behind the rows from disk, but `current_len`
stays, and the summary is copied to `result + current_len`. -/
def getFinish (a : Answer) (ram : Text × Nat) : Option (Text × Nat) :=
  let ramLen := ram.1.length
  let size := a.size + ram.2
  let result := a.result.grow (a.currentLen + ramLen + 1) (a.currentLen + ramLen + 1)
  (result.strcat ram.1).bind fun result =>
    let summary := pointsLine size
    let result := result.grow (a.currentLen + summary.length + 1) (a.currentLen + summary.length + 1)
    (result.strcpyAt a.currentLen summary).map fun result => (result.text, size)

/-- `Head_GET` on an existing metric: the text and what it leaves in `*size`. -/
def getMetric (m : MetricState V) : Option (Text × Nat) :=
  (m.entry.chunks.foldlM (getChunk fmt start stop m.dir) ⟨.new 2048, 0, 0⟩).bind fun a =>
    (getValue fmt start stop m.entry.head).bind (getFinish a)

/-- The inner `none` is the null pointer for an unknown metric. -/
def headGet (metric : Text) (s : Store V) : Option (Option (Text × Nat)) :=
  match hashFindStr metric s with
  | none => some none
  | some m => (getMetric fmt start stop m).map some

def rowsText (points : List (Point V)) : Text :=
  (points.filter fun p => InRange start stop p).flatMap (row fmt)

def fullAnswer (points : List (Point V)) : Text × Nat :=
  let n := (points.filter fun p => InRange start stop p).length
  (rowsText fmt start stop points ++ pointsLine n, n)

end Tsdb.Query
