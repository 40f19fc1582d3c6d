import Tsdb.Query

namespace Tsdb.Aggregate

open CStrings Head Files Registry Query

variable {V : Type}

/-- The value column of a bucket line: `%d` for `count`, `%.6f` otherwise. -/
inductive Cell (V : Type) where
  | int (n : Nat)
  | real (x : V)
  deriving DecidableEq, Repr

structure Line (V : Type) where
  bstart : Int
  bend : Int
  cell : Cell V
  deriving DecidableEq, Repr

inductive AggAnswer (V : Type) where
  | lines (lines : List (Line V))
  | error (text : Text)
  deriving DecidableEq, Repr

/-- The variables of the point loop of `agg_points`; `distinctCount` and `prevTs` live on from
bucket to bucket. -/
structure Acc (V : Type) where
  count : Nat
  sum : V
  minv : V
  maxv : V
  distinctCount : Nat
  prevTs : Int
  deriving DecidableEq, Repr

section Arithmetic

variable [Zero V] [Add V] [Div V] [NatCast V] [LT V] [DecidableLT V]

def Acc.add (acc : Acc V) (p : Point V) : Acc V :=
  { count := acc.count + 1
    sum := acc.sum + p.value
    minv := if acc.count = 0 ∨ p.value < acc.minv then p.value else acc.minv
    maxv := if acc.count = 0 ∨ acc.maxv < p.value then p.value else acc.maxv
    distinctCount := if p.ts ≠ acc.prevTs then acc.distinctCount + 1 else acc.distinctCount
    prevTs := p.ts }

def Acc.start (distinctCount : Nat) (prevTs : Int) : Acc V := ⟨0, 0, 0, 0, distinctCount, prevTs⟩

def aggBucket (bstart bend : Int) : List (Point V) → Acc V → Acc V
  | [], acc => acc
  | p :: points, acc =>
    if p.ts < bstart then aggBucket bstart bend points acc
    else if bend ≤ p.ts then acc
    else aggBucket bstart bend points (acc.add p)

/-- The `strcmp` chain; `none` is an unknown function. -/
def aggCell (func : Text) (acc : Acc V) : Option (Cell V) :=
  if func = "avg".toList then some (.real (acc.sum / (acc.count : V)))
  else if func = "min".toList then some (.real acc.minv)
  else if func = "max".toList then some (.real acc.maxv)
  else if func = "sum".toList then some (.real acc.sum)
  else if func = "count".toList then some (.int acc.count)
  else if func = "Dcount".toList then some (.real (acc.distinctCount : V))
  else none

def aggBuckets (points : List (Point V)) (stop bucketSeconds : Int) (func : Text) :
    Nat → Int → Nat → Int → Option (List (Line V))
  | 0, _, _, _ => some []
  | fuel + 1, bstart, distinctCount, prevTs =>
    if bstart < stop then
      let bend := bstart + bucketSeconds
      let acc := aggBucket bstart bend points (.start distinctCount prevTs)
      let rest := aggBuckets points stop bucketSeconds func fuel bend acc.distinctCount acc.prevTs
      if acc.count = 0 then rest
      else
        match aggCell func acc with
        | none => none
        | some cell => rest.map (⟨bstart, bend, cell⟩ :: ·)
    else some []

def sortPoints (points : List (Point V)) : List (Point V) :=
  points.insertionSort fun p q => p.ts ≤ q.ts

/-- Every bucket is at least a second long, so `stop - start` rounds are enough. -/
def aggPoints (points : List (Point V)) (start stop bucketSeconds : Int) (func : Text) :
    AggAnswer V :=
  match aggBuckets (sortPoints points) stop bucketSeconds func (stop - start).toNat start 0 0 with
  | some lines => .lines lines
  | none => .error "ERR invalid func\n".toList

end Arithmetic

/-- What the format strings of `agg_points` make of a line. -/
def wholeLine (fmt : V → Text) (line : Line V) : Text :=
  signedDecimal line.bstart ++ '-' :: (signedDecimal line.bend ++ ' ' ::
    ((match line.cell with
      | .int n => decimal n
      | .real x => fmt x) ++ ['\n']))

/-- What `snprintf` leaves of it in `line[128]`. -/
def lineText (fmt : V → Text) (line : Line V) : Text := (wholeLine fmt line).take 127

def aggText (fmt : V → Text) : AggAnswer V → Text
  | .lines lines =>
    lines.flatMap (lineText fmt) ++ '(' :: (decimal lines.length ++ " buckets)\n".toList)
  | .error text => text

def wholeText (fmt : V → Text) : AggAnswer V → Text
  | .lines lines =>
    lines.flatMap (wholeLine fmt) ++ '(' :: (decimal lines.length ++ " buckets)\n".toList)
  | .error text => text

def LinesFit (fmt : V → Text) : AggAnswer V → Prop
  | .lines lines => ∀ line ∈ lines, (wholeLine fmt line).length ≤ 127
  | .error _ => True

/-- `collect_points_from_chunk`; `none` is a file that cannot be read. -/
def collectPointsFromChunk (start stop : Int) (dir : Dir V) (name : Text) :
    Option (List (Point V)) :=
  (chunkRead dir name).map fun data => data.points.filter fun p => InRange start stop p

def collectPointsFromHead (start stop : Int) (head : HeadBlock V) : List (Point V) :=
  head.points.filter fun p => InRange start stop p

end Tsdb.Aggregate
