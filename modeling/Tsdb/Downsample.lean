import Tsdb.Aggregate

namespace Tsdb.Downsample

open CStrings Head Files Registry Query Aggregate

variable {V : Type}

def coarseBucketSeconds : Int := 60

def downsampleAfterSeconds : Int := 3600

def downsampleCoarseDir (metric : Text) : Text := metric ++ "_1m".toList

def downsampleShouldUse (s : Store V) (metric : Text) (start stop bucketSeconds : Int) : Bool :=
  !(stop - start < downsampleAfterSeconds) && !(bucketSeconds < coarseBucketSeconds) &&
    (s.dirOf (downsampleCoarseDir metric)).present

def coarseName (metric : Text) (id : Nat) : Text :=
  metric ++ '_' :: (decimal id ++ ".chunk".toList)

/-- The variables of `write_coarse_chunk`; `out` lists `out_ts[i]`, `out_val[i]`. -/
structure Coarse (V : Type) where
  out : List (Point V)
  bucketStart : Int
  sum : V
  count : Nat
  deriving DecidableEq, Repr

section Arithmetic

variable [Zero V] [Add V] [Div V] [NatCast V]

def Coarse.emit (c : Coarse V) : Coarse V :=
  if 0 < c.count then ⟨c.out ++ [⟨c.bucketStart, c.sum / (c.count : V)⟩], c.bucketStart, 0, 0⟩
  else c

/-- The `while` loop before a point: completed buckets go out, `fuel` of them at most. -/
def Coarse.advance (ts : Int) : Nat → Coarse V → Coarse V
  | 0, c => c
  | fuel + 1, c =>
    if c.bucketStart + coarseBucketSeconds ≤ ts then
      Coarse.advance ts fuel
        { c.emit with bucketStart := c.bucketStart + coarseBucketSeconds }
    else c

def Coarse.add (c : Coarse V) (p : Point V) : Coarse V :=
  let c := c.advance p.ts (p.ts - c.bucketStart).toNat
  { c with sum := c.sum + p.value, count := c.count + 1 }

/-- The minute a timestamp is rounded to; C division truncates. -/
def minuteStart (ts : Int) : Int := ts.tdiv coarseBucketSeconds * coarseBucketSeconds

def coarsePoints (points : List (Point V)) : List (Point V) :=
  match points with
  | [] => []
  | first :: _ => (points.foldl Coarse.add ⟨[], minuteStart first.ts, 0, 0⟩).emit.out

def writeCoarseChunk (io : FlushIO) (metric : Text) (coarseDir : Dir V) (points : List (Point V)) :
    Dir V :=
  let out := coarsePoints points
  match out.head?, out.getLast? with
  | some first, some last =>
    (flushToChunk io coarseDir (coarseName metric (chunkId first.ts)) ⟨first.ts, last.ts, out⟩).2
  | _, _ => coarseDir

def createMarker (coarseDir : Dir V) (id : Nat) : Dir V :=
  { coarseDir with done := id :: coarseDir.done }

/-- One round of the loop of `downsample_metric`: the coarse directory after it. -/
def downsampleChunk (cutoff : Int) (io : FlushIO) (metric : Text) (dir coarseDir : Dir V)
    (chunk : ChunkMetadata) : Dir V :=
  if cutoff ≤ chunk.endTs then coarseDir
  else if chunkId chunk.startTs ∈ coarseDir.done then coarseDir
  else
    let coarseDir := coarseDir.mkdir
    match chunkRead dir chunk.filename with
    | none => coarseDir
    | some data =>
      if data.points = [] then coarseDir
      else createMarker (writeCoarseChunk io metric coarseDir data.points) (chunkId chunk.startTs)

def downsampleRound (now : Int) (io : FlushIO) (metric : Text) (i : Nat) (s : Store V) : Store V :=
  match hashFindStr metric s with
  | none => s
  | some m =>
    match m.entry.chunks[i]? with
    | none => s
    | some chunk =>
      let coarseDir := downsampleCoarseDir metric
      s.setDir coarseDir
        (downsampleChunk (now - downsampleAfterSeconds) io metric m.dir (s.dirOf coarseDir) chunk)

/-- `downsample_metric` at the time `now`; `io` tells how the file writes of each round end. -/
def downsampleMetric (now : Int) (io : Nat → FlushIO) (s : Store V) (metric : Text) : Store V :=
  match hashFindStr metric s with
  | none => s
  | some m =>
    (List.range m.entry.chunks.length).foldl (fun s i => downsampleRound now (io i) metric i s) s

def downsampleRunNow (now : Int) (io : Text → Nat → FlushIO) (s : Store V) : Store V :=
  s.registry.keys.foldl (fun s metric => downsampleMetric now (io metric) s metric) s

/-- `Head_AGG` reads what it can of the coarse directory's chunk files. -/
def collectCoarse (start stop : Int) (coarseDir : Dir V) : List (Point V) :=
  (coarseDir.chunks.keys.filter fun name => ".chunk".toList <:+: name).flatMap fun name =>
    (collectPointsFromChunk start stop coarseDir name).getD []

/-- The raw branch of `Head_AGG`; `none` is a file that cannot be read. -/
def collectRaw (start stop : Int) (m : MetricState V) : Option (List (Point V)) :=
  (m.entry.chunks.filter fun chunk => chunk.startTs < stop ∧ start ≤ chunk.endTs).foldlM
    (fun points chunk => (collectPointsFromChunk start stop m.dir chunk.filename).map (points ++ ·))
    []

/-- The points `Head_AGG` aggregates. `dataDir` is what `registry_init` was given. -/
def aggCollect (dataDir metric : Text) (start stop bucketSeconds : Int) (s : Store V)
    (m : MetricState V) : Option (List (Point V)) :=
  let disk :=
    if dataDir ≠ [] ∧ downsampleShouldUse s metric start stop bucketSeconds then
      some (collectCoarse start stop (s.dirOf (downsampleCoarseDir metric)))
    else collectRaw start stop m
  disk.map (· ++ collectPointsFromHead start stop m.entry.head)

def headAgg [LT V] [DecidableLT V] (dataDir metric : Text) (start stop bucketSeconds : Int)
    (func : Text) (s : Store V) : AggAnswer V :=
  if bucketSeconds ≤ 0 ∨ stop ≤ start then .error "ERR invalid range or bucket\n".toList
  else
    match hashFindStr metric s with
    | none => .lines []
    | some m =>
      match aggCollect dataDir metric start stop bucketSeconds s m with
      | none => .error "ERR disk read\n".toList
      | some points =>
        if points = [] then .lines []
        else aggPoints (sortPoints points) start stop bucketSeconds func

end Arithmetic

end Tsdb.Downsample
