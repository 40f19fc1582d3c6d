import Tsdb.Downsample

namespace Tsdb.Server

open CStrings Head Files Registry Query Aggregate Downsample

variable {V : Type}

inductive CommandType where
  | put
  | get
  | flush
  | quit
  | stats
  | agg
  deriving DecidableEq, Repr

structure Request (V : Type) where
  type : CommandType
  metric : Text
  timestamp : Int
  value : V
  startTimeStamp : Int
  endTimeStamp : Int
  bucketSeconds : Int
  func : Text

structure Response where
  runFurther : Bool
  result : Option Text
  deriving DecidableEq, Repr

/-- How the C library prints a double: with `%.2f` and with `%.6f`. -/
structure Formats (V : Type) where
  two : V → Text
  six : V → Text

def timestampLine (label : Text) (ts : Int) : Text :=
  label ++ " timestamp: ".toList ++ (if ts = -1 then "N/A".toList else signedDecimal ts) ++ ['\n']

/-- `Head_STATS`, where `-1` stands for no timestamp. -/
def headStats (metric : Text) (s : Store V) : Text :=
  match hashFindStr metric s with
  | none => ("Metric not found: ".toList ++ metric ++ ['\n']).take 63
  | some m =>
    let firstRamTs := (m.entry.head.points.head?.map Point.ts).getD (-1)
    let lastRamTs := if 0 < m.entry.head.size then m.entry.head.lastTimestamp else -1
    let firstDiskTs := (m.entry.chunks.head?.map ChunkMetadata.startTs).getD (-1)
    let lastDiskTs := (m.entry.chunks.getLast?.map ChunkMetadata.endTs).getD (-1)
    let overallFirst := if firstDiskTs ≠ -1 then firstDiskTs else firstRamTs
    let overallLast := if lastRamTs ≠ -1 then lastRamTs else lastDiskTs
    "metric: ".toList ++ metric ++ "\nin memory: ".toList ++ decimal m.entry.head.size ++
      "\ndisk chunks: ".toList ++ decimal m.entry.chunks.length ++ ['\n'] ++
      timestampLine "first".toList overallFirst ++ timestampLine "last".toList overallLast

def handlePut (dataDir : Text) (env : Env) (request : Request V) (s : Store V) :
    Option (Bool × Store V) :=
  headPut dataDir env request.metric ⟨request.timestamp, request.value⟩ s

def handleGet (fmts : Formats V) (request : Request V) (s : Store V) : Option (Option Text) :=
  (headGet fmts.two request.startTimeStamp request.endTimeStamp request.metric s).map
    (Option.map Prod.fst)

def handleFlush (dataDir : Text) (env : Env) (request : Request V) (s : Store V) :
    Option (Bool × Store V) :=
  headFlush dataDir env request.metric s

section Arithmetic

variable [Zero V] [Add V] [Div V] [NatCast V] [LT V] [DecidableLT V]

def handleAgg (fmts : Formats V) (registryDir : Text) (request : Request V) (s : Store V) : Text :=
  if request.bucketSeconds ≤ 0 then "ERR invalid bucket_seconds\n".toList
  else aggText fmts.six (headAgg registryDir request.metric request.startTimeStamp
    request.endTimeStamp request.bucketSeconds request.func s)

/-- `ProcessRequest`; `none` is a crash. `registryDir` is what `registry_init` was given. -/
def processRequest (fmts : Formats V) (registryDir dataDir : Text) (env : Env)
    (request : Request V) (s : Store V) : Option (Response × Store V) :=
  match request.type with
  | .put => (handlePut dataDir env request s).map fun (_, s) => (⟨true, none⟩, s)
  | .quit => some (⟨false, none⟩, s)
  | .get => (handleGet fmts request s).map fun result => (⟨true, result⟩, s)
  | .stats => some (⟨true, some (headStats request.metric s)⟩, s)
  | .flush => (handleFlush dataDir env request s).map fun (_, s) => (⟨true, none⟩, s)
  | .agg => some (⟨true, some (handleAgg fmts registryDir request s)⟩, s)

end Arithmetic

/-- What `handleClient` sends back. -/
def reply (response : Response) : Text :=
  if !response.runFurther then "quit\n".toList
  else
    match response.result with
    | none => "ok".toList
    | some result => result

end Tsdb.Server
