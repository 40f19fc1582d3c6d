import Tsdb.Registry

namespace Tsdb.Recovery

open CStrings Head Files Wal Registry

variable {V : Type}

inductive CrashPoint where
  | beforeOpen
  | opened
  | written
  | registered
  | truncated
  deriving DecidableEq, Repr

def crashFlush (point : CrashPoint) (dataDir metric : Text) (m : MetricState V) : Dir V :=
  match m.entry.head.points with
  | [] => m.dir
  | first :: rest =>
    let name := chunkName dataDir metric (chunkId first.ts)
    let last := (first :: rest).getLast (List.cons_ne_nil first rest)
    let dir := m.dir.mkdir
    if name = [] then dir
    else
      let complete := chunkWrite (fopenWb dir name) name ⟨first.ts, last.ts, first :: rest⟩
      match point with
      | .beforeOpen => dir
      | .opened => fopenWb dir name
      | .written => complete
      | .registered => complete
      | .truncated => walTruncate complete

/-- The name a directory entry keeps in the 256 bytes of `filename`. -/
def loadedName (dataDir metric name : Text) : Text :=
  name.take (255 - (dataDir.length + metric.length + 2))

def loadChunkMetadata (dataDir metric : Text) (dir : Dir V) (entry : MetricRegistry V)
    (name : Text) : MetricRegistry V :=
  match chunkRead dir name with
  | none => entry
  | some data =>
    { entry with
      chunkCapacity := if entry.chunkCapacity ≤ entry.chunks.length
        then (if entry.chunkCapacity = 0 then 4 else int16 (entry.chunkCapacity * 2))
        else entry.chunkCapacity
      chunks := entry.chunks ++ [⟨data.startTs, data.endTs, loadedName dataDir metric name⟩] }

/-- One directory of `loadRegistry`: its chunk files, then its log into the new head. -/
def loadMetric (dataDir metric : Text) (unset : Int) (dir : Dir V) : MetricState V :=
  let names := dir.chunks.keys.filter fun name => ".chunk".toList <:+: name
  let entry := names.foldl (loadChunkMetadata dataDir metric dir) ⟨getNewHeadBlock unset, [], 4⟩
  ⟨{ entry with head := walReplay dir entry.head }, dir⟩

/-- `loadRegistry` on a new process; `unset` is what `malloc` gives each head block. Directory names
are at most 63 characters long: a longer one is cut in `key`, and the process ends when it is not
found under its full name. -/
def loadRegistry (dataDir : Text) (unset : Text → Int) (dirs : AList fun _ : Text => Dir V) :
    Store V :=
  let dirOf (name : Text) : Dir V := (dirs.lookup name).getD Dir.empty
  (dirs.keys.filter fun name => EntryName name ∧ (dirOf name).present).foldl
    (fun s name => s.set name (loadMetric dataDir name (unset name) (dirOf name))) ⟨∅, dirs⟩

def restart (dataDir : Text) (unset : Text → Int) (metric : Text) (point : CrashPoint)
    (s : Store V) : Store V :=
  match hashFindStr metric s with
  | none => loadRegistry dataDir unset s.dirs
  | some m => loadRegistry dataDir unset (s.dirs.insert metric (crashFlush point dataDir metric m))

end Tsdb.Recovery
