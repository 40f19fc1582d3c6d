import Tsdb.Wal

namespace Tsdb.Registry

open CStrings Head Files Wal

variable {V : Type}

/-- `filename` is the name inside the metric's own directory. -/
structure ChunkMetadata where
  startTs : Int
  endTs : Int
  filename : Text
  deriving DecidableEq, Repr

/-- The value of one hash table entry; `chunkCount` is the length of `chunks`. -/
structure MetricRegistry (V : Type) where
  head : HeadBlock V
  chunks : List ChunkMetadata
  chunkCapacity : Int
  deriving DecidableEq, Repr

/-- A metric in memory and the directory that belongs to it. -/
structure MetricState (V : Type) where
  entry : MetricRegistry V
  dir : Dir V

def chunkId (ts : Int) : Nat := (ts % 2 ^ 32).toNat

/-- What `snprintf` leaves of the file name in the 256 bytes of `filepath`, behind
`dataDir/metric/`. -/
def chunkName (dataDir metric : Text) (id : Nat) : Text :=
  (metric ++ '_' :: (decimal id ++ ".chunk".toList)).take
    (255 - (dataDir.length + metric.length + 2))

def int16 (n : Int) : Int := n.bmod (2 ^ 16)

def addChunk (entry : MetricRegistry V) (chunk : ChunkMetadata) : MetricRegistry V :=
  { entry with
    chunkCapacity := if entry.chunkCapacity ≤ entry.chunks.length
      then int16 (entry.chunkCapacity * 2) else entry.chunkCapacity
    chunks := entry.chunks ++ [chunk] }

/-- The part of `headflush` that runs under the head's lock. -/
def flushHead (dataDir metric : Text) (io : ChunkIO) (s : MetricState V) : Bool × MetricState V :=
  match s.entry.head.points with
  | [] => (true, s)
  | first :: rest =>
    let name := chunkName dataDir metric (chunkId first.ts)
    let last := (first :: rest).getLast (by simp)
    match chunkwrite io s.dir.mkdir name ⟨first.ts, last.ts, first :: rest⟩ with
    | (false, dir) => (false, ⟨s.entry, dir⟩)
    | (true, dir) =>
      let entry := addChunk s.entry ⟨first.ts, s.entry.head.lastTimestamp, name⟩
      (true, ⟨{ entry with head := ⟨[], 0⟩ }, walTruncate dir⟩)

def flushSection (dataDir metric : Text) (io : FlushIO) (s : MetricState V) :
    Bool × MetricState V :=
  flushHead dataDir metric io.chunk s

/-- One attempt of `Head_PUT` under the head's lock, with the log record of an accepted point. -/
def putSection (point : Point V) (s : MetricState V) : Bool × MetricState V :=
  match putValue s.entry.head point with
  | (true, head) => (true, ⟨{ s.entry with head := head }, walAppend s.dir point⟩)
  | (false, _) => (false, s)

/-- `Head_PUT` when nobody else gets the lock in between. -/
def putHead (dataDir metric : Text) (io : ChunkIO) (point : Point V) (s : MetricState V) :
    Bool × MetricState V :=
  match putSection point s with
  | (true, s) => (true, s)
  | (false, s) =>
    if headCapacity ≤ s.entry.head.size then
      putSection point (flushHead dataDir metric io s).2
    else (false, s)

def putLocked (dataDir metric : Text) (io : FlushIO) (point : Point V) (s : MetricState V) :
    Bool × MetricState V :=
  putHead dataDir metric io.chunk point s

/-- The hash table and the directories below the data directory. -/
structure Store (V : Type) where
  registry : AList (fun _ : Text => MetricRegistry V)
  dirs : AList (fun _ : Text => Dir V)

def Store.empty : Store V := ⟨∅, ∅⟩

def Store.dirOf (s : Store V) (name : Text) : Dir V := (s.dirs.lookup name).getD Dir.empty

def Store.set (s : Store V) (metric : Text) (m : MetricState V) : Store V :=
  ⟨s.registry.insert metric m.entry, s.dirs.insert metric m.dir⟩

def Store.setDir (s : Store V) (name : Text) (dir : Dir V) : Store V :=
  ⟨s.registry, s.dirs.insert name dir⟩

/-- What the environment decides during one request: the memory `malloc` hands out and
the outcome of the file operations. -/
structure Env where
  unset : Int
  io : FlushIO

def hashFindStr (key : Text) (s : Store V) : Option (MetricState V) :=
  (s.registry.lookup key).map fun entry => ⟨entry, s.dirOf key⟩

/-- With `flag` unset a missing key is a read through a null pointer: `none`. -/
def getMetricFromHashTable (unset : Int) (key : Text) (flag : Bool) (s : Store V) :
    Option (MetricState V) :=
  match hashFindStr key s with
  | some m => some m
  | none => if flag then some ⟨⟨getNewHeadBlock unset, [], 4⟩, s.dirOf key⟩ else none

def headPut (dataDir : Text) (env : Env) (metric : Text) (point : Point V) (s : Store V) :
    Option (Bool × Store V) :=
  match getMetricFromHashTable env.unset metric true s with
  | none => none
  | some m =>
    let (res, m) := putLocked dataDir metric env.io point m
    some (res, s.set metric m)

def headFlush (dataDir : Text) (env : Env) (metric : Text) (s : Store V) :
    Option (Bool × Store V) :=
  match getMetricFromHashTable env.unset metric false s with
  | none => none
  | some m =>
    let (res, m) := flushSection dataDir metric env.io m
    some (res, s.set metric m)

theorem getMetric_cases {unset : Int} {key : Text} {flag : Bool} {s : Store V} {m : MetricState V}
    (h : m ∈ getMetricFromHashTable unset key flag s) :
    hashFindStr key s = some m ∨
      hashFindStr key s = none ∧ flag = true ∧
        m = ⟨⟨getNewHeadBlock unset, [], 4⟩, s.dirOf key⟩ := by
  unfold getMetricFromHashTable at h
  cases hf : hashFindStr key s with
  | some m' =>
    rw [hf] at h
    exact .inl h
  | none =>
    simp only [hf, Option.mem_def, Option.ite_none_right_eq_some, Option.some.injEq] at h
    exact .inr ⟨rfl, h.1, h.2.symm⟩

theorem find_set (s : Store V) (metric : Text) (m : MetricState V) :
    hashFindStr metric (s.set metric m) = some m := by
  simp [hashFindStr, Store.set, Store.dirOf]

theorem dirOf_set (s : Store V) (metric : Text) (m : MetricState V) :
    (s.set metric m).dirOf metric = m.dir := by
  simp [Store.set, Store.dirOf]

theorem dirOf_set_ne (s : Store V) {metric other : Text} (h : other ≠ metric)
    (m : MetricState V) : (s.set metric m).dirOf other = s.dirOf other := by
  simp [Store.set, Store.dirOf, AList.lookup_insert_ne h]

theorem find_set_ne (s : Store V) {metric other : Text} (h : other ≠ metric)
    (m : MetricState V) : hashFindStr other (s.set metric m) = hashFindStr other s := by
  unfold hashFindStr
  rw [dirOf_set_ne s h, Store.set, AList.lookup_insert_ne h]

theorem dirOf_setDir (s : Store V) (name : Text) (dir : Dir V) :
    (s.setDir name dir).dirOf name = dir := by
  simp [Store.setDir, Store.dirOf]

theorem dirOf_setDir_ne (s : Store V) {name other : Text} (h : other ≠ name) (dir : Dir V) :
    (s.setDir name dir).dirOf other = s.dirOf other := by
  simp [Store.setDir, Store.dirOf, AList.lookup_insert_ne h]

theorem find_setDir (s : Store V) (name : Text) (dir : Dir V) (key : Text) :
    hashFindStr key (s.setDir name dir) =
      (hashFindStr key s).map fun m => ⟨m.entry, (s.setDir name dir).dirOf key⟩ := by
  unfold hashFindStr
  rw [Option.map_map]
  rfl

theorem dirOf_setDir_same (s : Store V) (name key : Text) :
    (s.setDir name (s.dirOf name)).dirOf key = s.dirOf key := by
  by_cases h : key = name
  · rw [h, dirOf_setDir]
  · exact dirOf_setDir_ne s h _

theorem find_dir {s : Store V} {key : Text} {m : MetricState V} (h : hashFindStr key s = some m) :
    m.dir = s.dirOf key := by
  obtain ⟨entry, _, rfl⟩ := Option.map_eq_some_iff.mp h
  rfl

theorem mem_registry {s : Store V} {k : Text} : k ∈ s.registry ↔ hashFindStr k s ≠ none := by
  rw [← AList.lookup_isSome, Option.isSome_iff_ne_none, hashFindStr, ne_eq, ne_eq,
    Option.map_eq_none_iff]

theorem mem_of_find {s : Store V} {k : Text} {m : MetricState V} (h : hashFindStr k s = some m) :
    k ∈ s.registry := by
  rw [mem_registry, h]
  exact Option.some_ne_none m

theorem eq_of_keys {s : Store V} {k metric : Text} (h : s.registry.keys = [metric])
    (hk : k ∈ s.registry) : k = metric := by
  have hmem := AList.mem_keys.mp hk
  rwa [h, List.mem_singleton] at hmem

theorem dirOf_of_keys {s : Store V} {k metric : Text} (h : s.dirs.keys = [metric])
    (hk : k ≠ metric) : s.dirOf k = Dir.empty := by
  have hnone : s.dirs.lookup k = none := by
    rw [AList.lookup_eq_none, AList.mem_keys, h, List.mem_singleton]
    exact hk
  rw [Store.dirOf, hnone, Option.getD_none]

end Tsdb.Registry
