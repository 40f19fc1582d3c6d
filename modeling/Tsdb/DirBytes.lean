import Tsdb.CrashFiles
import Tsdb.FileBytes
import Tsdb.Lifetime

namespace Tsdb.DirBytes

open CStrings Head Files Wal Registry Sections Recovery Shutdown Lifetime LittleEndian WalBytes
  FileBytes Runs

section Tables

variable {α β β' : Type}

def mapValues (f : β → β') (s : AList fun _ : α => β) : AList fun _ : α => β' :=
  ⟨s.entries.map (Sigma.map id fun _ => f), List.NodupKeys.map₂ _ _ s.nodupKeys⟩

@[simp] theorem keys_mapValues (f : β → β') (s : AList fun _ : α => β) :
    (mapValues f s).keys = s.keys :=
  List.map₂_keys (fun _ => f) s.entries

variable [DecidableEq α]

@[simp] theorem lookup_mapValues (f : β → β') (s : AList fun _ : α => β) (a : α) :
    (mapValues f s).lookup a = (s.lookup a).map f :=
  List.dlookup_map₂ (f := fun _ => f) a

theorem mapValues_insert (f : β → β') (s : AList fun _ : α => β) (a : α) (b : β) :
    mapValues f (s.insert a b) = (mapValues f s).insert a (f b) := by
  apply AList.ext
  change (s.insert a b).entries.map _ = ((mapValues f s).insert a (f b)).entries
  rw [AList.entries_insert, AList.entries_insert, List.map_cons]
  congr 1
  change _ = List.eraseP (fun x : Σ _ : α, β' => a = x.1) (s.entries.map _)
  rw [List.eraseP_map]
  rfl

end Tables

/-- One directory below the data directory, with the bytes of its files. -/
structure ByteDir where
  present : Bool
  chunks : AList (fun _ : Text => List Byte)
  wal : Option (List Byte)
  done : List Nat

structure ByteMetric where
  entry : MetricRegistry (BitVec 64)
  dir : ByteDir

def ByteDir.empty : ByteDir := ⟨false, ∅, none, []⟩

def ByteDir.mkdir (dir : ByteDir) : ByteDir := { dir with present := true }

def ByteDir.write (dir : ByteDir) (name : Text) (bytes : List Byte) : ByteDir :=
  { dir with chunks := dir.chunks.insert name bytes }

def ByteDir.append (dir : ByteDir) (point : Sample) : ByteDir :=
  { dir.mkdir with wal := walAppendBytes dir.wal point }

def ByteDir.truncate (dir : ByteDir) : ByteDir := { dir with wal := none }

/-- How the file operations of `chunkwrite` end. A write or an `fclose` that fails leaves some of
the bytes before the last. -/
inductive Writing where
  | ok
  | openFails
  | writeFails (n : Nat)
  | closeFails (n : Nat)
  deriving DecidableEq, Repr

def Writing.outcome : Writing → ChunkIO
  | .ok => .ok
  | .openFails => .openFails
  | .writeFails _ => .writeFails
  | .closeFails _ => .closeFails

def putSection (point : Sample) (s : ByteMetric) : Bool × ByteMetric :=
  match putValue s.entry.head point with
  | (true, head) => (true, ⟨{ s.entry with head := head }, s.dir.append point⟩)
  | (false, _) => (false, s)

/-- The part of `headflush` that runs under the head's lock. -/
def flushSection (dataDir metric : Text) (io : Writing) (pad : List Byte) (s : ByteMetric) :
    Bool × ByteMetric :=
  match s.entry.head.points with
  | [] => (true, s)
  | first :: rest =>
    let name := chunkName dataDir metric (chunkId first.ts)
    let dir := s.dir.mkdir
    let bytes := flushBytes (chunkId first.ts) pad (first :: rest)
    if name = [] then (false, ⟨s.entry, dir⟩)
    else
      match io with
      | .openFails => (false, ⟨s.entry, dir⟩)
      | .writeFails n => (false, ⟨s.entry, dir.write name (bytes.dropLast.take n)⟩)
      | .closeFails n =>
        let entry := addChunk s.entry ⟨first.ts, s.entry.head.lastTimestamp, name⟩
        (true, ⟨{ entry with head := ⟨[], 0⟩ },
          (dir.write name (bytes.dropLast.take n)).truncate⟩)
      | .ok =>
        let entry := addChunk s.entry ⟨first.ts, s.entry.head.lastTimestamp, name⟩
        (true, ⟨{ entry with head := ⟨[], 0⟩ }, (dir.write name bytes).truncate⟩)

def putLocked (dataDir metric : Text) (io : Writing) (pad : List Byte) (point : Sample)
    (s : ByteMetric) : Bool × ByteMetric :=
  match putSection point s with
  | (true, s) => (true, s)
  | (false, s) =>
    if headCapacity ≤ s.entry.head.size then
      putSection point (flushSection dataDir metric io pad s).2
    else (false, s)

/-- Where the process stops: between requests, or in a `headflush` that has written some bytes of
the file, or has removed the log too, be it that `fclose` lost some bytes. -/
inductive Stop where
  | idle
  | beforeOpen
  | bytes (n : Nat)
  | truncated
  | unclosed (n : Nat)
  deriving DecidableEq, Repr

def stopped (dataDir metric : Text) (stop : Stop) (pad : List Byte) (s : ByteMetric) : ByteDir :=
  match stop, s.entry.head.points with
  | .idle, _ => s.dir
  | _, [] => s.dir
  | stop, first :: rest =>
    let name := chunkName dataDir metric (chunkId first.ts)
    let dir := s.dir.mkdir
    let bytes := flushBytes (chunkId first.ts) pad (first :: rest)
    if name = [] then dir
    else
      match stop with
      | .bytes n => dir.write name (bytes.take n)
      | .truncated => (dir.write name bytes).truncate
      | .unclosed n => (dir.write name (bytes.dropLast.take n)).truncate
      | _ => dir

/-- The file of the head is complete, and the log of the same points is still there. -/
def Stop.doubles (dataDir metric : Text) (pad : List Byte) (s : ByteMetric) (stop : Stop) : Bool :=
  match stop, s.entry.head.points with
  | .bytes n, first :: rest => chunkName dataDir metric (chunkId first.ts) ≠ [] ∧
      (flushBytes (chunkId first.ts) pad (first :: rest)).length ≤ n
  | _, _ => false

def loadChunkMetadata (dataDir metric : Text) (dir : ByteDir) (entry : MetricRegistry (BitVec 64))
    (name : Text) : MetricRegistry (BitVec 64) :=
  match (dir.chunks.lookup name).bind fun file => Chunk.chunkRead (ofBytes file) with
  | none => entry
  | some (header, _) =>
    { entry with
      chunkCapacity := if entry.chunkCapacity ≤ entry.chunks.length
        then (if entry.chunkCapacity = 0 then 4 else int16 (entry.chunkCapacity * 2))
        else entry.chunkCapacity
      chunks := entry.chunks ++
        [⟨header.startTs.toInt, header.endTs.toInt, loadedName dataDir metric name⟩] }

def loadMetric (dataDir metric : Text) (unset : Int) (dir : ByteDir) : ByteMetric :=
  let names := dir.chunks.keys.filter fun name => ".chunk".toList <:+: name
  let entry := names.foldl (loadChunkMetadata dataDir metric dir) ⟨getNewHeadBlock unset, [], 4⟩
  ⟨{ entry with head := walReplayBytes dir.wal entry.head }, dir⟩

/-- The files hold what the record-level directory says, byte for byte. -/
structure Stands (b : ByteDir) (dir : Dir (BitVec 64)) : Prop where
  present : b.present = dir.present
  chunks : mapValues chunkFile b.chunks = dir.chunks
  wal : b.wal = logBytes dir.wal
  long : ∀ p ∈ dir.wal.getD [], InLong p.ts
  done : b.done = dir.done

structure StandsFor (b : ByteMetric) (m : MetricState (BitVec 64)) : Prop where
  dir : Stands b.dir m.dir
  entry : b.entry = m.entry
  long : ∀ p ∈ m.entry.head.points, InLong p.ts

variable {b : ByteDir} {dir : Dir (BitVec 64)} {s : ByteMetric} {m : MetricState (BitVec 64)}
  {dataDir metric : Text}

theorem stands_empty : Stands ByteDir.empty Dir.empty :=
  ⟨rfl, rfl, rfl, fun _ h => absurd h List.not_mem_nil, rfl⟩

theorem Stands.mkdir (h : Stands b dir) : Stands b.mkdir dir.mkdir :=
  ⟨rfl, h.chunks, h.wal, h.long, h.done⟩

theorem Stands.truncate (h : Stands b dir) : Stands b.truncate (walTruncate dir) :=
  ⟨h.present, h.chunks, rfl, fun _ hp => absurd hp List.not_mem_nil, h.done⟩

theorem Stands.append (h : Stands b dir) {point : Sample} (hlong : InLong point.ts) :
    Stands (b.append point) (walAppend dir point) := by
  refine ⟨rfl, h.chunks, ?_, ?_, h.done⟩
  · rw [logBytes_append, ← h.wal]
    rfl
  · exact List.forall_mem_append.mpr ⟨h.long, List.forall_mem_singleton.mpr hlong⟩

theorem Stands.write (h : Stands b dir) (name : Text) {bytes : List Byte}
    {file : ChunkFile (BitVec 64)} (hfile : chunkFile bytes = file) :
    Stands (b.write name bytes) { dir with chunks := dir.chunks.insert name file } := by
  refine ⟨h.present, ?_, h.wal, h.long, h.done⟩
  rw [← hfile, ← h.chunks]
  exact mapValues_insert chunkFile b.chunks name bytes

theorem fopenWb_write (dir : Dir (BitVec 64)) (name : Text) (data : ChunkData (BitVec 64)) :
    chunkWrite (fopenWb dir name) name data =
      { dir with chunks := dir.chunks.insert name (.whole data) } := by
  rw [chunkWrite, fopenWb, AList.insert_insert]

theorem stands_put (h : StandsFor s m) {point : Sample} (hlong : InLong point.ts) :
    (putSection point s).1 = (Registry.putSection point m).1 ∧
      StandsFor (putSection point s).2 (Registry.putSection point m).2 := by
  unfold putSection Registry.putSection
  rw [h.entry]
  rcases putValue_cases m.entry.head point with ⟨_, _, he⟩ | ⟨_, he⟩
  · rw [he]
    exact ⟨rfl, h.dir.append hlong, rfl,
      List.forall_mem_append.mpr ⟨h.long, List.forall_mem_singleton.mpr hlong⟩⟩
  · rw [he]
    exact ⟨rfl, h⟩

/-- A head that its chunk file keeps as it is. -/
structure Flushable (pad : List Byte) (head : HeadBlock (BitVec 64)) : Prop where
  pad : pad.length = 4
  room : head.points.length ≤ headCapacity
  exact : Exactness.Exact id head.points

variable {pad : List Byte} {head : HeadBlock (BitVec 64)} {first : Sample} {rest : List Sample}

theorem Flushable.cut (h : Flushable pad head) (hp : head.points = first :: rest) {id n : Nat}
    (hcut : n < (flushBytes id pad (first :: rest)).length) :
    chunkFile ((flushBytes id pad (first :: rest)).take n) = .torn := by
  have hroom := h.room
  rw [hp] at hroom
  exact chunkFile_cut h.pad rfl (List.getLast?_eq_some_getLast (List.cons_ne_nil first rest)) hroom
    hcut

theorem Flushable.whole (h : Flushable pad head) (hp : head.points = first :: rest)
    (hlong : ∀ p ∈ head.points, InLong p.ts) (id : Nat) :
    chunkFile (flushBytes id pad (first :: rest)) =
      .whole ⟨first.ts, ((first :: rest).getLast (List.cons_ne_nil first rest)).ts,
        first :: rest⟩ := by
  have hroom := h.room
  have hexact := h.exact
  rw [hp] at hroom hexact hlong
  rw [chunkFile_flush h.pad rfl (List.getLast?_eq_some_getLast (List.cons_ne_nil first rest)) hroom
    hlong, kept_exact hlong hexact]

theorem Flushable.failed (h : Flushable pad head) (hp : head.points = first :: rest)
    (id n : Nat) : chunkFile ((flushBytes id pad (first :: rest)).dropLast.take n) = .torn := by
  rw [List.dropLast_eq_take, List.take_take]
  by_cases hpos : 0 < (flushBytes id pad (first :: rest)).length
  · exact h.cut hp (by omega)
  · rw [List.eq_nil_of_length_eq_zero (Nat.eq_zero_of_not_pos hpos), List.take_nil]
    rfl

theorem stands_flush (h : StandsFor s m) (hok : Flushable pad m.entry.head) (io : Writing) :
    (flushSection dataDir metric io pad s).1 = (flushHead dataDir metric io.outcome m).1 ∧
      StandsFor (flushSection dataDir metric io pad s).2
        (flushHead dataDir metric io.outcome m).2 := by
  unfold flushSection flushHead chunkwrite
  rw [h.entry]
  cases hp : m.entry.head.points with
  | nil => exact ⟨rfl, h⟩
  | cons first rest =>
    have hmkdir : StandsFor ⟨m.entry, s.dir.mkdir⟩ ⟨m.entry, m.dir.mkdir⟩ :=
      ⟨h.dir.mkdir, rfl, h.long⟩
    dsimp only
    split
    · exact ⟨rfl, hmkdir⟩
    · cases io with
      | openFails => exact ⟨rfl, hmkdir⟩
      | writeFails n => exact ⟨rfl, h.dir.mkdir.write _ (hok.failed hp _ n), rfl, h.long⟩
      | closeFails n =>
        exact ⟨rfl, (h.dir.mkdir.write _ (hok.failed hp _ n)).truncate, rfl,
          fun _ hp => absurd hp List.not_mem_nil⟩
      | ok =>
        refine ⟨rfl, ?_, rfl, fun _ hp => absurd hp List.not_mem_nil⟩
        dsimp only [Writing.outcome]
        rw [fopenWb_write]
        exact (h.dir.mkdir.write _ (hok.whole hp h.long _)).truncate

theorem stands_putLocked (h : StandsFor s m)
    (hok : headCapacity ≤ m.entry.head.size → Flushable pad m.entry.head) (io : Writing)
    {point : Sample} (hlong : InLong point.ts) :
    (putLocked dataDir metric io pad point s).1 = (putHead dataDir metric io.outcome point m).1 ∧
      StandsFor (putLocked dataDir metric io pad point s).2
        (putHead dataDir metric io.outcome point m).2 := by
  obtain ⟨hres, hstate⟩ := stands_put h hlong
  unfold putLocked putHead
  rcases putSection_cases point m with ⟨_, he⟩ | ⟨_, he⟩
  · rw [he] at hres hstate ⊢
    cases hs : putSection point s with
    | mk res s1 =>
      rw [hs] at hres hstate
      obtain rfl : res = true := hres
      exact ⟨rfl, hstate⟩
  · rw [he] at hres hstate ⊢
    cases hs : putSection point s with
    | mk res s1 =>
      rw [hs] at hres hstate
      obtain rfl : res = false := hres
      dsimp only at hstate ⊢
      rw [hstate.entry]
      split
      case isTrue hfull => exact stands_put (stands_flush hstate (hok hfull) io).2 hlong
      case isFalse => exact ⟨rfl, hstate⟩

/-- Wherever the process stops, its directory is one that the record-level server can leave. -/
theorem stands_stopped (h : StandsFor s m) {stop : Stop}
    (hclosed : ∀ n, stop = .unclosed n → m.entry.head.points = [])
    (hok : stop ≠ .idle → Flushable pad m.entry.head) :
    ∃ dir, LeftBy dataDir metric (fun point => stop.doubles dataDir metric pad s = false →
        point ≠ .written ∧ point ≠ .registered) m dir ∧
      Stands (stopped dataDir metric stop pad s) dir := by
  cases hp : m.entry.head.points with
  | nil =>
    refine ⟨m.dir, .idle, ?_⟩
    unfold stopped
    rw [h.entry, hp]
    cases stop <;> exact h.dir
  | cons first rest =>
    have hmkdir : Stands s.dir.mkdir m.dir.mkdir := h.dir.mkdir
    have hcrash (point : CrashPoint) (hcut : stop.doubles dataDir metric pad s = false →
        point ≠ .written ∧ point ≠ .registered) :
        LeftBy dataDir metric (fun point => stop.doubles dataDir metric pad s = false →
          point ≠ .written ∧ point ≠ .registered) m (crashFlush point dataDir metric m) :=
      .stopped point hcut
    unfold crashFlush at hcrash
    rw [hp] at hcrash
    have hdoubles {n : Nat} (hname : chunkName dataDir metric (chunkId first.ts) ≠ [])
        (hall : (flushBytes (chunkId first.ts) pad (first :: rest)).length ≤ n) :
        (Stop.bytes n).doubles dataDir metric pad s = true := by
      unfold Stop.doubles
      rw [h.entry, hp]
      exact decide_eq_true ⟨hname, hall⟩
    unfold stopped
    rw [h.entry, hp]
    cases stop with
    | idle => exact ⟨m.dir, .idle, h.dir⟩
    | unclosed n =>
      rw [hclosed n rfl] at hp
      cases hp
    | beforeOpen =>
      refine ⟨_, hcrash .beforeOpen fun _ => ⟨by decide, by decide⟩, ?_⟩
      dsimp only
      split <;> exact hmkdir
    | bytes n =>
      dsimp only at hcrash ⊢
      by_cases hname : chunkName dataDir metric (chunkId first.ts) = []
      · refine ⟨_, hcrash .opened fun _ => ⟨by decide, by decide⟩, ?_⟩
        rw [if_pos hname, if_pos hname]
        exact hmkdir
      · by_cases hcut : n < (flushBytes (chunkId first.ts) pad (first :: rest)).length
        · refine ⟨_, hcrash .opened fun _ => ⟨by decide, by decide⟩, ?_⟩
          rw [if_neg hname, if_neg hname]
          exact hmkdir.write _ ((hok (by simp)).cut hp hcut)
        · refine ⟨_, hcrash .written fun hnot => ?_, ?_⟩
          · rw [hdoubles hname (Nat.not_lt.mp hcut)] at hnot
            cases hnot
          rw [if_neg hname, if_neg hname, fopenWb_write,
            List.take_of_length_le (Nat.not_lt.mp hcut)]
          exact hmkdir.write _ ((hok (by simp)).whole hp h.long _)
    | truncated =>
      refine ⟨_, hcrash .truncated fun _ => ⟨by decide, by decide⟩, ?_⟩
      dsimp only
      split
      · exact hmkdir
      · rw [fopenWb_write]
        exact (hmkdir.write _ ((hok (by simp)).whole hp h.long _)).truncate

theorem stands_loadChunk (h : Stands b dir) (entry : MetricRegistry (BitVec 64)) (name : Text) :
    loadChunkMetadata dataDir metric b entry name =
      Recovery.loadChunkMetadata dataDir metric dir entry name := by
  unfold loadChunkMetadata Recovery.loadChunkMetadata Files.chunkRead
  rw [← h.chunks, lookup_mapValues]
  cases hl : b.chunks.lookup name with
  | none => rfl
  | some file =>
    rw [Option.bind_some, Option.map_some, chunkFile]
    cases Chunk.chunkRead (ofBytes file) with
    | none => rfl
    | some out => rfl

theorem stands_load (h : Stands b dir) (unset : Int) :
    StandsFor (loadMetric dataDir metric unset b)
      (Recovery.loadMetric dataDir metric unset dir) := by
  have hfold (names : List Text) (entry : MetricRegistry (BitVec 64)) :
      names.foldl (loadChunkMetadata dataDir metric b) entry =
        names.foldl (Recovery.loadChunkMetadata dataDir metric dir) entry := by
    congr 1
    funext entry name
    exact stands_loadChunk h entry name
  have hkeys : b.chunks.keys = dir.chunks.keys := by
    rw [← h.chunks, keys_mapValues]
  refine ⟨h, ?_, ?_⟩
  · unfold loadMetric Recovery.loadMetric
    rw [hkeys]
    dsimp only
    rw [hfold, h.wal, walReplay_bytes h.long]
  · intro p hp
    rw [Loading.loadMetric_head, CrashFiles.walReplay_eq] at hp
    obtain ⟨records, hsub, he⟩ := Replay.replay_appends (dir.wal.getD []) (getNewHeadBlock unset)
    rw [he] at hp
    exact h.long p (hsub.subset hp)

end Tsdb.DirBytes
