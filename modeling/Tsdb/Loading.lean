import Tsdb.ChunkNames
import Tsdb.Folds
import Tsdb.Recovery
import Tsdb.Replay

namespace Tsdb.Loading

open Folds CStrings Head Files Wal Registry Sections History Service Disk ChunkNames Recovery Replay

variable {V : Type}

theorem find_foldl_set (f : Text → MetricState V) (names : List Text) (s : Store V)
    {name : Text} (h : name ∈ names) :
    hashFindStr name (names.foldl (fun s name => s.set name (f name)) s) = some (f name) := by
  induction names using List.reverseRecOn with
  | nil => cases h
  | append_singleton names last ih =>
    rw [List.foldl_append, List.foldl_cons, List.foldl_nil]
    by_cases hl : name = last
    · rw [hl]
      exact find_set _ _ _
    · rw [find_set_ne _ hl]
      refine ih ?_
      simpa [hl] using h

theorem find_foldl_set_ne (f : Text → MetricState V) (names : List Text) (s : Store V)
    {name : Text} (h : name ∉ names) :
    hashFindStr name (names.foldl (fun s name => s.set name (f name)) s) = hashFindStr name s := by
  apply foldl_same
  intro s other hother
  have hne : name ≠ other := fun he => h (he ▸ hother)
  exact find_set_ne s hne _

theorem find_loadRegistry (dataDir : Text) (unset : Text → Int)
    (dirs : AList fun _ : Text => Dir V) {name : Text} {dir : Dir V} (hname : EntryName name)
    (hdir : dirs.lookup name = some dir) (hpresent : dir.present = true) :
    hashFindStr name (loadRegistry dataDir unset dirs) =
      some (loadMetric dataDir name (unset name) dir) := by
  unfold loadRegistry
  rw [find_foldl_set (fun name => loadMetric dataDir name (unset name)
    ((dirs.lookup name).getD Dir.empty))]
  · rw [hdir, Option.getD_some]
  · have hmem : name ∈ dirs.keys := AList.mem_keys.mp (AList.lookup_isSome.mp (by rw [hdir]; rfl))
    simp [hmem, hname, hdir, hpresent]

theorem find_loadRegistry_none (dataDir : Text) (unset : Text → Int)
    (dirs : AList fun _ : Text => Dir V) {name : Text}
    (habsent : ((dirs.lookup name).getD Dir.empty).present = false) :
    hashFindStr name (loadRegistry dataDir unset dirs) = none := by
  unfold loadRegistry
  rw [find_foldl_set_ne (fun name => loadMetric dataDir name (unset name)
    ((dirs.lookup name).getD Dir.empty))]
  · rfl
  · simp [habsent]

def loadedChunks (dataDir metric : Text) (dir : Dir V) (names : List Text) : List ChunkMetadata :=
  names.filterMap fun name => (chunkRead dir name).map fun data =>
    ⟨data.startTs, data.endTs, loadedName dataDir metric name⟩

theorem foldl_loadChunkMetadata (dataDir metric : Text) (dir : Dir V) (names : List Text)
    (entry : MetricRegistry V) :
    (names.foldl (loadChunkMetadata dataDir metric dir) entry).chunks =
        entry.chunks ++ loadedChunks dataDir metric dir names ∧
      (names.foldl (loadChunkMetadata dataDir metric dir) entry).head = entry.head := by
  induction names generalizing entry with
  | nil => simp [loadedChunks]
  | cons name names ih =>
    rw [List.foldl_cons]
    obtain ⟨hc, hh⟩ := ih (loadChunkMetadata dataDir metric dir entry name)
    rw [hc, hh]
    unfold loadChunkMetadata loadedChunks
    cases hr : chunkRead dir name <;> simp [hr]

theorem loadMetric_head {dataDir metric : Text} (dir : Dir V) (unset : Int) :
    (loadMetric dataDir metric unset dir).entry.head = walReplay dir (getNewHeadBlock unset) := by
  unfold loadMetric
  dsimp only
  rw [(foldl_loadChunkMetadata dataDir metric dir _ ⟨getNewHeadBlock unset, [], 4⟩).2]

theorem loadMetric_chunks {dataDir metric : Text} (dir : Dir V) (unset : Int) :
    (loadMetric dataDir metric unset dir).entry.chunks = loadedChunks dataDir metric dir
      (dir.chunks.keys.filter fun name => ".chunk".toList <:+: name) := by
  unfold loadMetric
  dsimp only
  rw [(foldl_loadChunkMetadata dataDir metric dir _ ⟨getNewHeadBlock unset, [], 4⟩).1]
  rfl

theorem loadMetric_eq (dataDir metric : Text) (unset : Int) (dir : Dir V) :
    storedPoints (loadMetric dataDir metric unset dir) =
      (loadedChunks dataDir metric dir
        (dir.chunks.keys.filter fun name => ".chunk".toList <:+: name)).flatMap (chunkPoints dir) ++
      (walReplay dir (getNewHeadBlock unset)).points := by
  rw [storedPoints, loadMetric_chunks, loadMetric_head]
  rfl

/-- A metric whose directory a restart finds, with paths short enough to be kept whole. -/
def Loadable (dataDir metric : Text) : Prop :=
  EntryName metric ∧ dataDir.length + 2 * metric.length + 19 ≤ 254

theorem Loadable.fits {dataDir metric : Text} (h : Loadable dataDir metric) :
    PathFits dataDir metric := by
  have := h.2
  unfold PathFits
  omega

theorem lookup_present {dirs : AList fun _ : Text => Dir V} {k : Text}
    (h : ((dirs.lookup k).getD Dir.empty).present = true) :
    dirs.lookup k = some ((dirs.lookup k).getD Dir.empty) := by
  cases hl : dirs.lookup k with
  | none =>
    rw [hl] at h
    cases h
  | some dir => rfl

def filePoints (dir : Dir V) (name : Text) : List (Point V) :=
  ((chunkRead dir name).map ChunkData.points).getD []

/-- The complete files of a directory are these, each named after some chunk's start. -/
structure Complete (dataDir metric : Text) (dir : Dir V) (names : List Text) : Prop where
  nodup : names.Nodup
  readable : ∀ name, chunkRead dir name ≠ none ↔ name ∈ names
  named : ∀ name ∈ names, ∃ ts, name = chunkName dataDir metric (chunkId ts)

theorem chunkName_isChunk {dataDir metric : Text} (h : PathFits dataDir metric) (ts : Int) :
    ".chunk".toList <:+: chunkName dataDir metric (chunkId ts) := by
  rw [chunkName_eq h]
  exact ⟨metric ++ '_' :: decimal (chunkId ts), [], by simp⟩

theorem loadedName_eq {dataDir metric : Text} (ts : Int) :
    loadedName dataDir metric (chunkName dataDir metric (chunkId ts)) =
      chunkName dataDir metric (chunkId ts) := by
  rw [loadedName, chunkName, List.take_take, Nat.min_self]

def loadedNames (dir : Dir V) : List Text :=
  (dir.chunks.keys.filter fun name => ".chunk".toList <:+: name).filter
    fun name => (chunkRead dir name).isSome

theorem mem_loadedNames {dir : Dir V} {name : Text} :
    name ∈ loadedNames dir ↔ ".chunk".toList <:+: name ∧ chunkRead dir name ≠ none := by
  rw [loadedNames, List.mem_filter, List.mem_filter, Option.isSome_iff_ne_none, decide_eq_true_iff]
  constructor
  · rintro ⟨⟨_, hchunk⟩, hread⟩
    exact ⟨hchunk, hread⟩
  · rintro ⟨hchunk, hread⟩
    obtain ⟨data, hdata⟩ := Option.ne_none_iff_exists'.mp hread
    exact ⟨⟨chunkRead_key hdata, hchunk⟩, hread⟩

theorem loadedNames_nodup (dir : Dir V) : (loadedNames dir).Nodup :=
  (dir.chunks.keys_nodup.filter _).filter _

theorem loadedChunks_points {dataDir metric : Text} {dir : Dir V} {names : List Text}
    (hnames : ∀ name, chunkRead dir name ≠ none → loadedName dataDir metric name = name) :
    (loadedChunks dataDir metric dir names).flatMap (chunkPoints dir) =
      (names.filter fun name => (chunkRead dir name).isSome).flatMap (filePoints dir) := by
  induction names with
  | nil => rfl
  | cons name names ih =>
    cases hr : chunkRead dir name with
    | none => simpa [loadedChunks, hr] using ih
    | some data =>
      have hname := hnames name (by rw [hr]; exact Option.some_ne_none data)
      simpa [loadedChunks, hr, chunkPoints, filePoints, hname] using ih

theorem complete_loaded {dataDir metric : Text} {dir : Dir V} {names : List Text}
    (h : Complete dataDir metric dir names) (hload : Loadable dataDir metric) :
    ((loadedChunks dataDir metric dir
      (dir.chunks.keys.filter fun name => ".chunk".toList <:+: name)).flatMap
        (chunkPoints dir)).Perm (names.flatMap (filePoints dir)) := by
  rw [loadedChunks_points fun name hr => by
    obtain ⟨ts, rfl⟩ := h.named name ((h.readable name).mp hr)
    exact loadedName_eq ts]
  apply List.Perm.flatMap_right
  apply (List.perm_ext_iff_of_nodup (loadedNames_nodup dir) h.nodup).mpr
  intro name
  rw [mem_loadedNames, ← h.readable]
  refine ⟨fun hr => hr.2, fun hr => ⟨?_, hr⟩⟩
  obtain ⟨ts, rfl⟩ := h.named name ((h.readable name).mp hr)
  exact chunkName_isChunk hload.fits ts

/-- What a run adds to `OnDisk` for the next start: no complete file without an entry, and a
directory as soon as there is a point. -/
structure Registered (l : Ledger V) : Prop where
  named : ∀ name, chunkRead l.metric.dir name ≠ none → name ∈ filenames l.metric
  made : l.accepted ≠ [] → l.metric.dir.present = true

theorem registered_put {l : Ledger V} (h : Registered l) (point : Point V) :
    Registered (l.put point).2 := by
  unfold Ledger.put
  rcases putSection_cases point l.metric with ⟨_, he⟩ | ⟨_, he⟩
  · rw [he]
    exact ⟨h.named, fun _ => rfl⟩
  · rw [he]
    exact h

theorem registered_flush {l : Ledger V} (h : Registered l) (dataDir metric : Text) (io : FlushIO) :
    Registered (l.flush dataDir metric io).2 := by
  unfold Ledger.flush
  rcases flushSection_cases dataDir metric io l.metric with
    ⟨_, he⟩ | ⟨first, _, ⟨_, dir, hdir, he⟩ | ⟨_, _, he⟩⟩
  · rw [he]
    exact ⟨h.named, h.made⟩
  · rw [he]
    exact ⟨fun name hr => h.named name (hdir.read hr), fun _ => hdir.present⟩
  · rw [he]
    refine ⟨fun name hr => ?_, fun _ => rfl⟩
    rw [filenames_moved, List.mem_append, List.mem_singleton]
    by_cases hn : name = flushName dataDir metric first
    · exact .inr hn
    · exact .inl (h.named name (by rwa [chunkRead_moved_ne hn] at hr))

theorem serving_registered {dataDir : Text} {guard : Guard V} {j : Journal V}
    (h : Serving dataDir guard j) {metric : Text} {m : MetricState V}
    (hm : hashFindStr metric j.store = some m) :
    ∃ flushed, Registered ⟨m, j.accepted metric, flushed⟩ := by
  refine (serving_invariant (fun _ => Registered) (fun _ _ => ?_) ?_ h metric).found hm
  · exact ⟨fun _ hr => absurd rfl hr, fun hne => absurd rfl hne⟩
  · intro metric io order l hl _
    cases order with
    | put point =>
      exact putLocked_invariant Registered (registered_put hl point)
        (fun _ => registered_put (registered_flush hl dataDir metric io) point)
    | flush => exact registered_flush hl dataDir metric io

end Tsdb.Loading
