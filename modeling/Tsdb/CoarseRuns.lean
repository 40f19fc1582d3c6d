import Tsdb.CoarseFiles

namespace Tsdb.CoarseRuns

open CStrings Head Files Wal Registry Sections History Service Disk Downsample Minutes CoarseDirs
  CoarseFiles Runs

variable {V : Type} [Zero V] [Add V] [Div V] [NatCast V]

theorem downsampleChunk_cases {dir coarseDir : Dir V} {chunk : ChunkMetadata}
    {points : List (Point V)}
    (hread : chunkRead dir chunk.filename = some ⟨chunk.startTs, chunk.endTs, points⟩)
    (hdesc : Describes chunk points) (cutoff : Int) {io : FlushIO}
    (hio : chunk.endTs < cutoff → chunkId chunk.startTs ∉ coarseDir.done → io = .ok)
    (metric : Text) :
    ((cutoff ≤ chunk.endTs ∨ chunkId chunk.startTs ∈ coarseDir.done) ∧
        downsampleChunk cutoff io metric dir coarseDir chunk = coarseDir) ∨
      (chunk.endTs < cutoff ∧ chunkId chunk.startTs ∉ coarseDir.done ∧ ∃ data : ChunkData V,
        data.points = coarsePoints points ∧
        downsampleChunk cutoff io metric dir coarseDir chunk =
          coarsened metric chunk data coarseDir) := by
  unfold downsampleChunk
  by_cases hold : cutoff ≤ chunk.endTs
  · rw [if_pos hold]
    exact .inl ⟨.inl hold, rfl⟩
  by_cases hid : chunkId chunk.startTs ∈ coarseDir.done
  · rw [if_neg hold, if_pos hid]
    exact .inl ⟨.inr hid, rfl⟩
  obtain ⟨first, rest, rfl, hfirst⟩ := hdesc.first
  obtain ⟨p, hp, hts⟩ := coarsePoints_head hdesc.sorted
  obtain ⟨last, hlast⟩ : ∃ last, (coarsePoints (first :: rest)).getLast? = some last := by
    refine Option.ne_none_iff_exists'.mp fun hnone => ?_
    rw [List.getLast?_eq_none_iff.mp hnone] at hp
    cases hp
  have hne : coarseFile metric chunk ≠ [] := by simp [coarseFile, coarseName]
  refine .inr ⟨not_le.mp hold, hid, ⟨p.ts, last.ts, coarsePoints (first :: rest)⟩, rfl, ?_⟩
  have hfile : coarseName metric (chunkId p.ts) = coarseFile metric chunk := by
    rw [coarseFile, coarseId, hts, hfirst]
  rw [if_neg hold, if_neg hid, hread, hio (not_le.mp hold) hid]
  simp only [List.cons_ne_nil, if_false, writeCoarseChunk, Option.mem_def.mp hp, hlast, hfile,
    flushToChunk, chunkwrite, hne]
  rfl

inductive Event (V : Type) where
  | request (env : Env) (metric : Text) (order : Order V)
  | round (now : Int) (io : FlushIO) (metric : Text) (i : Nat)

def Event.run (dataDir : Text) (j : Journal V) : Event V → Option (Journal V)
  | .request env metric order => (serve dataDir env metric j order).map Prod.snd
  | .round now io metric i => some ⟨downsampleRound now io metric i j.store, j.accepted⟩

/-- No flush opens a file that an entry names; a round that writes a coarse file succeeds and
takes no other chunk's file. -/
def Admits (dataDir : Text) (j : Journal V) : Event V → Prop
  | .request env metric order => ∀ m ∈ getMetricFromHashTable env.unset metric order.isPut j.store,
    opensFresh dataDir metric env.io order m
  | .round now io metric i => ∀ m ∈ hashFindStr metric j.store, ∀ chunk ∈ m.entry.chunks[i]?,
    chunk.endTs < now - downsampleAfterSeconds →
    chunkId chunk.startTs ∉ (j.store.dirOf (downsampleCoarseDir metric)).done →
      io = .ok ∧ CoarseFresh m (j.store.dirOf (downsampleCoarseDir metric)) chunk

def Running (dataDir : Text) : Journal V → Prop :=
  Reach (fun j => j = Journal.empty) (Guarded (Admits dataDir) (Event.run dataDir))

structure Sound (dataDir : Text) (j : Journal V) (metric : Text) : Prop where
  found : ∀ m, hashFindStr metric j.store = some m →
    (∃ flushed, OnDisk dataDir metric ⟨m, j.accepted metric, flushed⟩) ∧
      CoarseOk metric m (j.store.dirOf (downsampleCoarseDir metric))
  absent : hashFindStr metric j.store = none → (j.store.dirOf metric).wal = none ∧
    j.accepted metric = [] ∧ (j.store.dirOf (downsampleCoarseDir metric)).done = []

theorem sound_empty (dataDir metric : Text) : Sound dataDir (Journal.empty : Journal V) metric :=
  ⟨fun _ h => absurd h (by simp [Journal.empty, Store.empty, hashFindStr]), fun _ => ⟨rfl, rfl, rfl⟩⟩

omit [Zero V] [Add V] [Div V] [NatCast V] in
theorem onDisk_fresh (dataDir metric : Text) (unset : Int) {dir : Dir V} (hwal : dir.wal = none) :
    OnDisk dataDir metric ⟨⟨⟨getNewHeadBlock unset, [], 4⟩, dir⟩, [], []⟩ :=
  ⟨⟨ordered_new unset, rfl, .nil, by rw [hwal]; rfl⟩, .nil, fun _ h => absurd h List.not_mem_nil, .nil⟩

theorem Sound.get {dataDir : Text} {j : Journal V} {metric : Text} (h : Sound dataDir j metric)
    {unset : Int} {flag : Bool} {m : MetricState V}
    (hm : m ∈ getMetricFromHashTable unset metric flag j.store) :
    m.dir = j.store.dirOf metric ∧
      (∃ flushed, OnDisk dataDir metric ⟨m, j.accepted metric, flushed⟩) ∧
      CoarseOk metric m (j.store.dirOf (downsampleCoarseDir metric)) := by
  obtain hf | ⟨hf, -, rfl⟩ := getMetric_cases hm
  · exact ⟨find_dir hf, h.found _ hf⟩
  · obtain ⟨hwal, hacc, hdone⟩ := h.absent hf
    refine ⟨rfl, ⟨[], ?_⟩, ?_⟩
    · rw [hacc]
      exact onDisk_fresh dataDir metric unset hwal
    · exact ⟨by simp [hdone], by simp, by simp⟩

structure Requested (dataDir n : Text) (j j' : Journal V) (m m' : MetricState V) : Prop where
  store : j'.store = j.store.set n m'
  others : ∀ k, k ≠ n → j'.accepted k = j.accepted k
  dir : m.dir = j.store.dirOf n
  old : hashFindStr n j.store = some m ∨ hashFindStr n j.store = none
  coarse : CoarseOk n m (j.store.dirOf (downsampleCoarseDir n))
  onDisk : ∃ flushed, OnDisk dataDir n ⟨m', j'.accepted n, flushed⟩
  grows : Grows dataDir n m m'

theorem request_step {dataDir n : Text} {env : Env} {order : Order V} {j j' : Journal V}
    (hsound : ∀ k, Sound dataDir j k) (hadmits : Admits dataDir j (.request env n order))
    (hrun : (Event.request env n order).run dataDir j = some j') :
    ∃ m m', Requested dataDir n j j' m m' := by
  obtain ⟨⟨res, j'⟩, hserve, rfl⟩ := Option.map_eq_some_iff.mp hrun
  obtain ⟨m, hm, _⟩ := serve_ledger hserve []
  obtain ⟨hdir, ⟨flushed, hd⟩, hcoarse⟩ := (hsound n).get hm
  obtain ⟨m', hm', _, hstore, hacc⟩ := serve_ledger hserve flushed
  obtain rfl := Option.mem_unique hm hm'
  have hguard := hadmits m hm
  have hgrows := @grows_order V dataDir n env.io order ⟨m, j.accepted n, flushed⟩ hguard
  refine ⟨m, _, hstore, fun k hk => ?_, hdir, ?_, hcoarse, ?_, hgrows⟩
  · rw [hacc, Function.update_of_ne hk]
  · exact (getMetric_cases hm).imp_right And.left
  · rw [hacc, Function.update_self]
    exact ⟨_, onDisk_order hd hguard⟩

/-- What a round does, seen from its metric `n`: its coarse directory becomes `dir`. -/
structure Rounded (n : Text) (j j' : Journal V) (m : MetricState V) (dir : Dir V) : Prop where
  store : j'.store = j.store.setDir (downsampleCoarseDir n) dir
  accepted : j'.accepted = j.accepted
  find : hashFindStr n j.store = some m
  wrote : dir = j.store.dirOf (downsampleCoarseDir n) ∨ ∃ chunk ∈ m.entry.chunks, ∃ data,
    CoarseFresh m (j.store.dirOf (downsampleCoarseDir n)) chunk ∧
    data.points = coarsePoints (chunkPoints m.dir chunk) ∧
    dir = coarsened n chunk data (j.store.dirOf (downsampleCoarseDir n))

theorem round_step {dataDir n : Text} {now : Int} {io : FlushIO} {i : Nat} {j j' : Journal V}
    (hsound : ∀ k, Sound dataDir j k) (hadmits : Admits dataDir j (.round now io n i))
    (hrun : (Event.round now io n i : Event V).run dataDir j = some j') :
    j' = j ∨ ∃ m dir, Rounded n j j' m dir := by
  obtain rfl := Option.some.inj hrun
  unfold downsampleRound
  cases hf : hashFindStr n j.store with
  | none => exact .inl rfl
  | some m =>
    cases hi : m.entry.chunks[i]? with
    | none =>
      left
      simp only [hi]
    | some chunk =>
      have hc := List.mem_of_getElem? hi
      obtain ⟨⟨flushed, hd⟩, _⟩ := (hsound n).found m hf
      obtain ⟨hread, hdesc⟩ := OnDisk.reads_chunk hd hc
      right
      refine ⟨m, downsampleChunk (now - downsampleAfterSeconds) io n m.dir
        (j.store.dirOf (downsampleCoarseDir n)) chunk, by simp only [hi], rfl, hf, ?_⟩
      rcases downsampleChunk_cases hread hdesc (now - downsampleAfterSeconds)
        (fun hold hid => (hadmits m hf chunk hi hold hid).1) n with
        ⟨_, he⟩ | ⟨hold, hid, data, hdata, he⟩
      · exact .inl he
      · exact .inr ⟨chunk, hc, data, (hadmits m hf chunk hi hold hid).2, hdata, he⟩

end Tsdb.CoarseRuns
