import Tsdb.Service

namespace Tsdb.Disk

open CStrings Head Files Wal Registry Sections History Service

variable {V : Type}

def chunkPoints (dir : Dir V) (chunk : ChunkMetadata) : List (Point V) :=
  ((chunkRead dir chunk.filename).map ChunkData.points).getD []

def storedPoints (m : MetricState V) : List (Point V) :=
  m.entry.chunks.flatMap (chunkPoints m.dir) ++ m.entry.head.points

def filenames (m : MetricState V) : List Text := m.entry.chunks.map ChunkMetadata.filename

def Order.flushes (m : MetricState V) : Order V → Prop
  | .put _ => headCapacity ≤ m.entry.head.size
  | .flush => True

instance (m : MetricState V) : ∀ order : Order V, Decidable (Order.flushes m order)
  | .put _ => inferInstanceAs (Decidable (headCapacity ≤ m.entry.head.size))
  | .flush => .isTrue trivial

/-- Chunk files are distinct: the request opens no file of an existing entry for writing. -/
def opensFresh (dataDir : Text) : Guard V := fun metric _ order m =>
  Order.flushes m order →
    ∀ first ∈ m.entry.head.points.head?, flushName dataDir metric first ∉ filenames m

instance (dataDir metric : Text) (io : FlushIO) (order : Order V) (m : MetricState V) :
    Decidable (opensFresh dataDir metric io order m) :=
  inferInstanceAs (Decidable (Order.flushes m order →
    ∀ first ∈ m.entry.head.points.head?, flushName dataDir metric first ∉ filenames m))

/-- Every entry has a file of its own, named after its start, that holds what was flushed. -/
structure OnDisk (dataDir metric : Text) (l : Ledger V) : Prop where
  conserved : Conserved l
  distinct : (filenames l.metric).Nodup
  named : ∀ chunk ∈ l.metric.entry.chunks,
    chunk.filename = chunkName dataDir metric (chunkId chunk.startTs)
  readable : List.Forall₂ (fun chunk points =>
    chunkRead l.metric.dir chunk.filename = some ⟨chunk.startTs, chunk.endTs, points⟩)
    l.metric.entry.chunks l.flushed

theorem onDisk_new (dataDir metric : Text) (unset : Int) :
    OnDisk dataDir metric (Ledger.new unset : Ledger V) :=
  ⟨conserved_new unset, .nil, fun _ h => absurd h List.not_mem_nil, .nil⟩

theorem onDisk_put {dataDir metric : Text} {l : Ledger V} (h : OnDisk dataDir metric l)
    (point : Point V) : OnDisk dataDir metric (l.put point).2 := by
  have hc := conserved_put h.conserved point
  unfold Ledger.put at hc ⊢
  rcases putSection_cases point l.metric with ⟨_, he⟩ | ⟨_, he⟩
  · rw [he] at hc ⊢
    exact ⟨hc, h.distinct, h.named, h.readable⟩
  · rw [he] at hc ⊢
    exact h

theorem Readable.frame {chunks : List ChunkMetadata} {flushed : List (List (Point V))}
    {dir dir' : Dir V} (h : List.Forall₂ (fun (chunk : ChunkMetadata) points =>
      chunkRead dir chunk.filename = some ⟨chunk.startTs, chunk.endTs, points⟩) chunks flushed)
    (hframe : ∀ chunk ∈ chunks, chunkRead dir' chunk.filename = chunkRead dir chunk.filename) :
    List.Forall₂ (fun (chunk : ChunkMetadata) points =>
      chunkRead dir' chunk.filename = some ⟨chunk.startTs, chunk.endTs, points⟩) chunks flushed := by
  induction h with
  | nil => exact .nil
  | cons hr _ ih =>
    refine .cons ((hframe _ (by simp)).trans hr) (ih fun chunk hc => hframe chunk ?_)
    exact List.mem_cons_of_mem _ hc

theorem chunkRead_moved_ne {name other : Text} (h : other ≠ name) (first : Point V)
    (s : MetricState V) : chunkRead (moved name first s).dir other = chunkRead s.dir other :=
  (chunkRead_write_ne _ h _).trans (chunkRead_open_ne s.dir.mkdir h)

theorem getLastD_ts {head : HeadBlock V} (h : Ordered head) {first : Point V}
    (hf : first ∈ head.points.head?) : (head.points.getLastD first).ts = head.lastTimestamp := by
  cases hl : head.points.getLast? with
  | none => simp [List.getLast?_eq_none_iff.mp hl] at hf
  | some p =>
    rw [List.getLastD_eq_getLast?, hl, h.newest p hl]
    rfl

theorem filenames_moved (name : Text) (first : Point V) (s : MetricState V) :
    filenames (moved name first s) = filenames s ++ [name] := by
  simp [filenames, moved, addChunk]

theorem nodup_concat {α : Type} {xs : List α} {x : α} (h : xs.Nodup) (hx : x ∉ xs) :
    (xs ++ [x]).Nodup :=
  List.nodup_append.mpr ⟨h, by simp, fun a ha b hb => by
    rw [List.mem_singleton.mp hb]
    rintro rfl
    exact hx ha⟩

theorem onDisk_flush {dataDir metric : Text} {l : Ledger V} (h : OnDisk dataDir metric l)
    (io : FlushIO) (hfresh : ∀ first ∈ l.metric.entry.head.points.head?,
      flushName dataDir metric first ∉ filenames l.metric) :
    OnDisk dataDir metric (l.flush dataDir metric io).2 := by
  have hc := conserved_flush h.conserved dataDir metric io
  have hother {name : Text} (hname : name ∉ filenames l.metric) {chunk : ChunkMetadata}
      (hmem : chunk ∈ l.metric.entry.chunks) : chunk.filename ≠ name := by
    rintro rfl
    exact hname (List.mem_map_of_mem hmem)
  unfold Ledger.flush at hc ⊢
  rcases flushSection_cases dataDir metric io l.metric with
    ⟨hnil, he⟩ | ⟨first, hf, ⟨_, dir, hdir, he⟩ | ⟨_, _, he⟩⟩
  · simp only [he, hnil, ne_eq, not_true, and_false, if_false] at hc ⊢
    exact h
  · rw [he] at hc ⊢
    exact ⟨hc, h.distinct, h.named, Readable.frame h.readable fun chunk hmem =>
      hdir.frame (hother (hfresh first hf) hmem)⟩
  · have hname := hfresh first hf
    have hne : l.metric.entry.head.points ≠ [] := by
      rintro hnil
      simp [hnil] at hf
    simp only [he, ne_eq, hne, not_false_eq_true, and_self, if_true] at hc ⊢
    refine ⟨hc, ?_, fun chunk hmem => ?_, ?_⟩
    · rw [filenames_moved]
      exact nodup_concat h.distinct hname
    · rcases List.mem_append.mp hmem with hmem | hmem
      · exact h.named chunk hmem
      · rw [List.mem_singleton.mp hmem]
        rfl
    · refine List.rel_append (Readable.frame h.readable fun chunk hmem => ?_) (.cons ?_ .nil)
      · exact chunkRead_moved_ne (hother hname hmem) first l.metric
      · exact (chunkRead_write_self _ _ _).trans (by rw [getLastD_ts h.conserved.ordered hf])

theorem onDisk_order {l : Ledger V} {dataDir metric : Text} (h : OnDisk dataDir metric l)
    {io : FlushIO} {order : Order V} (hguard : opensFresh dataDir metric io order l.metric) :
    OnDisk dataDir metric (order.run dataDir metric io l).2 := by
  cases order with
  | put point =>
    exact putLocked_invariant (OnDisk dataDir metric) (onDisk_put h point)
      (fun hfull => onDisk_put (onDisk_flush h io (hguard hfull)) point)
  | flush => exact onDisk_flush h io (hguard trivial)

theorem serving_onDisk {dataDir : Text} {j : Journal V}
    (h : Serving dataDir (opensFresh dataDir) j) {metric : Text} {m : MetricState V}
    (hm : hashFindStr metric j.store = some m) :
    ∃ flushed, OnDisk dataDir metric ⟨m, j.accepted metric, flushed⟩ :=
  (serving_invariant (OnDisk dataDir) (onDisk_new dataDir)
    (fun _ _ _ _ hl hguard => onDisk_order hl hguard) h metric).found hm

theorem Readable.points {chunks : List ChunkMetadata} {flushed : List (List (Point V))}
    {dir : Dir V} (h : List.Forall₂ (fun (chunk : ChunkMetadata) points =>
      chunkRead dir chunk.filename = some ⟨chunk.startTs, chunk.endTs, points⟩) chunks flushed) :
    chunks.map (chunkPoints dir) = flushed := by
  induction h with
  | nil => rfl
  | cons hr _ ih => simp [chunkPoints, hr, ih]

theorem OnDisk.stored {dataDir metric : Text} {l : Ledger V} (h : OnDisk dataDir metric l) :
    storedPoints l.metric = l.accepted := by
  rw [storedPoints, List.flatMap_def, Readable.points h.readable, h.conserved.conserved]

theorem OnDisk.reads_chunk {dataDir metric : Text} {l : Ledger V} (h : OnDisk dataDir metric l)
    {chunk : ChunkMetadata} (hc : chunk ∈ l.metric.entry.chunks) :
    chunkRead l.metric.dir chunk.filename =
        some ⟨chunk.startTs, chunk.endTs, chunkPoints l.metric.dir chunk⟩ ∧
      Describes chunk (chunkPoints l.metric.dir chunk) := by
  obtain ⟨i, hi, rfl⟩ := List.mem_iff_getElem.mp hc
  have hlen := h.readable.length_eq
  have hread := h.readable.get hi (by omega)
  have hdesc := h.conserved.described.get hi (by omega)
  rw [List.get_eq_getElem, List.get_eq_getElem] at hread hdesc
  have hpoints : chunkPoints l.metric.dir l.metric.entry.chunks[i] =
      l.flushed.get ⟨i, by omega⟩ := by
    rw [chunkPoints, hread]
    rfl
  rw [hpoints]
  exact ⟨hread, hdesc⟩

end Tsdb.Disk
