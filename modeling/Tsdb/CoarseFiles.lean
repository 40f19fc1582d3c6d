import Tsdb.CoarseDirs
import Tsdb.Minutes

namespace Tsdb.CoarseFiles

open CStrings Head Files Wal Registry Sections History Service Disk Downsample Minutes CoarseDirs

variable {V : Type} [Zero V] [Add V] [Div V] [NatCast V]

theorem coarseName_injective {metric : Text} {a b : Nat}
    (h : coarseName metric a = coarseName metric b) : a = b := by
  rw [coarseName, coarseName, List.append_cancel_left_eq, List.cons_inj_right,
    List.append_cancel_right_eq] at h
  exact decimal_injective h

/-- The coarse directory of a metric: every marked chunk has its coarse file. -/
structure CoarseOk (metric : Text) (m : MetricState V) (coarseDir : Dir V) : Prop where
  marked : ∀ id ∈ coarseDir.done, ∃ chunk ∈ m.entry.chunks, chunkId chunk.startTs = id
  covered : ∀ chunk ∈ m.entry.chunks, chunkId chunk.startTs ∈ coarseDir.done →
    ∃ data, chunkRead coarseDir (coarseFile metric chunk) = some data ∧
      data.points = coarsePoints (chunkPoints m.dir chunk)
  apart : ∀ chunk ∈ m.entry.chunks, chunkId chunk.startTs ∈ coarseDir.done →
    ∀ other ∈ m.entry.chunks, chunkId other.startTs ∈ coarseDir.done →
    coarseId chunk = coarseId other → chunk = other

omit [Zero V] [Add V] [Div V] [NatCast V] in
theorem chunkId_unique {dataDir metric : Text} {m : MetricState V}
    (hdistinct : (filenames m).Nodup) (hnamed : ∀ chunk ∈ m.entry.chunks,
      chunk.filename = chunkName dataDir metric (chunkId chunk.startTs))
    {chunk other : ChunkMetadata} (hc : chunk ∈ m.entry.chunks) (ho : other ∈ m.entry.chunks)
    (hid : chunkId chunk.startTs = chunkId other.startTs) : chunk = other :=
  List.inj_on_of_nodup_map hdistinct hc ho (by rw [hnamed chunk hc, hnamed other ho, hid])

theorem CoarseOk.frame {metric : Text} {m : MetricState V} {coarseDir coarseDir' : Dir V}
    (h : CoarseOk metric m coarseDir) (hdone : coarseDir'.done = coarseDir.done)
    (hread : ∀ id, chunkRead coarseDir' (coarseName metric id) =
      chunkRead coarseDir (coarseName metric id)) : CoarseOk metric m coarseDir' := by
  refine ⟨?_, fun chunk hc hid => ?_, ?_⟩
  · rw [hdone]
    exact h.marked
  · rw [coarseFile, hread]
    exact h.covered chunk hc (hdone ▸ hid)
  · rw [hdone]
    exact h.apart

theorem CoarseOk.dir {metric : Text} {m : MetricState V} {coarseDir dir : Dir V}
    (h : CoarseOk metric m coarseDir) (hread : ∀ chunk ∈ m.entry.chunks,
      chunkRead dir chunk.filename = chunkRead m.dir chunk.filename) :
    CoarseOk metric ⟨m.entry, dir⟩ coarseDir := by
  refine ⟨h.marked, fun chunk hc hid => ?_, h.apart⟩
  rw [chunkPoints, hread chunk hc]
  exact h.covered chunk hc hid

/-- Requests add chunks that are not marked: a marker belongs to an entry of the same id, and
that entry has the file name a new one would need. -/
theorem CoarseOk.grow {dataDir metric : Text} {m m' : MetricState V} {coarseDir : Dir V}
    (h : CoarseOk metric m coarseDir) (hgrow : Grows dataDir metric m m')
    (hdistinct : (filenames m').Nodup) (hnamed : ∀ chunk ∈ m'.entry.chunks,
      chunk.filename = chunkName dataDir metric (chunkId chunk.startTs)) :
    CoarseOk metric m' coarseDir := by
  have hsubset := hgrow.chunks.subset
  have hold : ∀ chunk ∈ m'.entry.chunks, chunkId chunk.startTs ∈ coarseDir.done →
      chunk ∈ m.entry.chunks := by
    intro chunk hc hid
    obtain ⟨other, ho, heq⟩ := h.marked _ hid
    rw [← chunkId_unique hdistinct hnamed (hsubset ho) hc heq]
    exact ho
  refine ⟨fun id hid => ?_, fun chunk hc hid => ?_, fun chunk hc hid other ho hoid => ?_⟩
  · obtain ⟨chunk, hc, hid⟩ := h.marked id hid
    exact ⟨chunk, hsubset hc, hid⟩
  · rw [chunkPoints, hgrow.kept chunk (hold chunk hc hid)]
    exact h.covered chunk (hold chunk hc hid) hid
  · exact h.apart chunk (hold chunk hc hid) hid other (hold other ho hoid) hoid

def coarsened (metric : Text) (chunk : ChunkMetadata) (data : ChunkData V) (coarseDir : Dir V) :
    Dir V :=
  createMarker (chunkWrite (fopenWb coarseDir.mkdir (coarseFile metric chunk))
    (coarseFile metric chunk) data) (chunkId chunk.startTs)

omit [Zero V] [Add V] [Div V] [NatCast V] in
theorem chunkRead_coarsened (metric : Text) (chunk : ChunkMetadata) (data : ChunkData V)
    (coarseDir : Dir V) :
    chunkRead (coarsened metric chunk data coarseDir) (coarseFile metric chunk) = some data :=
  chunkRead_write_self _ _ _

omit [Zero V] [Add V] [Div V] [NatCast V] in
theorem chunkRead_coarsened_ne {metric name : Text} {chunk : ChunkMetadata}
    (h : name ≠ coarseFile metric chunk) (data : ChunkData V) (coarseDir : Dir V) :
    chunkRead (coarsened metric chunk data coarseDir) name = chunkRead coarseDir name :=
  (chunkRead_write_ne _ h data).trans (chunkRead_open_ne coarseDir.mkdir h)

def CoarseFresh (m : MetricState V) (coarseDir : Dir V) (chunk : ChunkMetadata) : Prop :=
  ∀ other ∈ m.entry.chunks, chunkId other.startTs ∈ coarseDir.done →
    coarseId other ≠ coarseId chunk

instance (m : MetricState V) (coarseDir : Dir V) (chunk : ChunkMetadata) :
    Decidable (CoarseFresh m coarseDir chunk) :=
  inferInstanceAs (Decidable (∀ other ∈ m.entry.chunks,
    chunkId other.startTs ∈ coarseDir.done → coarseId other ≠ coarseId chunk))

theorem CoarseOk.round {dataDir metric : Text} {m : MetricState V} {coarseDir : Dir V}
    (h : CoarseOk metric m coarseDir) (hdistinct : (filenames m).Nodup)
    (hnamed : ∀ chunk ∈ m.entry.chunks,
      chunk.filename = chunkName dataDir metric (chunkId chunk.startTs))
    {chunk : ChunkMetadata} (hc : chunk ∈ m.entry.chunks) (hfresh : CoarseFresh m coarseDir chunk)
    {data : ChunkData V} (hdata : data.points = coarsePoints (chunkPoints m.dir chunk)) :
    CoarseOk metric m (coarsened metric chunk data coarseDir) := by
  have hdone {id : Nat} (hid : id ∈ (coarsened metric chunk data coarseDir).done) :
      id = chunkId chunk.startTs ∨ id ∈ coarseDir.done := List.mem_cons.mp hid
  have hsame {other : ChunkMetadata} (ho : other ∈ m.entry.chunks)
      (hid : chunkId other.startTs ∈ (coarsened metric chunk data coarseDir).done) :
      other = chunk ∨ chunkId other.startTs ∈ coarseDir.done :=
    (hdone hid).imp_left (chunkId_unique hdistinct hnamed ho hc)
  refine ⟨fun id hid => ?_, fun other ho hid => ?_, fun a ha haid b hb hbid hab => ?_⟩
  · rcases hdone hid with rfl | hid
    · exact ⟨chunk, hc, rfl⟩
    · exact h.marked id hid
  · rcases hsame ho hid with rfl | hid
    · exact ⟨data, chunkRead_coarsened metric other data coarseDir, hdata⟩
    · have hne : coarseFile metric other ≠ coarseFile metric chunk :=
        fun heq => hfresh other ho hid (coarseName_injective heq)
      rw [chunkRead_coarsened_ne hne]
      exact h.covered other ho hid
  · rcases hsame ha haid with hac | had <;> rcases hsame hb hbid with hbc | hbd
    · exact hac.trans hbc.symm
    · exact absurd (hab.symm.trans (congrArg coarseId hac)) (hfresh b hb hbd)
    · exact absurd (hab.trans (congrArg coarseId hbc)) (hfresh a ha had)
    · exact h.apart a ha had b hb hbd hab

end Tsdb.CoarseFiles
