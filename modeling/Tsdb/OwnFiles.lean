import Tsdb.Sections

namespace Tsdb.OwnFiles

open CStrings Head Files Wal Registry Sections

variable {V : Type} {dataDir : Text}

structure SameFiles (dataDir metric : Text) (dir dir' : Dir V) : Prop where
  wal : dir.wal = dir'.wal
  read : ∀ ts, chunkRead dir (chunkName dataDir metric (chunkId ts)) =
    chunkRead dir' (chunkName dataDir metric (chunkId ts))

structure SameMetric (dataDir metric : Text) (m m' : MetricState V) : Prop where
  entry : m.entry = m'.entry
  files : SameFiles dataDir metric m.dir m'.dir

def Named (dataDir metric : Text) (entry : MetricRegistry V) : Prop :=
  ∀ chunk ∈ entry.chunks, ∃ ts, chunk.filename = chunkName dataDir metric (chunkId ts)

theorem SameFiles.refl (dataDir metric : Text) (dir : Dir V) : SameFiles dataDir metric dir dir :=
  ⟨rfl, fun _ => rfl⟩

theorem SameFiles.of_eq {metric : Text} {dir dir' : Dir V} (h : dir = dir') :
    SameFiles dataDir metric dir dir' := h ▸ .refl dataDir metric dir

theorem SameFiles.openWb {metric : Text} {dir dir' : Dir V} (h : SameFiles dataDir metric dir dir')
    (name : Text) : SameFiles dataDir metric (fopenWb dir name) (fopenWb dir' name) := by
  refine ⟨h.wal, fun ts => ?_⟩
  by_cases hname : chunkName dataDir metric (chunkId ts) = name
  · rw [hname]
    simp [chunkRead, fopenWb]
  · rw [chunkRead_open_ne _ hname, chunkRead_open_ne _ hname]
    exact h.read ts

theorem SameFiles.write {metric : Text} {dir dir' : Dir V} (h : SameFiles dataDir metric dir dir')
    (name : Text) (data : ChunkData V) :
    SameFiles dataDir metric (chunkWrite dir name data) (chunkWrite dir' name data) := by
  refine ⟨h.wal, fun ts => ?_⟩
  by_cases hname : chunkName dataDir metric (chunkId ts) = name
  · rw [hname, chunkRead_write_self, chunkRead_write_self]
  · rw [chunkRead_write_ne _ hname, chunkRead_write_ne _ hname]
    exact h.read ts

theorem chunkwrite_same {metric : Text} {dir dir' : Dir V} (h : SameFiles dataDir metric dir dir')
    (io : ChunkIO) (name : Text) (data : ChunkData V) :
    (chunkwrite io dir name data).1 = (chunkwrite io dir' name data).1 ∧
      SameFiles dataDir metric (chunkwrite io dir name data).2
        (chunkwrite io dir' name data).2 := by
  unfold chunkwrite
  by_cases hname : name = []
  · rw [if_pos hname, if_pos hname]
    exact ⟨rfl, h⟩
  · rw [if_neg hname, if_neg hname]
    cases io with
    | ok => exact ⟨rfl, (h.openWb name).write name data⟩
    | openFails => exact ⟨rfl, h⟩
    | writeFails => exact ⟨rfl, h.openWb name⟩
    | closeFails => exact ⟨rfl, h.openWb name⟩

theorem flushHead_same {metric : Text} {m m' : MetricState V}
    (h : SameMetric dataDir metric m m') (io : ChunkIO) :
    SameMetric dataDir metric (flushHead dataDir metric io m).2
      (flushHead dataDir metric io m').2 := by
  obtain ⟨entry, dir⟩ := m
  obtain ⟨entry', dir'⟩ := m'
  obtain ⟨hentry, hfiles⟩ := h
  cases hentry
  unfold flushHead
  cases hp : entry.head.points with
  | nil =>
    exact ⟨rfl, hfiles⟩
  | cons first rest =>
    dsimp only
    have hmkdir : SameFiles dataDir metric dir.mkdir dir'.mkdir := ⟨hfiles.wal, hfiles.read⟩
    obtain ⟨hres, hdir⟩ := chunkwrite_same hmkdir io
      (chunkName dataDir metric (chunkId first.ts))
      ⟨first.ts, ((first :: rest).getLast (by simp)).ts, first :: rest⟩
    generalize chunkwrite io dir.mkdir _ _ = out at hres hdir ⊢
    generalize chunkwrite io dir'.mkdir _ _ = out' at hres hdir ⊢
    obtain ⟨res, dir1⟩ := out
    obtain ⟨res', dir1'⟩ := out'
    cases hres
    cases res with
    | true => exact ⟨rfl, rfl, hdir.read⟩
    | false => exact ⟨rfl, hdir⟩

theorem putSection_same {metric : Text} {m m' : MetricState V}
    (h : SameMetric dataDir metric m m') (point : Point V) :
    (putSection point m).1 = (putSection point m').1 ∧
      SameMetric dataDir metric (putSection point m).2 (putSection point m').2 := by
  obtain ⟨entry, dir⟩ := m
  obtain ⟨entry', dir'⟩ := m'
  obtain ⟨hentry, hfiles⟩ := h
  cases hentry
  unfold putSection
  dsimp only
  generalize putValue entry.head point = out
  obtain ⟨res, head⟩ := out
  cases res with
  | true =>
    refine ⟨rfl, rfl, ?_, hfiles.read⟩
    have hwal : dir.wal = dir'.wal := hfiles.wal
    simp only [walAppend]
    rw [hwal]
  | false => exact ⟨rfl, rfl, hfiles⟩

theorem putHead_same {metric : Text} {m m' : MetricState V}
    (h : SameMetric dataDir metric m m') (io : ChunkIO) (point : Point V) :
    SameMetric dataDir metric (putHead dataDir metric io point m).2
      (putHead dataDir metric io point m').2 := by
  rw [putHead_eq, putHead_eq, ← h.entry]
  by_cases hfull : headCapacity ≤ m.entry.head.size
  · rw [if_pos hfull, if_pos hfull]
    exact (putSection_same (flushHead_same h io) point).2
  · rw [if_neg hfull, if_neg hfull]
    exact (putSection_same h point).2

theorem SameMetric.chunkFile {metric : Text} {m m' : MetricState V}
    (h : SameMetric dataDir metric m m') (hnamed : Named dataDir metric m.entry)
    {chunk : ChunkMetadata} (hc : chunk ∈ m.entry.chunks) :
    chunkRead m.dir chunk.filename = chunkRead m'.dir chunk.filename := by
  obtain ⟨ts, hname⟩ := hnamed chunk hc
  rw [hname]
  exact h.files.read ts

theorem named_put {metric : Text} {m : MetricState V} (h : Named dataDir metric m.entry)
    (point : Point V) : Named dataDir metric (putSection point m).2.entry := by
  rcases putSection_cases point m with ⟨_, he⟩ | ⟨_, he⟩
  · rw [he]
    exact h
  · rw [he]
    exact h

theorem named_flush {metric : Text} {m : MetricState V} (h : Named dataDir metric m.entry)
    (io : ChunkIO) : Named dataDir metric (flushHead dataDir metric io m).2.entry := by
  unfold flushHead
  split
  · exact h
  · rename_i first rest _
    dsimp only
    generalize chunkwrite io m.dir.mkdir _ _ = out
    obtain ⟨res, dir⟩ := out
    cases res with
    | false => exact h
    | true =>
      intro chunk hc
      rcases List.mem_append.mp hc with hc | hc
      · exact h chunk hc
      · rw [List.mem_singleton.mp hc]
        exact ⟨first.ts, rfl⟩

theorem named_putHead {metric : Text} {m : MetricState V} (h : Named dataDir metric m.entry)
    (io : ChunkIO) (point : Point V) :
    Named dataDir metric (putHead dataDir metric io point m).2.entry := by
  rw [putHead_eq]
  by_cases hfull : headCapacity ≤ m.entry.head.size
  · rw [if_pos hfull]
    exact named_put (named_flush h io) point
  · rw [if_neg hfull]
    exact named_put h point

end Tsdb.OwnFiles
