import Tsdb.Disk
import Tsdb.Folds
import Tsdb.Server

namespace Tsdb.Reads

open CStrings Head Files Registry Query Aggregate Downsample Disk Server

variable {V : Type}

theorem mem_chunkPoints {dir : Dir V} {chunk : ChunkMetadata} {p : Point V}
    (hp : p ∈ chunkPoints dir chunk) :
    ∃ data, chunkRead dir chunk.filename = some data ∧ p ∈ data.points := by
  unfold chunkPoints at hp
  cases hr : chunkRead dir chunk.filename with
  | none =>
    rw [hr] at hp
    exact absurd hp List.not_mem_nil
  | some data =>
    rw [hr] at hp
    exact ⟨data, rfl, hp⟩

section Get

variable {fmt fmt' : V → Text} {start stop : Int}

theorem getValueLoop_congr {points : List (Point V)}
    (h : ∀ p ∈ points, fmt p.value = fmt' p.value) (range : TextBuffer) (offset size : Nat) :
    getValueLoop fmt start stop points range offset size =
      getValueLoop fmt' start stop points range offset size := by
  induction points generalizing range offset size with
  | nil => rfl
  | cons p points ih =>
    have hrow : headRow fmt p = headRow fmt' p := by
      rw [headRow, headRow, h p List.mem_cons_self]
    have ih := ih fun q hq => h q (List.mem_cons_of_mem _ hq)
    rw [getValueLoop, getValueLoop, hrow]
    simp only [ih]

theorem decompressLoop_congr {points : List (Point V)}
    (h : ∀ p ∈ points, fmt p.value = fmt' p.value) (chunkResult : TextBuffer)
    (currentLen count : Nat) :
    decompressLoop fmt start stop points chunkResult currentLen count =
      decompressLoop fmt' start stop points chunkResult currentLen count := by
  induction points generalizing chunkResult currentLen count with
  | nil => rfl
  | cons p points ih =>
    have hrow : row fmt p = row fmt' p := by
      rw [row, row, h p List.mem_cons_self]
    have ih := ih fun q hq => h q (List.mem_cons_of_mem _ hq)
    rw [decompressLoop, decompressLoop, hrow]
    simp only [ih]

theorem headGet_congr {metric : Text} {s : Store V} {m : MetricState V}
    (hm : hashFindStr metric s = some m) (h : ∀ p ∈ storedPoints m, fmt p.value = fmt' p.value) :
    headGet fmt start stop metric s = headGet fmt' start stop metric s := by
  have hdisk (chunk : ChunkMetadata) (hc : chunk ∈ m.entry.chunks) (answer : Answer) :
      getChunk fmt start stop m.dir answer chunk = getChunk fmt' start stop m.dir answer chunk := by
    unfold getChunk
    cases hr : chunkRead m.dir chunk.filename with
    | none => rfl
    | some data =>
      have hpoints : ∀ p ∈ data.points, fmt p.value = fmt' p.value := by
        intro p hp
        apply h p (List.mem_append_left _ (List.mem_flatMap.mpr ⟨chunk, hc, ?_⟩))
        rw [chunkPoints, hr]
        exact hp
      dsimp only
      rw [decompressChunk, decompressLoop_congr hpoints]
      rfl
  have hram : getValue fmt start stop m.entry.head = getValue fmt' start stop m.entry.head := by
    unfold getValue
    rw [getValueLoop_congr fun p hp => h p (List.mem_append_right _ hp)]
  rw [headGet, headGet, hm]
  dsimp only
  rw [getMetric, getMetric, hram,
    Folds.foldlM_congr fun answer chunk hc => hdisk chunk hc answer]

end Get

section Agg

variable {start stop : Int}

theorem mem_collectPoints {dir : Dir V} {name : Text} {points : List (Point V)}
    (h : collectPointsFromChunk start stop dir name = some points) {p : Point V}
    (hp : p ∈ points) : ∃ data, chunkRead dir name = some data ∧ p ∈ data.points := by
  obtain ⟨data, hread, rfl⟩ := Option.map_eq_some_iff.mp h
  exact ⟨data, hread, List.mem_of_mem_filter hp⟩

theorem mem_collectRaw {m : MetricState V} {points : List (Point V)}
    (h : collectRaw start stop m = some points) {p : Point V} (hp : p ∈ points) :
    ∃ chunk ∈ m.entry.chunks, p ∈ chunkPoints m.dir chunk := by
  have hall : ∀ (chunks : List ChunkMetadata) (sofar : List (Point V)),
      chunks.foldlM (fun points chunk =>
        (collectPointsFromChunk start stop m.dir chunk.filename).map (points ++ ·)) sofar =
          some points →
        p ∈ sofar ∨ ∃ chunk ∈ chunks, p ∈ chunkPoints m.dir chunk := by
    intro chunks
    induction chunks with
    | nil =>
      intro sofar hrun
      obtain rfl := Option.some.inj hrun
      exact .inl hp
    | cons chunk chunks ih =>
      intro sofar hrun
      rw [List.foldlM_cons] at hrun
      obtain ⟨next, hnext, hrun⟩ := Option.bind_eq_some_iff.mp hrun
      obtain ⟨own, hown, rfl⟩ := Option.map_eq_some_iff.mp hnext
      rcases ih _ hrun with hp | ⟨other, hother, hp⟩
      · refine (List.mem_append.mp hp).imp_right fun hp => ⟨chunk, List.mem_cons_self, ?_⟩
        obtain ⟨data, hread, hp⟩ := mem_collectPoints hown hp
        rw [chunkPoints, hread]
        exact hp
      · exact .inr ⟨other, List.mem_cons_of_mem _ hother, hp⟩
  rcases hall _ [] h with hp | ⟨chunk, hc, hp⟩
  · exact absurd hp List.not_mem_nil
  · exact ⟨chunk, List.mem_of_mem_filter hc, hp⟩

theorem mem_aggCollect {registryDir metric : Text} {bucketSeconds : Int} {s : Store V}
    {m : MetricState V} {points : List (Point V)}
    (h : aggCollect registryDir metric start stop bucketSeconds s m = some points) {p : Point V}
    (hp : p ∈ points) :
    (∃ name data, chunkRead (s.dirOf (downsampleCoarseDir metric)) name = some data ∧
        p ∈ data.points) ∨ p ∈ storedPoints m := by
  obtain ⟨disk, hdisk, rfl⟩ := Option.map_eq_some_iff.mp h
  rcases List.mem_append.mp hp with hp | hp
  · split at hdisk
    · obtain rfl := Option.some.inj hdisk
      obtain ⟨name, _, hp⟩ := List.mem_flatMap.mp hp
      cases hown : collectPointsFromChunk start stop (s.dirOf (downsampleCoarseDir metric)) name with
      | none =>
        rw [hown] at hp
        exact absurd hp List.not_mem_nil
      | some own =>
        rw [hown] at hp
        obtain ⟨data, hread, hp⟩ := mem_collectPoints hown hp
        exact .inl ⟨name, data, hread, hp⟩
    · obtain ⟨chunk, hc, hp⟩ := mem_collectRaw hdisk hp
      exact .inr (List.mem_append_left _ (List.mem_flatMap.mpr ⟨chunk, hc, hp⟩))
  · exact .inr (List.mem_append_right _ (List.mem_of_mem_filter hp))

end Agg

section Stats

def countLines (metric : Text) (m : MetricState V) : Text :=
  "metric: ".toList ++ metric ++ "\nin memory: ".toList ++ decimal m.entry.head.size ++
    "\ndisk chunks: ".toList ++ decimal m.entry.chunks.length ++ ['\n']

def overallFirst (m : MetricState V) : Int :=
  if (m.entry.chunks.head?.map ChunkMetadata.startTs).getD (-1) ≠ -1 then
    (m.entry.chunks.head?.map ChunkMetadata.startTs).getD (-1)
  else (m.entry.head.points.head?.map Point.ts).getD (-1)

def overallLast (m : MetricState V) : Int :=
  if (if 0 < m.entry.head.size then m.entry.head.lastTimestamp else -1) ≠ -1 then
    if 0 < m.entry.head.size then m.entry.head.lastTimestamp else -1
  else (m.entry.chunks.getLast?.map ChunkMetadata.endTs).getD (-1)

theorem headStats_eq {metric : Text} {s : Store V} {m : MetricState V}
    (hm : hashFindStr metric s = some m) :
    headStats metric s = countLines metric m ++
      (timestampLine "first".toList (overallFirst m) ++
        timestampLine "last".toList (overallLast m)) := by
  rw [headStats, hm]
  exact List.append_assoc (countLines metric m) _ _

theorem overallFirst_cases (m : MetricState V) :
    overallFirst m = -1 ∨ (∃ chunk ∈ m.entry.chunks, overallFirst m = chunk.startTs) ∨
      ∃ p ∈ m.entry.head.points, overallFirst m = p.ts := by
  unfold overallFirst
  split
  · cases hc : m.entry.chunks.head? with
    | none => exact .inl rfl
    | some chunk => exact .inr (.inl ⟨chunk, List.mem_of_mem_head? hc, rfl⟩)
  · cases hp : m.entry.head.points.head? with
    | none => exact .inl rfl
    | some p => exact .inr (.inr ⟨p, List.mem_of_mem_head? hp, rfl⟩)

theorem overallLast_cases (m : MetricState V) :
    overallLast m = -1 ∨ (∃ chunk ∈ m.entry.chunks, overallLast m = chunk.endTs) ∨
      (m.entry.head.points ≠ [] ∧ overallLast m = m.entry.head.lastTimestamp) := by
  unfold overallLast
  by_cases hsize : 0 < m.entry.head.size
  · rw [if_pos hsize]
    split
    · exact .inr (.inr ⟨List.ne_nil_of_length_pos hsize, rfl⟩)
    · cases hc : m.entry.chunks.getLast? with
      | none => exact .inl rfl
      | some chunk => exact .inr (.inl ⟨chunk, List.mem_of_mem_getLast? hc, rfl⟩)
  · rw [if_neg hsize, if_neg fun hne => hne rfl]
    cases hc : m.entry.chunks.getLast? with
    | none => exact .inl rfl
    | some chunk => exact .inr (.inl ⟨chunk, List.mem_of_mem_getLast? hc, rfl⟩)

end Stats

end Tsdb.Reads
