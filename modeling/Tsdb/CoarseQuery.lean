import Tsdb.Buckets
import Tsdb.CoarseSound
import Tsdb.CoarseSteps

namespace Tsdb.CoarseQuery

open CStrings Head Files Registry Query Sections History Service Disk Aggregate Downsample Minutes
  Buckets CoarseDirs CoarseFiles CoarseSteps CoarseSound Runs

variable {V : Type}

theorem mem_collectCoarse {start stop : Int} {coarseDir : Dir V} {name : Text} {data : ChunkData V}
    (hname : ".chunk".toList <:+: name) (hread : chunkRead coarseDir name = some data) {p : Point V}
    (hp : p ∈ data.points) (hin : InRange start stop p) :
    p ∈ collectCoarse start stop coarseDir := by
  refine List.mem_flatMap.mpr
    ⟨name, List.mem_filter.mpr ⟨chunkRead_key hread, decide_eq_true hname⟩, ?_⟩
  rw [collectPointsFromChunk, hread]
  exact List.mem_filter.mpr ⟨hp, decide_eq_true hin⟩

theorem Divides.group {start : Int} {points : List (Point V)} {minutes : List (Minute V)}
    (h : Divides start points minutes) {x : Minute V} (hx : x ∈ minutes) :
    points.filter (fun q => stamp start q = x.1) = x.2 := by
  have hother : ∀ y ∈ minutes, y.1 ≠ x.1 → y.2.filter (fun q => stamp start q = x.1) = [] := by
    intro y hy hne
    refine List.filter_eq_nil_iff.mpr fun q hq => ?_
    rw [h.stamped y hy q hq, decide_eq_true_iff]
    exact hne
  have hself : x.2.filter (fun q => stamp start q = x.1) = x.2 :=
    List.filter_eq_self.mpr fun q hq => decide_eq_true (h.stamped x hx q hq)
  obtain ⟨before, after, rfl⟩ := List.append_of_mem hx
  have hinc := List.pairwise_append.mp h.increasing
  rw [← h.flatten, List.filter_flatMap, List.flatMap_append, List.flatMap_cons, hself,
    List.flatMap_eq_nil_iff.mpr fun y hy => ?_, List.flatMap_eq_nil_iff.mpr fun y hy => ?_,
    List.nil_append, List.append_nil]
  · exact hother y (by simp [hy]) (List.rel_of_pairwise_cons hinc.2.1 hy).ne'
  · exact hother y (by simp [hy]) (hinc.2.2 y hy x (by simp)).ne

theorem collectRaw_eq {m : MetricState V} (hreads : ∀ chunk ∈ m.entry.chunks,
      chunkRead m.dir chunk.filename =
          some ⟨chunk.startTs, chunk.endTs, chunkPoints m.dir chunk⟩ ∧
        Describes chunk (chunkPoints m.dir chunk)) (start stop : Int) :
    collectRaw start stop m = some ((m.entry.chunks.flatMap (chunkPoints m.dir)).filter
      fun p => InRange start stop p) := by
  have hskip (chunk : ChunkMetadata) (hc : chunk ∈ m.entry.chunks)
      (hout : ¬ (chunk.startTs < stop ∧ start ≤ chunk.endTs)) :
      (chunkPoints m.dir chunk).filter (fun p => InRange start stop p) = [] := by
    have hdesc := (hreads chunk hc).2
    refine List.filter_eq_nil_iff.mpr fun p hp => ?_
    have hlow := hdesc.least.2 ⟨p, hp, rfl⟩
    have hhigh := hdesc.greatest.2 ⟨p, hp, rfl⟩
    rw [decide_eq_true_iff]
    rintro ⟨hge, hlt⟩
    exact hout ⟨hlow.trans_lt hlt, hge.trans hhigh⟩
  have hloop (chunks : List ChunkMetadata) (hsub : ∀ chunk ∈ chunks, chunk ∈ m.entry.chunks)
      (points : List (Point V)) :
      (chunks.filter fun chunk => chunk.startTs < stop ∧ start ≤ chunk.endTs).foldlM
        (fun points chunk => (collectPointsFromChunk start stop m.dir chunk.filename).map
          (points ++ ·)) points =
      some (points ++ (chunks.flatMap (chunkPoints m.dir)).filter
        fun p => InRange start stop p) := by
    induction chunks generalizing points with
    | nil => simp
    | cons chunk chunks ih =>
      have hc := hsub chunk (by simp)
      have htail := fun c hc => hsub c (List.mem_cons_of_mem _ hc)
      rw [List.flatMap_cons, List.filter_append]
      by_cases hover : chunk.startTs < stop ∧ start ≤ chunk.endTs
      · rw [List.filter_cons, if_pos (decide_eq_true hover), List.foldlM_cons,
          collectPointsFromChunk, (hreads chunk hc).1]
        exact (ih htail _).trans (by rw [List.append_assoc])
      · rw [List.filter_cons, if_neg (by rwa [decide_eq_true_iff]), hskip chunk hc hover,
          List.nil_append, ih htail]
  exact (hloop _ (fun _ hc => hc) []).trans (by rw [List.nil_append])

theorem OnDisk.collectRaw_eq {dataDir metric : Text} {l : Ledger V} (h : OnDisk dataDir metric l)
    (start stop : Int) : collectRaw start stop l.metric =
      some ((l.metric.entry.chunks.flatMap (chunkPoints l.metric.dir)).filter
        fun p => InRange start stop p) :=
  CoarseQuery.collectRaw_eq (fun _ hc => h.reads_chunk hc) start stop

section Arithmetic

variable [Zero V] [Add V] [Div V] [NatCast V] [LT V] [DecidableLT V]

omit [Zero V] [Add V] [Div V] [NatCast V] [LT V] [DecidableLT V] in
theorem sortPoints_idem (points : List (Point V)) :
    sortPoints (sortPoints points) = sortPoints points :=
  List.Pairwise.insertionSort_eq (sortPoints_sorted points)

theorem headAgg_lines {dataDir metric : Text} {start stop bucketSeconds : Int} {func : Text}
    {s : Store V} {m : MetricState V} (hm : hashFindStr metric s = some m) (hrange : start < stop)
    (hpos : 0 < bucketSeconds) (hfunc : func ∈ aggFunctions) {points : List (Point V)}
    (hcollect : aggCollect dataDir metric start stop bucketSeconds s m = some points) :
    ∃ carry, headAgg dataDir metric start stop bucketSeconds func s =
      .lines ((queryStarts start stop bucketSeconds).filterMap
        (bucketLine (sortPoints points) bucketSeconds func carry)) := by
  obtain ⟨carry, h⟩ := aggPoints_eq (sortPoints points) start stop hpos hfunc
  refine ⟨carry, ?_⟩
  rw [headAgg, if_neg (by omega), hm]
  simp only [hcollect]
  by_cases hnil : points = []
  · have hnone : (queryStarts start stop bucketSeconds).filterMap
        (bucketLine (sortPoints ([] : List (Point V))) bucketSeconds func carry) = [] :=
      List.filterMap_eq_nil_iff.mpr fun b _ => by simp [bucketLine, bucketPoints, sortPoints]
    rw [if_pos hnil, hnil, hnone]
  · rw [if_neg hnil, h, sortPoints_idem]

/-- `Head_AGG` collects the point, and a line of its answer is computed from the collected
points of a bucket that the point lies in. -/
def Contributes (dataDir metric : Text) (start stop bucketSeconds : Int) (func : Text)
    (s : Store V) (m : MetricState V) (p : Point V) : Prop :=
  ∃ points lines, aggCollect dataDir metric start stop bucketSeconds s m = some points ∧
    headAgg dataDir metric start stop bucketSeconds func s = .lines lines ∧
    ∃ line ∈ lines, p ∈ bucketPoints line.bstart line.bend (sortPoints points) ∧
      ∃ carry, aggCell func (bucketAcc carry
        (bucketPoints line.bstart line.bend (sortPoints points))) = some line.cell

theorem contributes_of_collected {dataDir metric : Text} {start stop bucketSeconds : Int}
    {func : Text} {s : Store V} {m : MetricState V} (hm : hashFindStr metric s = some m)
    (hpos : 0 < bucketSeconds) (hfunc : func ∈ aggFunctions) {points : List (Point V)}
    (hcollect : aggCollect dataDir metric start stop bucketSeconds s m = some points)
    {p : Point V} (hp : p ∈ points) (hin : InRange start stop p) :
    Contributes dataDir metric start stop bucketSeconds func s m p := by
  have hrange : start < stop := Int.lt_of_le_of_lt hin.1 hin.2
  obtain ⟨carry, hlines⟩ := headAgg_lines hm hrange hpos hfunc hcollect
  obtain ⟨b, hb, hle, hlt⟩ := bucketStarts_cover hpos le_rfl hin.1 hin.2
  have hmem : p ∈ bucketPoints b (b + bucketSeconds) (sortPoints points) :=
    mem_bucketPoints.mpr ⟨(sortPoints_perm points).mem_iff.mpr hp, hle, hlt⟩
  obtain ⟨cell, hcell⟩ := aggCell_known hfunc
    (bucketAcc (carry b) (bucketPoints b (b + bucketSeconds) (sortPoints points)))
  refine ⟨points, _, hcollect, hlines, ⟨b, b + bucketSeconds, cell⟩,
    List.mem_filterMap.mpr ⟨b, hb, ?_⟩, hmem, carry b, hcell⟩
  rw [bucketLine, if_neg (List.ne_nil_of_mem hmem), hcell]
  rfl

def minuteGroup (dir : Dir V) (chunk : ChunkMetadata) (p : Point V) : List (Point V) :=
  (chunkPoints dir chunk).filter fun q =>
    stamp (minuteStart chunk.startTs) q = stamp (minuteStart chunk.startTs) p

def coarsePoint (dir : Dir V) (chunk : ChunkMetadata) (p : Point V) : Point V :=
  ⟨stamp (minuteStart chunk.startTs) p, average (minuteGroup dir chunk p)⟩

omit [LT V] [DecidableLT V] in
theorem coarsePoint_mem {chunk : ChunkMetadata} {dir : Dir V}
    (hdesc : Describes chunk (chunkPoints dir chunk)) {p : Point V}
    (hp : p ∈ chunkPoints dir chunk) :
    coarsePoint dir chunk p ∈ coarsePoints (chunkPoints dir chunk) := by
  obtain ⟨first, rest, hpoints, hfirst⟩ := hdesc.first
  have hsorted := hdesc.sorted
  unfold coarsePoint minuteGroup
  rw [hpoints] at hp hsorted ⊢
  obtain ⟨minutes, hdiv, hout⟩ := coarsePoints_divides hsorted
  rw [hfirst] at hdiv
  have hflat := hdiv.flatten
  rw [← hflat] at hp
  obtain ⟨x, hx, hpx⟩ := List.mem_flatMap.mp hp
  rw [hout]
  refine List.mem_map.mpr ⟨x, hx, ?_⟩
  simp only [hdiv.stamped x hx p hpx, Divides.group hdiv hx]
  rfl

/-- Every chunk with a point in the range has its marker, and the minute of each such point
starts in the range as well. -/
def Downsampled (coarseDir : Dir V) (start stop : Int) (m : MetricState V) : Prop :=
  ∀ chunk ∈ m.entry.chunks, ∀ p ∈ chunkPoints m.dir chunk, InRange start stop p →
    chunkId chunk.startTs ∈ coarseDir.done ∧ InRange start stop (coarsePoint m.dir chunk p)

instance (coarseDir : Dir V) (start stop : Int) (m : MetricState V) :
    Decidable (Downsampled coarseDir start stop m) :=
  inferInstanceAs (Decidable (∀ chunk ∈ m.entry.chunks, ∀ p ∈ chunkPoints m.dir chunk,
    InRange start stop p → chunkId chunk.startTs ∈ coarseDir.done ∧
      InRange start stop (coarsePoint m.dir chunk p)))

private def minuteEvents : List (Step Nat) :=
  [.request ⟨7, .ok, ['m'], .put ⟨0, 4⟩⟩, .request ⟨7, .ok, ['m'], .put ⟨30, 6⟩⟩,
    .request ⟨7, .ok, ['m'], .flush⟩, .round 10000 ⟨true, .ok, .ok, true⟩ ['m'] 0,
    .request ⟨7, .ok, ['m'], .put ⟨90, 8⟩⟩]

private def pendingEvents : List (Step Nat) :=
  [.request ⟨7, .ok, ['m'], .put ⟨0, 1⟩⟩, .request ⟨7, .ok, ['m'], .flush⟩,
    .round 4000 ⟨true, .ok, .ok, true⟩ ['m'] 0, .request ⟨7, .ok, ['m'], .put ⟨3900, 2⟩⟩,
    .request ⟨7, .ok, ['m'], .flush⟩]

end Arithmetic

end Tsdb.CoarseQuery
