import Tsdb.BucketValues
import Tsdb.CoarseOnly
import Tsdb.CoarseQuery

namespace Tsdb.MinuteBuckets

open CStrings Head Files Registry Query History Disk Aggregate Downsample Minutes Buckets Means
  BucketValues CoarseOnly CoarseQuery

variable {V : Type} [Field V]

def diskPoints (lo hi : Int) (m : MetricState V) : List (ChunkMetadata × Point V) :=
  m.entry.chunks.flatMap fun chunk =>
    (bucketPoints lo hi (chunkPoints m.dir chunk)).map fun p => (chunk, p)

omit [Field V] in
theorem mem_diskPoints {lo hi : Int} {m : MetricState V} {chunk : ChunkMetadata} {p : Point V} :
    (chunk, p) ∈ diskPoints lo hi m ↔
      chunk ∈ m.entry.chunks ∧ p ∈ chunkPoints m.dir chunk ∧ InRange lo hi p := by
  simp [diskPoints, mem_bucketPoints]

/-- The ends of the bucket cut no minute of a chunk. -/
def Uncut (lo hi : Int) (m : MetricState V) : Prop :=
  ∀ chunk ∈ m.entry.chunks, ∀ p ∈ chunkPoints m.dir chunk,
    InRange lo hi p ↔ InRange lo hi (coarsePoint m.dir chunk p)

instance (lo hi : Int) (m : MetricState V) : Decidable (Uncut lo hi m) :=
  inferInstanceAs (Decidable (∀ chunk ∈ m.entry.chunks, ∀ p ∈ chunkPoints m.dir chunk,
    InRange lo hi p ↔ InRange lo hi (coarsePoint m.dir chunk p)))

theorem uncut_of_aligned {m : MetricState V}
    (hdesc : ∀ chunk ∈ m.entry.chunks, Describes chunk (chunkPoints m.dir chunk))
    (hnonneg : ∀ chunk ∈ m.entry.chunks, 0 ≤ chunk.startTs) {lo hi : Int} (hlo : lo % 60 = 0)
    (hhi : hi % 60 = 0) : Uncut lo hi m := by
  intro chunk hc p hp
  have hstart := (minuteStart_spec chunk.startTs).2.2.2 (hnonneg chunk hc)
  have hle : chunk.startTs ≤ p.ts := (hdesc chunk hc).least.2 ⟨p, hp, rfl⟩
  unfold InRange coarsePoint stamp
  rw [hstart]
  dsimp only
  omega

def SinglePoints (lo hi : Int) (m : MetricState V) : Prop :=
  ∀ x ∈ diskPoints lo hi m, (minuteGroup m.dir x.1 x.2).length = 1

instance (lo hi : Int) (m : MetricState V) : Decidable (SinglePoints lo hi m) :=
  inferInstanceAs (Decidable
    (∀ x ∈ diskPoints lo hi m, (minuteGroup m.dir x.1 x.2).length = 1))

/-- All points of the bucket are on disk, in minutes of equally many points. -/
def EvenMinutes (lo hi : Int) (m : MetricState V) : Prop :=
  bucketPoints lo hi m.entry.head.points = [] ∧
    ∀ x ∈ diskPoints lo hi m, ∀ y ∈ diskPoints lo hi m,
      (minuteGroup m.dir x.1 x.2).length = (minuteGroup m.dir y.1 y.2).length

instance (lo hi : Int) (m : MetricState V) : Decidable (EvenMinutes lo hi m) :=
  inferInstanceAs (Decidable (bucketPoints lo hi m.entry.head.points = [] ∧
    ∀ x ∈ diskPoints lo hi m, ∀ y ∈ diskPoints lo hi m,
      (minuteGroup m.dir x.1 x.2).length = (minuteGroup m.dir y.1 y.2).length))

/-- A value of the bucket that averaging keeps: a head point's, or a whole minute's. -/
def Whole (lo hi : Int) (m : MetricState V) (v : V) : Prop :=
  (∃ p ∈ bucketPoints lo hi m.entry.head.points, p.value = v) ∨
    ∃ x ∈ diskPoints lo hi m, ∀ q ∈ minuteGroup m.dir x.1 x.2, q.value = v

instance [DecidableEq V] (lo hi : Int) (m : MetricState V) (v : V) :
    Decidable (Whole lo hi m v) :=
  inferInstanceAs (Decidable ((∃ p ∈ bucketPoints lo hi m.entry.head.points, p.value = v) ∨
    ∃ x ∈ diskPoints lo hi m, ∀ q ∈ minuteGroup m.dir x.1 x.2, q.value = v))

structure MinutesOf (m : MetricState V) (minutes : ChunkMetadata → List (Minute V)) : Prop where
  divides : ∀ chunk ∈ m.entry.chunks,
    Divides (minuteStart chunk.startTs) (chunkPoints m.dir chunk) (minutes chunk)
  coarse : ∀ chunk ∈ m.entry.chunks,
    coarsePoints (chunkPoints m.dir chunk) = (minutes chunk).map minutePoint

theorem exists_minutesOf {m : MetricState V}
    (hdesc : ∀ chunk ∈ m.entry.chunks, Describes chunk (chunkPoints m.dir chunk)) :
    ∃ minutes, MinutesOf m minutes := by
  have hall : ∀ chunk ∈ m.entry.chunks, ∃ minutes,
      Divides (minuteStart chunk.startTs) (chunkPoints m.dir chunk) minutes ∧
        coarsePoints (chunkPoints m.dir chunk) = minutes.map minutePoint := by
    intro chunk hc
    obtain ⟨first, rest, hpoints, hfirst⟩ := (hdesc chunk hc).first
    have hsorted := (hdesc chunk hc).sorted
    rw [hpoints] at hsorted ⊢
    rw [← hfirst]
    exact coarsePoints_divides hsorted
  choose! minutes hminutes using hall
  exact ⟨minutes, fun chunk hc => (hminutes chunk hc).1, fun chunk hc => (hminutes chunk hc).2⟩

def bucketMinutes (lo hi : Int) (m : MetricState V) (minutes : ChunkMetadata → List (Minute V)) :
    List (Minute V) :=
  (m.entry.chunks.flatMap minutes).filter fun x => lo ≤ x.1 ∧ x.1 < hi

omit [Field V] in
theorem mem_bucketMinutes {lo hi : Int} {m : MetricState V}
    {minutes : ChunkMetadata → List (Minute V)} {x : Minute V} :
    x ∈ bucketMinutes lo hi m minutes ↔
      ∃ chunk ∈ m.entry.chunks, x ∈ minutes chunk ∧ lo ≤ x.1 ∧ x.1 < hi := by
  simp only [bucketMinutes, List.mem_filter, List.mem_flatMap, decide_eq_true_eq]
  exact ⟨fun ⟨⟨chunk, hc, hx⟩, hin⟩ => ⟨chunk, hc, hx, hin⟩,
    fun ⟨chunk, hc, hx, hin⟩ => ⟨⟨chunk, hc, hx⟩, hin⟩⟩

theorem MinutesOf.stamp {m : MetricState V} {minutes : ChunkMetadata → List (Minute V)}
    (h : MinutesOf m minutes) {chunk : ChunkMetadata} (hc : chunk ∈ m.entry.chunks) {x : Minute V}
    (hx : x ∈ minutes chunk) {p : Point V} (hp : p ∈ x.2) :
    p ∈ chunkPoints m.dir chunk ∧ (coarsePoint m.dir chunk p).ts = x.1 ∧
      minuteGroup m.dir chunk p = x.2 := by
  have hdiv := h.divides chunk hc
  have hstamp := hdiv.stamped x hx p hp
  refine ⟨?_, hstamp, ?_⟩
  · rw [← hdiv.flatten]
    exact List.mem_flatMap.mpr ⟨x, hx, hp⟩
  · rw [minuteGroup, hstamp]
    exact Divides.group hdiv hx

/-- An uncut bucket has each of its minutes with all its points. -/
theorem raw_bucket {m : MetricState V} {minutes : ChunkMetadata → List (Minute V)}
    (h : MinutesOf m minutes) {lo hi : Int} (huncut : Uncut lo hi m) :
    bucketPoints lo hi (m.entry.chunks.flatMap (chunkPoints m.dir)) =
      (bucketMinutes lo hi m minutes).flatMap Prod.snd := by
  have hminute : ∀ x ∈ m.entry.chunks.flatMap minutes, bucketPoints lo hi x.2 =
      if lo ≤ x.1 ∧ x.1 < hi then x.2 else [] := by
    intro x hx
    obtain ⟨chunk, hc, hx⟩ := List.mem_flatMap.mp hx
    have hin {p : Point V} (hp : p ∈ x.2) : InRange lo hi p ↔ lo ≤ x.1 ∧ x.1 < hi := by
      obtain ⟨hmem, hts, _⟩ := h.stamp hc hx hp
      rw [huncut chunk hc p hmem, InRange, hts]
    split
    case isTrue hx =>
      exact List.filter_eq_self.mpr fun p hp => decide_eq_true ((hin hp).mpr hx)
    case isFalse hx =>
      exact List.filter_eq_nil_iff.mpr fun p hp hp' =>
        hx ((hin hp).mp (of_decide_eq_true hp'))
  have hflat : m.entry.chunks.flatMap (chunkPoints m.dir) =
      (m.entry.chunks.flatMap minutes).flatMap Prod.snd := by
    rw [List.flatMap_assoc]
    exact List.flatMap_congr fun chunk hc => (h.divides chunk hc).flatten.symm
  rw [hflat, bucketMinutes, bucketPoints, List.filter_flatMap]
  generalize m.entry.chunks.flatMap minutes = all at hminute
  induction all with
  | nil => rfl
  | cons x all ih =>
    have hx := hminute x (by simp)
    rw [List.flatMap_cons, ih fun y hy => hminute y (List.mem_cons_of_mem _ hy), List.filter_cons]
    unfold bucketPoints at hx
    rw [hx]
    split
    case isTrue hin => rw [if_pos (decide_eq_true hin), List.flatMap_cons]
    case isFalse hin => rw [if_neg (by rwa [decide_eq_true_iff]), List.nil_append]

theorem coarse_bucket {m : MetricState V} {minutes : ChunkMetadata → List (Minute V)}
    (h : MinutesOf m minutes) (lo hi : Int) :
    bucketPoints lo hi (allCoarsePoints m) = (bucketMinutes lo hi m minutes).map minutePoint := by
  have hall : allCoarsePoints m = (m.entry.chunks.flatMap minutes).map minutePoint := by
    rw [allCoarsePoints, List.map_flatMap]
    exact List.flatMap_congr fun chunk hc => h.coarse chunk hc
  rw [hall, bucketPoints, List.filter_map]
  rfl

theorem average_eq_mean (points : List (Point V)) : average points = mean (points.map Point.value) := by
  have hsum (acc : V) : points.foldl (fun sum p => sum + p.value) acc =
      acc + (points.map Point.value).sum := by
    induction points generalizing acc with
    | nil => simp
    | cons p points ih => rw [List.foldl_cons, ih, List.map_cons, List.sum_cons, add_assoc]
  rw [average, sumValues, hsum, zero_add, mean, List.length_map]

end Tsdb.MinuteBuckets
