import Tsdb.BucketValues

namespace Tsdb.BucketLines

open CStrings Head Query Aggregate Buckets BucketValues

variable {V : Type}

def bucketAt (start bucketSeconds : Int) (k : Nat) : Int := start + k * bucketSeconds

theorem bucketAt_succ (start bucketSeconds : Int) (k : Nat) :
    bucketAt start bucketSeconds (k + 1) = bucketAt start bucketSeconds k + bucketSeconds := by
  unfold bucketAt
  push_cast
  ring

abbrev kthBucket (start bucketSeconds : Int) (points : List (Point V)) (k : Nat) :
    List (Point V) :=
  bucketPoints (bucketAt start bucketSeconds k) (bucketAt start bucketSeconds (k + 1)) points

def bucketIndex (start bucketSeconds : Int) (p : Point V) : Nat :=
  ((p.ts - start) / bucketSeconds).toNat

theorem inRange_bucketAt {start bucketSeconds : Int} (hpos : 0 < bucketSeconds) {p : Point V}
    (hp : start ≤ p.ts) (k : Nat) :
    InRange (bucketAt start bucketSeconds k) (bucketAt start bucketSeconds (k + 1)) p ↔
      bucketIndex start bucketSeconds p = k := by
  have hnonneg : 0 ≤ (p.ts - start) / bucketSeconds := Int.ediv_nonneg (by omega) hpos.le
  have hle : (k : Int) ≤ (p.ts - start) / bucketSeconds ↔ k * bucketSeconds ≤ p.ts - start :=
    Int.le_ediv_iff_mul_le hpos
  have hlt : (p.ts - start) / bucketSeconds < (k : Int) + 1 ↔
      p.ts - start < (k + 1) * bucketSeconds := Int.ediv_lt_iff_lt_mul hpos
  rw [bucketAt_succ]
  unfold InRange bucketAt bucketIndex
  rw [add_mul, one_mul] at hlt
  omega

theorem kthBucket_length {start bucketSeconds : Int} (hpos : 0 < bucketSeconds)
    {points : List (Point V)} (hlow : ∀ p ∈ points, start ≤ p.ts) (k : Nat) :
    (kthBucket start bucketSeconds points k).length =
      (points.map (bucketIndex start bucketSeconds)).count k := by
  rw [List.count_eq_countP, List.countP_map, List.countP_eq_length_filter]
  refine congrArg List.length (List.filter_congr fun p hp => ?_)
  rw [Function.comp, Bool.beq_eq_decide_eq, decide_eq_decide]
  exact inRange_bucketAt hpos (hlow p hp) k

/-- The buckets that have points, in the order of their lines. -/
structure Occupied (start bucketSeconds : Int) (points : List (Point V)) (ks : List Nat) :
    Prop where
  increasing : ks.Pairwise (· < ·)
  mem_iff : ∀ k, k ∈ ks ↔ ∃ p ∈ points,
    InRange (bucketAt start bucketSeconds k) (bucketAt start bucketSeconds (k + 1)) p

theorem Occupied.nonempty {start bucketSeconds : Int} {points : List (Point V)} {ks : List Nat}
    (h : Occupied start bucketSeconds points ks) {k : Nat} (hk : k ∈ ks) :
    kthBucket start bucketSeconds points k ≠ [] := by
  obtain ⟨p, hp, hin⟩ := (h.mem_iff k).mp hk
  exact List.ne_nil_of_mem (mem_bucketPoints.mpr ⟨hp, hin⟩)

theorem Occupied.sum_lengths {start bucketSeconds : Int} (hpos : 0 < bucketSeconds)
    {points : List (Point V)} (hlow : ∀ p ∈ points, start ≤ p.ts) {ks : List Nat}
    (h : Occupied start bucketSeconds points ks) :
    (ks.map fun k => (kthBucket start bucketSeconds points k).length).sum = points.length := by
  have hperm : ks.Perm (points.map (bucketIndex start bucketSeconds)).dedup := by
    apply (List.perm_ext_iff_of_nodup (h.increasing.imp Nat.ne_of_lt) (List.nodup_dedup _)).mpr
    intro k
    rw [h.mem_iff, List.mem_dedup, List.mem_map]
    exact exists_congr fun p => and_congr_right fun hp => inRange_bucketAt hpos (hlow p hp) k
  calc (ks.map fun k => (kthBucket start bucketSeconds points k).length).sum
      = (ks.map fun k => (points.map (bucketIndex start bucketSeconds)).count k).sum :=
        congrArg List.sum (List.map_congr_left fun k _ => kthBucket_length hpos hlow k)
    _ = ((points.map (bucketIndex start bucketSeconds)).dedup.map fun k =>
          (points.map (bucketIndex start bucketSeconds)).count k).sum := (hperm.map _).sum_eq
    _ = (points.map (bucketIndex start bucketSeconds)).length :=
        List.sum_map_count_dedup_eq_length _
    _ = points.length := List.length_map _

theorem bucketStarts_range (stop bucketSeconds : Int) (fuel : Nat) (start : Int) :
    ∃ rounds, bucketStarts stop bucketSeconds fuel start =
      (List.range rounds).map (bucketAt start bucketSeconds) := by
  induction fuel generalizing start with
  | zero => exact ⟨0, rfl⟩
  | succ fuel ih =>
    unfold bucketStarts
    split
    · obtain ⟨rounds, h⟩ := ih (start + bucketSeconds)
      refine ⟨rounds + 1, ?_⟩
      have hfirst : bucketAt start bucketSeconds 0 = start := by simp [bucketAt]
      rw [h, List.range_succ_eq_map, List.map_cons, List.map_map, hfirst]
      refine congrArg _ (List.map_congr_left fun k _ => ?_)
      unfold bucketAt
      simp only [Function.comp]
      push_cast
      ring
    · exact ⟨0, rfl⟩

section Arithmetic

variable [Zero V] [Add V] [Div V] [NatCast V] [LT V] [DecidableLT V]

theorem aggPoints_lines {points : List (Point V)} {start stop bucketSeconds : Int}
    (hin : ∀ p ∈ points, InRange start stop p) (hpos : 0 < bucketSeconds) {func : Text}
    (hfunc : func ∈ aggFunctions) :
    ∃ (ks : List Nat) (cell : Nat → Cell V), Occupied start bucketSeconds points ks ∧
      aggPoints points start stop bucketSeconds func = .lines (ks.map fun k =>
        ⟨bucketAt start bucketSeconds k, bucketAt start bucketSeconds (k + 1), cell k⟩) ∧
      ∀ k, aggCell func (bucketAcc (carryAt (sortPoints points) (0, 0) start
          (bucketAt start bucketSeconds k)) (kthBucket start bucketSeconds (sortPoints points) k)) =
        some (cell k) := by
  choose cell hcell using fun k => aggCell_known hfunc (bucketAcc (carryAt (sortPoints points)
    (0, 0) start (bucketAt start bucketSeconds k))
    (kthBucket start bucketSeconds (sortPoints points) k))
  obtain ⟨rounds, hrounds⟩ := bucketStarts_range stop bucketSeconds (stop - start).toNat start
  have hempty (k : Nat) : kthBucket start bucketSeconds (sortPoints points) k ≠ [] ↔ ∃ p ∈ points,
      InRange (bucketAt start bucketSeconds k) (bucketAt start bucketSeconds (k + 1)) p := by
    constructor
    · intro hne
      obtain ⟨p, hp⟩ := List.exists_mem_of_ne_nil _ hne
      rw [mem_bucketPoints, (sortPoints_perm points).mem_iff] at hp
      exact ⟨p, hp⟩
    · rintro ⟨p, hp, hbucket⟩
      exact List.ne_nil_of_mem
        (mem_bucketPoints.mpr ⟨(sortPoints_perm points).mem_iff.mpr hp, hbucket⟩)
  refine ⟨(List.range rounds).filter
    fun k => decide (kthBucket start bucketSeconds (sortPoints points) k ≠ []), cell,
    ⟨List.pairwise_lt_range.filter _, fun k => ?_⟩, ?_, hcell⟩
  · rw [List.mem_filter, decide_eq_true_iff, hempty]
    refine and_iff_right_of_imp ?_
    rintro ⟨p, hp, hbucket⟩
    -- the bucket of a point in the range starts before the end of the range
    obtain ⟨b, hb, hle, hlt⟩ := bucketStarts_cover hpos le_rfl (hin p hp).1 (hin p hp).2
    rw [hrounds] at hb
    obtain ⟨j, hj, rfl⟩ := List.mem_map.mp hb
    have hjk : j = k := by
      rw [inRange_bucketAt hpos (hin p hp).1] at hbucket
      rw [← hbucket, eq_comm, ← inRange_bucketAt hpos (hin p hp).1, bucketAt_succ]
      exact ⟨hle, hlt⟩
    rwa [← hjk]
  · rw [aggPoints_carry points start stop hpos hfunc, queryStarts, hrounds, List.filterMap_map,
      ← List.filterMap_eq_map, List.filterMap_filter]
    refine congrArg _ (List.filterMap_congr fun k _ => ?_)
    simp only [Function.comp, bucketLine, ← bucketAt_succ, hcell]
    by_cases hnil : kthBucket start bucketSeconds (sortPoints points) k = [] <;> simp [hnil]

end Arithmetic

end Tsdb.BucketLines
