import Tsdb.BucketLines

namespace Tsdb.DistinctCount

open CStrings Head Query Aggregate Buckets BucketLines

variable {V : Type}

def distinct (points : List (Point V)) : Nat := (points.map Point.ts).toFinset.card

theorem distinct_pos {points : List (Point V)} (hne : points ≠ []) : 0 < distinct points := by
  rw [distinct, Finset.card_pos, List.toFinset_nonempty_iff]
  exact mt List.map_eq_nil_iff.mp hne

theorem distinct_perm {xs ys : List (Point V)} (h : xs.Perm ys) : distinct xs = distinct ys :=
  congrArg Finset.card (List.toFinset_eq_of_perm _ _ (h.map Point.ts))

theorem distinct_append {mid : Int} {xs ys : List (Point V)} (hxs : ∀ p ∈ xs, p.ts < mid)
    (hys : ∀ p ∈ ys, mid ≤ p.ts) : distinct (xs ++ ys) = distinct xs + distinct ys := by
  rw [distinct, List.map_append, List.toFinset_append, Finset.card_union_of_disjoint]
  · rfl
  · apply Finset.disjoint_left.mpr
    intro t hx hy
    obtain ⟨p, hp, rfl⟩ := List.mem_map.mp (List.mem_toFinset.mp hx)
    obtain ⟨q, hq, he⟩ := List.mem_map.mp (List.mem_toFinset.mp hy)
    have := hxs p hp
    have := hys q hq
    omega

theorem distinct_cons (p : Point V) (points : List (Point V)) :
    distinct (p :: points) =
      (if p.ts ∈ points.map Point.ts then 0 else 1) + distinct points := by
  rw [distinct, List.map_cons, List.toFinset_cons]
  split
  case isTrue h =>
    rw [Finset.insert_eq_of_mem (List.mem_toFinset.mpr h), Nat.zero_add]
    rfl
  case isFalse h =>
    rw [Finset.card_insert_of_notMem (mt List.mem_toFinset.mp h), Nat.add_comm]
    rfl

/-- The counter counts every new timestamp of a sorted list, except a first one that equals the
timestamp it was left with. -/
theorem foldl_carryStep (p : Point V) (points : List (Point V))
    (hsorted : (p :: points).Pairwise (fun p q => p.ts ≤ q.ts)) (carry : Nat × Int) :
    ((p :: points).foldl carryStep carry).1 + (if p.ts = carry.2 then 1 else 0) =
      carry.1 + distinct (p :: points) := by
  induction points generalizing p carry with
  | nil => by_cases h : p.ts = carry.2 <;> simp [carryStep, distinct, h]
  | cons q points ih =>
    obtain ⟨hp, hsorted⟩ := List.pairwise_cons.mp hsorted
    have hrest := ih q hsorted (carryStep carry p)
    have hq := hp q (by simp)
    have hmem : p.ts ∈ (q :: points).map Point.ts ↔ q.ts = p.ts := by
      constructor
      · intro h
        obtain ⟨r, hr, he⟩ := List.mem_map.mp h
        rcases List.mem_cons.mp hr with rfl | hr
        · exact he
        · have := (List.pairwise_cons.mp hsorted).1 r hr
          omega
      · intro h
        exact List.mem_map.mpr ⟨q, by simp, h⟩
    have hcarry : (carryStep carry p).1 + (if p.ts = carry.2 then 1 else 0) = carry.1 + 1 := by
      unfold carryStep
      by_cases h : p.ts = carry.2 <;> simp [h]
    rw [List.foldl_cons, distinct_cons]
    simp only [hmem]
    change _ + (if q.ts = p.ts then 1 else 0) = _ at hrest
    by_cases hqp : q.ts = p.ts
    · rw [if_pos hqp] at hrest ⊢
      omega
    · rw [if_neg hqp] at hrest ⊢
      omega

/-- The least timestamp is 0, the one the counter takes as already seen. -/
def LeastZero (points : List (Point V)) : Prop :=
  (∃ p ∈ points, p.ts = 0) ∧ ∀ p ∈ points, 0 ≤ p.ts

instance (points : List (Point V)) : Decidable (LeastZero points) :=
  inferInstanceAs (Decidable (_ ∧ _))

theorem foldl_carryStep_zero {points : List (Point V)}
    (hsorted : points.Pairwise (fun p q => p.ts ≤ q.ts)) :
    (points.foldl carryStep (0, 0)).1 + (if LeastZero points then 1 else 0) = distinct points := by
  cases points with
  | nil => simp [distinct, LeastZero]
  | cons p points =>
    have hle := (List.pairwise_cons.mp hsorted).1
    have hzero : LeastZero (p :: points) ↔ p.ts = 0 := by
      constructor
      · rintro ⟨⟨q, hq, h0⟩, hall⟩
        have := hall p (by simp)
        rcases List.mem_cons.mp hq with rfl | hq
        · exact h0
        · have := hle q hq
          omega
      · intro h0
        refine ⟨⟨p, by simp, h0⟩, fun q hq => ?_⟩
        rcases List.mem_cons.mp hq with rfl | hq
        · exact h0.ge
        · exact h0 ▸ hle q hq
    have h := foldl_carryStep p points hsorted (0, 0)
    rw [Nat.zero_add] at h
    simpa only [hzero] using h

/-- Nothing the earlier buckets leave behind shows in the `k`-th one: there are none and the first
timestamp is counted, or all they have is the timestamp that is not counted. -/
def Unspoilt (start bucketSeconds : Int) (points : List (Point V)) (k : Nat) : Prop :=
  let earlier := bucketPoints start (bucketAt start bucketSeconds k) points
  (earlier = [] ∧ ¬ LeastZero points) ∨ (earlier ≠ [] ∧ ∀ p ∈ earlier, p.ts = 0)

section Bucket

variable {start stop bucketSeconds : Int} {points : List (Point V)}

theorem mem_earlier (hin : ∀ p ∈ points, InRange start stop p) {bound : Int} {p : Point V} :
    p ∈ bucketPoints start bound points ↔ p ∈ points ∧ p.ts < bound := by
  rw [mem_bucketPoints]
  exact and_congr_right fun hp => and_iff_right (hin p hp).1

theorem bucketAt_le_succ (hpos : 0 < bucketSeconds) (k : Nat) :
    bucketAt start bucketSeconds k ≤ bucketAt start bucketSeconds (k + 1) := by
  rw [bucketAt_succ]
  omega

theorem le_bucketAt (hpos : 0 < bucketSeconds) (k : Nat) :
    start ≤ bucketAt start bucketSeconds k := by
  have : 0 ≤ (k : Int) * bucketSeconds := Int.mul_nonneg (Int.natCast_nonneg k) hpos.le
  unfold bucketAt
  omega

theorem distinct_upTo (hpos : 0 < bucketSeconds) (k : Nat) :
    distinct (bucketPoints start (bucketAt start bucketSeconds (k + 1)) (sortPoints points)) =
      distinct (bucketPoints start (bucketAt start bucketSeconds k) points) +
        distinct (kthBucket start bucketSeconds points k) := by
  rw [bucketPoints_append (le_bucketAt hpos k) (bucketAt_le_succ hpos k) (sortPoints_sorted points),
    distinct_append (fun p hp => (mem_bucketPoints.mp hp).2.2)
      (fun p hp => (mem_bucketPoints.mp hp).2.1),
    distinct_perm (bucketPoints_perm _ _ (sortPoints_perm points)),
    distinct_perm (bucketPoints_perm _ _ (sortPoints_perm points))]

theorem leastZero_upTo (hin : ∀ p ∈ points, InRange start stop p) {bound : Int}
    (hne : bucketPoints start bound points ≠ []) :
    LeastZero (bucketPoints start bound (sortPoints points)) ↔ LeastZero points := by
  have hmem (p : Point V) : p ∈ bucketPoints start bound (sortPoints points) ↔
      p ∈ points ∧ p.ts < bound := by
    rw [(bucketPoints_perm _ _ (sortPoints_perm points)).mem_iff, mem_earlier hin]
  obtain ⟨q, hq⟩ := List.exists_mem_of_ne_nil _ hne
  obtain ⟨hq, hqb⟩ := (mem_earlier hin).mp hq
  constructor
  · rintro ⟨⟨p, hp, h0⟩, hall⟩
    obtain ⟨hp, hpb⟩ := (hmem p).mp hp
    refine ⟨⟨p, hp, h0⟩, fun r hr => ?_⟩
    by_cases hrb : r.ts < bound
    · exact hall r ((hmem r).mpr ⟨hr, hrb⟩)
    · omega
  · rintro ⟨⟨p, hp, h0⟩, hall⟩
    have := hall q hq
    exact ⟨⟨p, (hmem p).mpr ⟨hp, by omega⟩, h0⟩, fun r hr => hall r ((hmem r).mp hr).1⟩

theorem distinct_eq_one {points : List (Point V)} {ts : Int} (hne : points ≠ [])
    (h : ∀ p ∈ points, p.ts = ts) : distinct points = 1 := by
  rw [distinct, Finset.card_eq_one]
  refine ⟨ts, Finset.eq_singleton_iff_nonempty_unique_mem.mpr ⟨?_, fun x hx => ?_⟩⟩
  · exact List.toFinset_nonempty_iff _ |>.mpr (mt List.map_eq_nil_iff.mp hne)
  · obtain ⟨p, hp, rfl⟩ := List.mem_map.mp (List.mem_toFinset.mp hx)
    exact h p hp

theorem eq_of_distinct_one {points : List (Point V)} (h : distinct points = 1) {p q : Point V}
    (hp : p ∈ points) (hq : q ∈ points) : p.ts = q.ts := by
  obtain ⟨ts, hts⟩ := Finset.card_eq_one.mp h
  have hone {r : Point V} (hr : r ∈ points) : r.ts = ts := by
    rw [← Finset.mem_singleton, ← hts, List.mem_toFinset]
    exact List.mem_map_of_mem hr
  rw [hone hp, hone hq]

theorem unspoilt_iff (hin : ∀ p ∈ points, InRange start stop p) (k : Nat) :
    Unspoilt start bucketSeconds points k ↔
      distinct (bucketPoints start (bucketAt start bucketSeconds k) points) =
        if LeastZero points then 1 else 0 := by
  unfold Unspoilt
  have hmem {p : Point V} := @mem_earlier V start stop points hin
    (bucketAt start bucketSeconds k) p
  dsimp only
  generalize bucketPoints start (bucketAt start bucketSeconds k) points = earlier at hmem ⊢
  by_cases hnil : earlier = []
  · rw [hnil]
    by_cases hzero : LeastZero points <;> simp [hzero, distinct]
  · have hpos := distinct_pos hnil
    obtain ⟨q, hq⟩ := List.exists_mem_of_ne_nil _ hnil
    obtain ⟨hqp, hqb⟩ := hmem.mp hq
    simp only [hnil, false_and, false_or, ne_eq, not_false_eq_true, true_and]
    constructor
    · intro hall
      have h0 := hall q hq
      have hzero : LeastZero points := by
        refine ⟨⟨q, hqp, h0⟩, fun r hr => ?_⟩
        by_cases hrb : r.ts < bucketAt start bucketSeconds k
        · exact (hall r (hmem.mpr ⟨hr, hrb⟩)).ge
        · omega
      rw [if_pos hzero, distinct_eq_one hnil hall]
    · intro hone p hp
      by_cases hzero : LeastZero points
      · rw [if_pos hzero] at hone
        obtain ⟨⟨r, hr, h0⟩, hall⟩ := hzero
        have := hall q hqp
        rw [← h0]
        exact eq_of_distinct_one hone hp (hmem.mpr ⟨hr, by omega⟩)
      · rw [if_neg hzero] at hone
        omega

end Bucket

section Values

variable [Field V] [LinearOrder V] [IsStrictOrderedRing V]

end Values

end Tsdb.DistinctCount
