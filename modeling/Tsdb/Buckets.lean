import Tsdb.Aggregate
import Tsdb.Folds

namespace Tsdb.Buckets

open CStrings Head Query Aggregate

variable {V : Type}

def aggFunctions : List Text :=
  ["avg".toList, "min".toList, "max".toList, "sum".toList, "count".toList, "Dcount".toList]

theorem aggText_eq_iff {fmt : V → Text} {answer : AggAnswer V} :
    aggText fmt answer = wholeText fmt answer ↔ LinesFit fmt answer := by
  cases answer with
  | lines lines =>
    unfold aggText wholeText LinesFit
    rw [List.append_left_inj]
    exact Folds.flatMap_take_eq_iff (wholeLine fmt) 127 lines
  | error text => exact iff_of_true rfl trivial

theorem aggText_length_le (fmt : V → Text) (answer : AggAnswer V) :
    (aggText fmt answer).length ≤ (wholeText fmt answer).length := by
  cases answer with
  | lines lines =>
    unfold aggText wholeText
    rw [List.length_append, List.length_append, List.length_flatMap, List.length_flatMap]
    exact Nat.add_le_add_right (List.sum_le_sum fun line _ => List.length_take_le' ..) _
  | error text => exact le_rfl

def bucketPoints (bstart bend : Int) (points : List (Point V)) : List (Point V) :=
  points.filter fun p => InRange bstart bend p

theorem mem_bucketPoints {bstart bend : Int} {points : List (Point V)} {p : Point V} :
    p ∈ bucketPoints bstart bend points ↔ p ∈ points ∧ InRange bstart bend p := by
  rw [bucketPoints, List.mem_filter, decide_eq_true_iff]

theorem bucketPoints_perm (lo hi : Int) {xs ys : List (Point V)} (h : xs.Perm ys) :
    (bucketPoints lo hi xs).Perm (bucketPoints lo hi ys) := h.filter _

theorem bucketPoints_cons_pos {bstart bend : Int} {p : Point V} (h : InRange bstart bend p)
    (points : List (Point V)) :
    bucketPoints bstart bend (p :: points) = p :: bucketPoints bstart bend points :=
  List.filter_cons_of_pos (decide_eq_true h)

theorem bucketPoints_cons_neg {bstart bend : Int} {p : Point V} (h : ¬ InRange bstart bend p)
    (points : List (Point V)) :
    bucketPoints bstart bend (p :: points) = bucketPoints bstart bend points :=
  List.filter_cons_of_neg (by rwa [decide_eq_true_iff])

theorem bucketPoints_self (bound : Int) (points : List (Point V)) :
    bucketPoints bound bound points = [] := by
  refine List.eq_nil_iff_forall_not_mem.mpr fun p hp => ?_
  obtain ⟨_, hle, hlt⟩ := mem_bucketPoints.mp hp
  omega

theorem bucketPoints_append {lo mid hi : Int} (hlo : lo ≤ mid) (hhi : mid ≤ hi)
    {points : List (Point V)} (hsorted : points.Pairwise (fun p q => p.ts ≤ q.ts)) :
    bucketPoints lo hi points = bucketPoints lo mid points ++ bucketPoints mid hi points := by
  induction points with
  | nil => rfl
  | cons p points ih =>
    obtain ⟨hp, hsorted⟩ := List.pairwise_cons.mp hsorted
    have ih := ih hsorted
    by_cases hmid : p.ts < mid
    · rw [bucketPoints_cons_neg (fun h => absurd h.1 (by omega) : ¬ InRange mid hi p)]
      by_cases hleft : lo ≤ p.ts
      · rw [bucketPoints_cons_pos ⟨hleft, hmid⟩, bucketPoints_cons_pos ⟨hleft, by omega⟩, ih,
          List.cons_append]
      · rw [bucketPoints_cons_neg (fun h => hleft h.1), bucketPoints_cons_neg (fun h => hleft h.1),
          ih]
    · have hnone : bucketPoints lo mid points = [] := by
        refine List.eq_nil_iff_forall_not_mem.mpr fun q hq => ?_
        obtain ⟨hq, _, hlt⟩ := mem_bucketPoints.mp hq
        have := hp q hq
        omega
      rw [hnone, List.nil_append] at ih
      rw [bucketPoints_cons_neg (fun h => absurd h.2 (by omega) : ¬ InRange lo mid p), hnone,
        List.nil_append]
      by_cases hright : p.ts < hi
      · rw [bucketPoints_cons_pos ⟨by omega, hright⟩, bucketPoints_cons_pos ⟨by omega, hright⟩, ih]
      · rw [bucketPoints_cons_neg (fun h => hright h.2), bucketPoints_cons_neg (fun h => hright h.2),
          ih]

def bucketStarts (stop bucketSeconds : Int) : Nat → Int → List Int
  | 0, _ => []
  | fuel + 1, bstart =>
    if bstart < stop then bstart :: bucketStarts stop bucketSeconds fuel (bstart + bucketSeconds)
    else []

theorem le_bucketStarts {stop bucketSeconds : Int} (hpos : 0 < bucketSeconds) {fuel : Nat}
    {bstart b : Int} (h : b ∈ bucketStarts stop bucketSeconds fuel bstart) :
    bstart ≤ b ∧ b < stop := by
  induction fuel generalizing bstart with
  | zero => cases h
  | succ fuel ih =>
    unfold bucketStarts at h
    split at h
    case isTrue hlt =>
      rcases List.mem_cons.mp h with rfl | h
      · exact ⟨le_rfl, hlt⟩
      · have := ih h
        omega
    case isFalse => cases h

theorem bucketStarts_cover {stop bucketSeconds : Int} (hpos : 0 < bucketSeconds) {fuel : Nat}
    {bstart ts : Int} (hfuel : (stop - bstart).toNat ≤ fuel) (hle : bstart ≤ ts) (hlt : ts < stop) :
    ∃ b ∈ bucketStarts stop bucketSeconds fuel bstart, b ≤ ts ∧ ts < b + bucketSeconds := by
  induction fuel generalizing bstart with
  | zero => omega
  | succ fuel ih =>
    rw [bucketStarts, if_pos (by omega)]
    by_cases hin : ts < bstart + bucketSeconds
    · exact ⟨bstart, by simp, hle, hin⟩
    · obtain ⟨b, hb, h⟩ := @ih (bstart + bucketSeconds) (by omega) (by omega)
      exact ⟨b, List.mem_cons_of_mem _ hb, h⟩

theorem sortPoints_perm (points : List (Point V)) : (sortPoints points).Perm points :=
  List.perm_insertionSort _ _

theorem sortPoints_sorted (points : List (Point V)) :
    (sortPoints points).Pairwise (fun p q => p.ts ≤ q.ts) := by
  have : Std.Total (fun p q : Point V => p.ts ≤ q.ts) := ⟨fun p q => Int.le_total p.ts q.ts⟩
  have : IsTrans (Point V) (fun p q => p.ts ≤ q.ts) := ⟨fun _ _ _ h h' => Int.le_trans h h'⟩
  exact List.pairwise_insertionSort _ _

section Arithmetic

variable [Zero V] [Add V] [Div V] [NatCast V] [LT V] [DecidableLT V]

omit [Zero V] [Add V] [LT V] [DecidableLT V] in
theorem aggCell_known {func : Text} (h : func ∈ aggFunctions) (acc : Acc V) :
    ∃ cell, aggCell func acc = some cell := by
  simp only [aggFunctions, List.mem_cons, List.not_mem_nil, or_false] at h
  unfold aggCell
  rcases h with rfl | rfl | rfl | rfl | rfl | rfl <;> exact ⟨_, rfl⟩

omit [Zero V] [Div V] [NatCast V] in
theorem aggBucket_eq (bstart bend : Int) {points : List (Point V)}
    (hsorted : points.Pairwise (fun p q => p.ts ≤ q.ts)) (acc : Acc V) :
    aggBucket bstart bend points acc = (bucketPoints bstart bend points).foldl Acc.add acc := by
  induction points generalizing acc with
  | nil => rfl
  | cons p points ih =>
    obtain ⟨hp, hsorted⟩ := List.pairwise_cons.mp hsorted
    unfold aggBucket
    by_cases hlow : p.ts < bstart
    · rw [if_pos hlow, ih hsorted, bucketPoints_cons_neg fun h => absurd h.1 (by omega)]
    by_cases hhigh : bend ≤ p.ts
    · have hnone : bucketPoints bstart bend (p :: points) = [] := by
        refine List.eq_nil_iff_forall_not_mem.mpr fun q hq => ?_
        obtain ⟨hq, _, hlt⟩ := mem_bucketPoints.mp hq
        rcases List.mem_cons.mp hq with rfl | hq
        · omega
        · have := hp q hq
          omega
      rw [if_neg hlow, if_pos hhigh, hnone]
      rfl
    · rw [if_neg hlow, if_neg hhigh, ih hsorted,
        bucketPoints_cons_pos ⟨by omega, by omega⟩, List.foldl_cons]

omit [Zero V] [Div V] [NatCast V] in
theorem foldl_count (points : List (Point V)) (acc : Acc V) :
    (points.foldl Acc.add acc).count = acc.count + points.length := by
  induction points generalizing acc with
  | nil => rfl
  | cons p points ih =>
    rw [List.foldl_cons, ih, List.length_cons]
    simp only [Acc.add]
    omega

/-- What one point does to the two variables that outlive a bucket. -/
def carryStep (carry : Nat × Int) (p : Point V) : Nat × Int :=
  (if p.ts ≠ carry.2 then carry.1 + 1 else carry.1, p.ts)

omit [Zero V] [Div V] [NatCast V] in
theorem foldl_carry (points : List (Point V)) (acc : Acc V) :
    ((points.foldl Acc.add acc).distinctCount, (points.foldl Acc.add acc).prevTs) =
      points.foldl carryStep (acc.distinctCount, acc.prevTs) := by
  induction points generalizing acc with
  | nil => rfl
  | cons p points ih =>
    rw [List.foldl_cons, List.foldl_cons, ih]
    rfl

/-- The accumulators after the points of one bucket; `carry` is the count of distinct timestamps
and the timestamp that the bucket finds. -/
def bucketAcc (carry : Nat × Int) (points : List (Point V)) : Acc V :=
  points.foldl Acc.add (.start carry.1 carry.2)

def bucketLine (points : List (Point V)) (bucketSeconds : Int) (func : Text)
    (carry : Int → Nat × Int) (bstart : Int) : Option (Line V) :=
  let inside := bucketPoints bstart (bstart + bucketSeconds) points
  if inside = [] then none
  else (aggCell func (bucketAcc (carry bstart) inside)).map (⟨bstart, bstart + bucketSeconds, ·⟩)

/-- What the buckets from `start` on have left behind for the bucket at `bstart`. -/
def carryAt (points : List (Point V)) (carry : Nat × Int) (start bstart : Int) : Nat × Int :=
  (bucketPoints start bstart points).foldl carryStep carry

theorem aggBuckets_eq {points : List (Point V)}
    (hsorted : points.Pairwise (fun p q => p.ts ≤ q.ts)) (stop : Int) {bucketSeconds : Int}
    (hpos : 0 < bucketSeconds) {func : Text} (hfunc : func ∈ aggFunctions) (fuel : Nat)
    (bstart : Int) (carry : Nat × Int) :
    aggBuckets points stop bucketSeconds func fuel bstart carry.1 carry.2 =
      some ((bucketStarts stop bucketSeconds fuel bstart).filterMap
        (bucketLine points bucketSeconds func (carryAt points carry bstart))) := by
  induction fuel generalizing bstart carry with
  | zero => rfl
  | succ fuel ih =>
    unfold aggBuckets bucketStarts
    by_cases hlt : bstart < stop
    · simp only [if_pos hlt]
      have hacc : aggBucket bstart (bstart + bucketSeconds) points (.start carry.1 carry.2) =
          bucketAcc carry (bucketPoints bstart (bstart + bucketSeconds) points) :=
        aggBucket_eq bstart _ hsorted _
      have hself : carryAt points carry bstart bstart = carry := by
        rw [carryAt, bucketPoints_self]
        rfl
      have hnext :
          ((bucketAcc carry (bucketPoints bstart (bstart + bucketSeconds) points)).distinctCount,
          (bucketAcc carry (bucketPoints bstart (bstart + bucketSeconds) points)).prevTs) =
          carryAt points carry bstart (bstart + bucketSeconds) := foldl_carry _ _
      have hlater : (bucketStarts stop bucketSeconds fuel (bstart + bucketSeconds)).filterMap
            (bucketLine points bucketSeconds func (carryAt points
              (carryAt points carry bstart (bstart + bucketSeconds)) (bstart + bucketSeconds))) =
          (bucketStarts stop bucketSeconds fuel (bstart + bucketSeconds)).filterMap
            (bucketLine points bucketSeconds func (carryAt points carry bstart)) := by
        refine List.filterMap_congr fun b hb => ?_
        have hle := (le_bucketStarts hpos hb).1
        have hsplit : carryAt points carry bstart b = carryAt points
            (carryAt points carry bstart (bstart + bucketSeconds)) (bstart + bucketSeconds) b := by
          simp only [carryAt]
          rw [bucketPoints_append (by omega : bstart ≤ bstart + bucketSeconds) hle hsorted,
            List.foldl_append]
        rw [bucketLine, bucketLine, hsplit]
      have hrest := ih (bstart + bucketSeconds) (carryAt points carry bstart (bstart + bucketSeconds))
      rw [← hnext] at hrest hlater
      rw [hacc, hrest, List.filterMap_cons, hlater, bucketLine, hself]
      generalize bucketPoints bstart (bstart + bucketSeconds) points = inside
      have hcount : (bucketAcc carry inside).count = inside.length :=
        (foldl_count inside _).trans (Nat.zero_add _)
      by_cases hnil : inside = []
      · rw [if_pos (by rw [hcount, hnil]; rfl), if_pos hnil]
      · obtain ⟨cell, hcell⟩ := aggCell_known hfunc (bucketAcc carry inside)
        rw [if_neg (by rw [hcount]; exact mt List.length_eq_zero_iff.mp hnil), if_neg hnil, hcell]
        rfl
    · rw [if_neg hlt, if_neg hlt]
      rfl

abbrev queryStarts (start stop bucketSeconds : Int) : List Int :=
  bucketStarts stop bucketSeconds (stop - start).toNat start

theorem aggPoints_carry (points : List (Point V)) (start stop : Int) {bucketSeconds : Int}
    (hpos : 0 < bucketSeconds) {func : Text} (hfunc : func ∈ aggFunctions) :
    aggPoints points start stop bucketSeconds func =
      .lines ((queryStarts start stop bucketSeconds).filterMap
        (bucketLine (sortPoints points) bucketSeconds func
          (carryAt (sortPoints points) (0, 0) start))) := by
  have h := aggBuckets_eq (sortPoints_sorted points) stop hpos hfunc
    (stop - start).toNat start (0, 0)
  rw [aggPoints, h]

theorem aggPoints_eq (points : List (Point V)) (start stop : Int) {bucketSeconds : Int}
    (hpos : 0 < bucketSeconds) {func : Text} (hfunc : func ∈ aggFunctions) :
    ∃ carry, aggPoints points start stop bucketSeconds func =
      .lines ((queryStarts start stop bucketSeconds).filterMap
        (bucketLine (sortPoints points) bucketSeconds func carry)) :=
  ⟨_, aggPoints_carry points start stop hpos hfunc⟩

end Arithmetic

end Tsdb.Buckets
