import Tsdb.BucketLines
import Tsdb.Moves
import Tsdb.Pruning

namespace Tsdb.AggAnswers

open CStrings Head Files Registry Query History Disk Aggregate Buckets BucketValues BucketLines
  Downsample Service Shelves Lifetime Pruning Outcomes Moves

variable {V : Type}

abbrev timestamps (points : List (Point V)) : List Int := points.map Point.ts

theorem timestamps_bucketPoints (lo hi : Int) (points : List (Point V)) :
    timestamps (bucketPoints lo hi points) =
      (timestamps points).filter fun ts => lo ≤ ts ∧ ts < hi := by
  rw [timestamps, timestamps, List.filter_map]
  rfl

/-- `qsort` puts the same timestamps into the same order, whatever it does with equal ones. -/
theorem timestamps_sortPoints {xs ys : List (Point V)} (h : xs.Perm ys) :
    timestamps (sortPoints xs) = timestamps (sortPoints ys) := by
  have hsorted (points : List (Point V)) : (timestamps (sortPoints points)).Pairwise (· ≤ ·) :=
    List.pairwise_map.mpr (sortPoints_sorted points)
  have hperm : (timestamps (sortPoints xs)).Perm (timestamps (sortPoints ys)) :=
    (((sortPoints_perm xs).trans h).trans (sortPoints_perm ys).symm).map Point.ts
  exact hperm.eq_of_pairwise' (hsorted xs) (hsorted ys)

theorem bucketPoints_bucketPoints (lo hi lo' hi' : Int) (points : List (Point V)) :
    bucketPoints lo hi (bucketPoints lo' hi' points) =
      bucketPoints (max lo lo') (min hi hi') points := by
  rw [bucketPoints, bucketPoints, List.filter_filter]
  refine List.filter_congr fun p _ => ?_
  rw [← Bool.decide_and, decide_eq_decide]
  unfold InRange
  omega

theorem foldl_carryStep_timestamps {xs ys : List (Point V)} (h : timestamps xs = timestamps ys)
    (carry : Nat × Int) : xs.foldl carryStep carry = ys.foldl carryStep carry := by
  have hmap (points : List (Point V)) : points.foldl carryStep carry = (timestamps points).foldl
      (fun c ts => (if ts ≠ c.2 then c.1 + 1 else c.1, ts)) carry := by
    rw [List.foldl_map]
    rfl
  rw [hmap, hmap, h]

section Starts

variable {bucketSeconds : Int}

theorem bucketStarts_fuel (hpos : 0 < bucketSeconds) {stop : Int} {fuel fuel' : Nat} {bstart : Int}
    (h : (stop - bstart).toNat ≤ fuel) (h' : (stop - bstart).toNat ≤ fuel') :
    bucketStarts stop bucketSeconds fuel bstart = bucketStarts stop bucketSeconds fuel' bstart := by
  induction fuel generalizing fuel' bstart with
  | zero =>
    cases fuel' with
    | zero => rfl
    | succ fuel' => rw [bucketStarts, bucketStarts, if_neg (by omega)]
  | succ fuel ih =>
    cases fuel' with
    | zero => rw [bucketStarts, bucketStarts, if_neg (by omega)]
    | succ fuel' =>
      rw [bucketStarts, bucketStarts]
      split
      · exact congrArg _ (ih (by omega) (by omega))
      · rfl

theorem queryStarts_cons (hpos : 0 < bucketSeconds) {start stop : Int} (h : start < stop) :
    queryStarts start stop bucketSeconds =
      start :: queryStarts (start + bucketSeconds) stop bucketSeconds := by
  obtain ⟨fuel, hfuel⟩ := Nat.exists_eq_add_one_of_ne_zero (n := (stop - start).toNat) (by omega)
  rw [queryStarts, hfuel, bucketStarts, if_pos h]
  exact congrArg _ (bucketStarts_fuel hpos (by omega) le_rfl)

theorem queryStarts_append (hpos : 0 < bucketSeconds) (k : Nat) (start : Int) {stop : Int}
    (hstop : bucketAt start bucketSeconds k ≤ stop) :
    queryStarts start stop bucketSeconds =
      queryStarts start (bucketAt start bucketSeconds k) bucketSeconds ++
        queryStarts (bucketAt start bucketSeconds k) stop bucketSeconds := by
  induction k generalizing start with
  | zero =>
    have hzero : bucketAt start bucketSeconds 0 = start := by simp [bucketAt]
    have hnone : queryStarts start start bucketSeconds = [] := by
      rw [queryStarts, Int.sub_self]
      rfl
    rw [hzero, hnone, List.nil_append]
  | succ k ih =>
    have hnext : bucketAt start bucketSeconds (k + 1) =
        bucketAt (start + bucketSeconds) bucketSeconds k := by
      unfold bucketAt
      push_cast
      ring
    have hlow : start + bucketSeconds ≤ bucketAt (start + bucketSeconds) bucketSeconds k := by
      have : 0 ≤ (k : Int) * bucketSeconds := Int.mul_nonneg (Int.natCast_nonneg k) hpos.le
      unfold bucketAt
      omega
    rw [hnext] at hstop ⊢
    rw [queryStarts_cons hpos (by omega : start < stop),
      queryStarts_cons hpos (by omega : start < bucketAt (start + bucketSeconds) bucketSeconds k),
      ih (start + bucketSeconds) hstop, List.cons_append]

theorem queryStarts_bounds (hpos : 0 < bucketSeconds) {k : Nat} {start b : Int}
    (hb : b ∈ queryStarts start (bucketAt start bucketSeconds k) bucketSeconds) :
    start ≤ b ∧ b + bucketSeconds ≤ bucketAt start bucketSeconds k := by
  obtain ⟨rounds, hrounds⟩ := bucketStarts_range (bucketAt start bucketSeconds k) bucketSeconds
    (bucketAt start bucketSeconds k - start).toNat start
  obtain ⟨hlow, hhigh⟩ := le_bucketStarts hpos hb
  rw [queryStarts, hrounds] at hb
  obtain ⟨j, _, rfl⟩ := List.mem_map.mp hb
  refine ⟨hlow, ?_⟩
  have hjk : j < k := by
    by_contra hle
    have : (k : Int) * bucketSeconds ≤ j * bucketSeconds :=
      Int.mul_le_mul_of_nonneg_right (by omega) hpos.le
    unfold bucketAt at hhigh
    omega
  have : ((j : Int) + 1) * bucketSeconds ≤ k * bucketSeconds :=
    Int.mul_le_mul_of_nonneg_right (by omega) hpos.le
  rw [add_mul, one_mul] at this
  unfold bucketAt
  omega

end Starts

section Values

variable [Field V] [LinearOrder V]

theorem bucketAcc_perm {xs ys : List (Point V)} (hperm : xs.Perm ys)
    (hts : timestamps xs = timestamps ys) (carry : Nat × Int) :
    bucketAcc carry xs = bucketAcc carry ys := by
  have hx := bucketAcc_stats carry xs
  have hy := bucketAcc_stats carry ys
  have hcarry : ((bucketAcc carry xs).distinctCount, (bucketAcc carry xs).prevTs) =
      ((bucketAcc carry ys).distinctCount, (bucketAcc carry ys).prevTs) :=
    (foldl_carry xs _).trans
      ((foldl_carryStep_timestamps hts _).trans (foldl_carry ys _).symm)
  obtain ⟨hdistinct, hprev⟩ := Prod.mk.inj hcarry
  by_cases hnil : xs = []
  · subst hnil
    rw [hperm.nil_eq]
  · have hne : ys ≠ [] := fun h => hnil (h ▸ hperm).eq_nil
    have hvalues : {v | v ∈ values xs} = {v | v ∈ values ys} := by
      ext v
      exact (hperm.map Point.value).mem_iff
    have hmin := (hvalues ▸ hx.least hnil).unique (hy.least hne)
    have hmax := (hvalues ▸ hx.greatest hnil).unique (hy.greatest hne)
    have hcount := (hx.count.trans hperm.length_eq).trans hy.count.symm
    have hsum := (hx.sum.trans (hperm.map Point.value).sum_eq).trans hy.sum.symm
    cases hax : bucketAcc carry xs
    cases hay : bucketAcc carry ys
    simp only [hax, hay] at hdistinct hprev hmin hmax hcount hsum
    rw [hdistinct, hprev, hmin, hmax, hcount, hsum]

theorem aggBucket_perm {xs ys : List (Point V)} (h : xs.Perm ys) (bstart bend : Int)
    (carry : Nat × Int) :
    aggBucket bstart bend (sortPoints xs) (.start carry.1 carry.2) =
      aggBucket bstart bend (sortPoints ys) (.start carry.1 carry.2) := by
  rw [aggBucket_eq _ _ (sortPoints_sorted xs), aggBucket_eq _ _ (sortPoints_sorted ys)]
  apply bucketAcc_perm
  · exact bucketPoints_perm _ _ (((sortPoints_perm xs).trans h).trans (sortPoints_perm ys).symm)
  · rw [timestamps_bucketPoints, timestamps_bucketPoints, timestamps_sortPoints h]

theorem aggBuckets_perm {xs ys : List (Point V)} (h : xs.Perm ys) (stop bucketSeconds : Int)
    (func : Text) (fuel : Nat) (bstart : Int) (carry : Nat × Int) :
    aggBuckets (sortPoints xs) stop bucketSeconds func fuel bstart carry.1 carry.2 =
      aggBuckets (sortPoints ys) stop bucketSeconds func fuel bstart carry.1 carry.2 := by
  induction fuel generalizing bstart carry with
  | zero => rfl
  | succ fuel ih =>
    unfold aggBuckets
    dsimp only
    rw [aggBucket_perm h]
    generalize aggBucket bstart (bstart + bucketSeconds) (sortPoints ys)
      (.start carry.1 carry.2) = acc
    rw [ih (bstart + bucketSeconds) (acc.distinctCount, acc.prevTs)]

theorem aggPoints_perm {xs ys : List (Point V)} (h : xs.Perm ys) (start stop bucketSeconds : Int)
    (func : Text) :
    aggPoints xs start stop bucketSeconds func = aggPoints ys start stop bucketSeconds func := by
  rw [aggPoints, aggPoints, aggBuckets_perm h stop bucketSeconds func _ start (0, 0)]

/-- The lines for some of the buckets, computed from all the points or from those of a longer
range that these buckets lie in. -/
theorem bucketLines_part {points : List (Point V)} {lo hi : Int} {bucketSeconds : Int}
    {func : Text} (hfunc : func ∈ meanFunctions) {starts : List Int}
    (hstarts : ∀ b ∈ starts, lo ≤ b ∧ b + bucketSeconds ≤ hi) (carry carry' : Int → Nat × Int) :
    starts.filterMap (bucketLine (sortPoints points) bucketSeconds func carry) =
      starts.filterMap (bucketLine (sortPoints (bucketPoints lo hi points)) bucketSeconds func
        carry') := by
  refine List.filterMap_congr fun b hb => ?_
  obtain ⟨hlow, hhigh⟩ := hstarts b hb
  have hinside : bucketPoints b (b + bucketSeconds) (bucketPoints lo hi points) =
      bucketPoints b (b + bucketSeconds) points := by
    rw [bucketPoints_bucketPoints, max_eq_left hlow, min_eq_left hhigh]
  have hperm : (bucketPoints b (b + bucketSeconds) (sortPoints points)).Perm
      (bucketPoints b (b + bucketSeconds) (sortPoints (bucketPoints lo hi points))) := by
    refine (bucketPoints_perm _ _ (sortPoints_perm points)).trans ?_
    rw [← hinside]
    exact (bucketPoints_perm _ _ (sortPoints_perm _)).symm
  rw [bucketLine, bucketLine]
  by_cases hnil : bucketPoints b (b + bucketSeconds) (sortPoints points) = []
  · rw [if_pos hnil, if_pos (hnil ▸ hperm).nil_eq.symm]
  · rw [if_neg hnil, if_neg fun h => hnil (h ▸ hperm).eq_nil,
      aggCell_perm (hperm.map Point.value) hnil hfunc]

theorem aggBuckets_nil (stop bucketSeconds : Int) (func : Text) (fuel : Nat) (bstart : Int)
    (carry : Nat × Int) :
    aggBuckets ([] : List (Point V)) stop bucketSeconds func fuel bstart carry.1 carry.2 =
      some [] := by
  induction fuel generalizing bstart with
  | zero => rfl
  | succ fuel ih =>
    unfold aggBuckets
    split
    · exact ih (bstart + bucketSeconds)
    · rfl

theorem aggPoints_nil (start stop bucketSeconds : Int) (func : Text) :
    aggPoints ([] : List (Point V)) start stop bucketSeconds func = .lines [] := by
  have h := @aggBuckets_nil V _ _ stop bucketSeconds func (stop - start).toNat start (0, 0)
  rw [aggPoints, sortPoints, List.insertionSort_nil, h]

variable {dataDir : Text}

theorem headAgg_stored {s : Store V} (h : Living dataDir (DistinctFiles dataDir) s)
    {metric : Text} {m : MetricState V} (hm : hashFindStr metric s = some m)
    {start stop bucketSeconds : Int} (hrange : start < stop) (hpos : 0 < bucketSeconds)
    (hraw : ¬ (dataDir ≠ [] ∧ downsampleShouldUse s metric start stop bucketSeconds))
    (func : Text) : headAgg dataDir metric start stop bucketSeconds func s =
      aggPoints (bucketPoints start stop (storedPoints m)) start stop bucketSeconds func := by
  have hcollect := aggCollect_raw
    (fun chunk hc => ((living_shelved h metric).metric m hm).reads hc) hraw
  rw [headAgg, if_neg (by omega), hm]
  dsimp only
  rw [hcollect]
  dsimp only
  split
  case isTrue hnil => rw [bucketPoints, hnil, aggPoints_nil]
  case isFalse => exact aggPoints_perm (sortPoints_perm _) start stop bucketSeconds func

/-- The states of every run in which a flush opens a file of its own, which then gives back what was
flushed. -/
def Filing (bits : V → BitVec 64) (dataDir : Text) : Store V → Prop :=
  Moving dataDir (fun s x => Faithful bits s x ∧ DistinctFiles dataDir s x.turn)

instance (s : Store V) (x : Attempt V) :
    Decidable (DistinctFiles dataDir s (Move.request x).turn) :=
  inferInstanceAs (Decidable
    (DistinctFiles dataDir s (.request ⟨x.unset, told x.io⟩ x.metric x.order)))

/-- What `Head_AGG` answers without coarse data is a matter of the stored points alone. However the
two metrics came to hold the same points in the range (which of them were flushed together, which
chunks expired, in which order a start found the files), they get the same answers. -/
theorem agg_of_stored {bits : V → BitVec 64} {dir dir' metric metric' : Text} {s s' : Store V}
    (h : Filing bits dir s) (h' : Filing bits dir' s')
    {m m' : MetricState V} (hm : hashFindStr metric s = some m)
    (hm' : hashFindStr metric' s' = some m') {start stop bucketSeconds : Int}
    (hraw : ¬ (dir ≠ [] ∧ downsampleShouldUse s metric start stop bucketSeconds))
    (hraw' : ¬ (dir' ≠ [] ∧ downsampleShouldUse s' metric' start stop bucketSeconds))
    (hsame : (bucketPoints start stop (storedPoints m)).Perm
      (bucketPoints start stop (storedPoints m'))) (func : Text) :
    headAgg dir metric start stop bucketSeconds func s =
      headAgg dir' metric' start stop bucketSeconds func s' := by
  by_cases hbad : bucketSeconds ≤ 0 ∨ stop ≤ start
  · rw [headAgg, headAgg, if_pos hbad, if_pos hbad]
  · have hrange : start < stop := by omega
    have hpos : 0 < bucketSeconds := by omega
    rw [headAgg_stored h.living hm hrange hpos hraw func,
      headAgg_stored h'.living hm' hrange hpos hraw' func]
    exact aggPoints_perm hsame start stop bucketSeconds func

private def twoMinutes : List (Attempt ℚ) :=
  [⟨0, .ok, ['m'], .put ⟨5, 1⟩⟩, ⟨0, .ok, ['m'], .flush⟩, ⟨0, .ok, ['m'], .put ⟨65, 3⟩⟩]

private def twoMinutesInHead : List (Attempt ℚ) :=
  [⟨0, .ok, ['m'], .put ⟨5, 1⟩⟩, ⟨0, .ok, ['m'], .put ⟨65, 3⟩⟩]

theorem agg_of_stored_flushed : ∃ (s s' : Store ℚ) (m m' : MetricState ℚ),
    hashFindStr ['m'] s = some m ∧ hashFindStr ['m'] s' = some m' ∧
    m.entry.head.points = [⟨65, 3⟩] ∧ m'.entry.head.points = [⟨5, 1⟩, ⟨65, 3⟩] ∧
    headAgg ['d'] ['m'] 0 100 60 "avg".toList s = headAgg ['d'] ['m'] 0 100 60 "avg".toList s' := by
  have hrun : ∃ s s' : Store ℚ,
      twoMinutes.foldlM (fun s x => Move.run ['d'] s (.request x)) Store.empty = some s ∧
      twoMinutesInHead.foldlM (fun s x => Move.run ['d'] s (.request x)) Store.empty =
        some s' ∧
      (hashFindStr ['m'] s).map (fun m => (m.entry.head.points, storedPoints m)) =
        some ([⟨65, 3⟩], [⟨5, 1⟩, ⟨65, 3⟩]) ∧
      (hashFindStr ['m'] s').map (fun m => (m.entry.head.points, storedPoints m)) =
        some ([⟨5, 1⟩, ⟨65, 3⟩], [⟨5, 1⟩, ⟨65, 3⟩]) := by
    refine ⟨_, _, rfl, rfl, ?_, ?_⟩ <;> decide +kernel
  obtain ⟨s, s', hs, hs', hm, hm'⟩ := hrun
  obtain ⟨m, hm, he⟩ := Option.map_eq_some_iff.mp hm
  obtain ⟨m', hm', he'⟩ := Option.map_eq_some_iff.mp hm'
  obtain ⟨hhead, hstored⟩ := Prod.mk.inj he
  obtain ⟨hhead', hstored'⟩ := Prod.mk.inj he'
  have hstart : Filing (fun _ => 0#64) ['d'] (Store.empty : Store ℚ) := .start rfl
  exact ⟨s, s', m, m', hm, hm', hhead, hhead', agg_of_stored
    (hstart.requests (by decide +kernel) hs) (hstart.requests (by decide +kernel) hs') hm hm'
    (by simp [downsampleShouldUse, downsampleAfterSeconds])
    (by simp [downsampleShouldUse, downsampleAfterSeconds]) (by rw [hstored, hstored']) _⟩

end Values

end Tsdb.AggAnswers
