import Tsdb.Buckets
import Tsdb.Means

namespace Tsdb.BucketValues

open CStrings Head Query Aggregate Buckets Means

variable {V : Type} [Field V] [LinearOrder V]

abbrev values (points : List (Point V)) : List V := points.map Point.value

structure Stats (points : List (Point V)) (acc : Acc V) : Prop where
  count : acc.count = points.length
  sum : acc.sum = (values points).sum
  least : points ≠ [] → IsLeast {x | x ∈ values points} acc.minv
  greatest : points ≠ [] → IsGreatest {x | x ∈ values points} acc.maxv

theorem foldl_sum (points : List (Point V)) (acc : Acc V) :
    (points.foldl Acc.add acc).sum = acc.sum + (values points).sum := by
  induction points generalizing acc with
  | nil => simp
  | cons p points ih =>
    have hcons : (values (p :: points)).sum = p.value + (values points).sum := List.sum_cons
    rw [List.foldl_cons, ih, hcons, ← add_assoc]
    rfl

theorem foldl_extremes (points : List (Point V)) (acc : Acc V) (hcount : acc.count ≠ 0) :
    (points.foldl Acc.add acc).minv = (values points).foldl min acc.minv ∧
      (points.foldl Acc.add acc).maxv = (values points).foldl max acc.maxv := by
  induction points generalizing acc with
  | nil => exact ⟨rfl, rfl⟩
  | cons p points ih =>
    obtain ⟨hmin, hmax⟩ := ih (acc.add p) (Nat.succ_ne_zero _)
    have hminv : (acc.add p).minv = min acc.minv p.value := by
      simp only [Acc.add, hcount, false_or]
      split
      case isTrue h => exact (min_eq_right h.le).symm
      case isFalse h => exact (min_eq_left (not_lt.mp h)).symm
    have hmaxv : (acc.add p).maxv = max acc.maxv p.value := by
      simp only [Acc.add, hcount, false_or]
      split
      case isTrue h => exact (max_eq_right h.le).symm
      case isFalse h => exact (max_eq_left (not_lt.mp h)).symm
    rw [List.foldl_cons, hmin, hmax, hminv, hmaxv]
    exact ⟨rfl, rfl⟩

theorem bucketAcc_stats (carry : Nat × Int) (points : List (Point V)) :
    Stats points (bucketAcc carry points) := by
  refine ⟨(foldl_count _ _).trans (Nat.zero_add _), (foldl_sum _ _).trans (zero_add _), ?_, ?_⟩
  all_goals
    intro hne
    obtain ⟨p, points, rfl⟩ := List.exists_cons_of_ne_nil hne
    obtain ⟨hmin, hmax⟩ := foldl_extremes points ((Acc.start carry.1 carry.2).add p)
      (Nat.succ_ne_zero _)
  · rw [bucketAcc, List.foldl_cons, hmin]
    exact List.min?_eq_some_iff.mp List.min?_cons'
  · rw [bucketAcc, List.foldl_cons, hmax]
    exact List.max?_eq_some_iff.mp List.max?_cons'

/-- The functions whose value only depends on the values in the bucket. -/
def meanFunctions : List Text :=
  ["avg".toList, "min".toList, "max".toList, "sum".toList, "count".toList]

omit [Field V] [LinearOrder V] in
theorem meanFunctions_known {func : Text} (h : func ∈ meanFunctions) : func ∈ aggFunctions :=
  List.mem_append_left ["Dcount".toList] h

theorem cell_avg {points : List (Point V)} {acc : Acc V} (h : Stats points acc) :
    aggCell "avg".toList acc = some (.real (mean (values points))) := by
  rw [aggCell, if_pos rfl, h.sum, h.count, mean, List.length_map]

theorem cell_sum {points : List (Point V)} {acc : Acc V} (h : Stats points acc) :
    aggCell "sum".toList acc = some (.real (values points).sum) := by
  rw [← h.sum]
  rfl

theorem cell_count {points : List (Point V)} {acc : Acc V} (h : Stats points acc) :
    aggCell "count".toList acc = some (.int (values points).length) := by
  rw [List.length_map, ← h.count]
  rfl

theorem cell_min {points : List (Point V)} {acc : Acc V} (h : Stats points acc)
    (hne : points ≠ []) {a : V} (ha : IsLeast {x | x ∈ values points} a) :
    aggCell "min".toList acc = some (.real a) := by
  rw [← (h.least hne).unique ha]
  rfl

theorem cell_max {points : List (Point V)} {acc : Acc V} (h : Stats points acc)
    (hne : points ≠ []) {a : V} (ha : IsGreatest {x | x ∈ values points} a) :
    aggCell "max".toList acc = some (.real a) := by
  rw [← (h.greatest hne).unique ha]
  rfl

theorem aggCell_perm {raw coarse : List (Point V)} (hperm : (values raw).Perm (values coarse))
    (hne : raw ≠ []) {func : Text} (hfunc : func ∈ meanFunctions) (c c' : Nat × Int) :
    aggCell func (bucketAcc c raw) = aggCell func (bucketAcc c' coarse) := by
  have hraw := bucketAcc_stats c raw
  have hcoarse := bucketAcc_stats c' coarse
  have hne' : coarse ≠ [] := by
    rintro rfl
    exact hne (List.map_eq_nil_iff.mp hperm.eq_nil)
  have hset : {x | x ∈ values raw} = {x | x ∈ values coarse} := by
    ext x
    exact hperm.mem_iff
  simp only [meanFunctions, List.mem_cons, List.not_mem_nil, or_false] at hfunc
  rcases hfunc with rfl | rfl | rfl | rfl | rfl
  · rw [cell_avg hraw, cell_avg hcoarse, mean_perm hperm]
  · rw [cell_min hraw hne (hset ▸ hcoarse.least hne'), cell_min hcoarse hne' (hcoarse.least hne')]
  · rw [cell_max hraw hne (hset ▸ hcoarse.greatest hne'),
      cell_max hcoarse hne' (hcoarse.greatest hne')]
  · rw [cell_sum hraw, cell_sum hcoarse, hperm.sum_eq]
  · rw [cell_count hraw, cell_count hcoarse, hperm.length_eq]

end Tsdb.BucketValues
