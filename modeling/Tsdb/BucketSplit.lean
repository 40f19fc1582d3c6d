import Tsdb.MinuteBuckets

namespace Tsdb.BucketSplit

open CStrings Head Files Registry Query History Service Disk Aggregate Downsample Minutes Buckets
  Means BucketValues CoarseFiles CoarseRuns CoarseSound CoarseOnly CoarseQuery MinuteBuckets Runs

variable {V : Type} [Field V]

/-- The values of a bucket, the ones on disk by minute. -/
structure Split (lo hi : Int) (m : MetricState V) (minutes : ChunkMetadata → List (Minute V))
    (raw coarse : List (Point V)) : Prop where
  minutesOf : MinutesOf m minutes
  uncut : Uncut lo hi m
  raw : raw.Perm (bucketPoints lo hi (storedPoints m))
  coarse : coarse.Perm
    (bucketPoints lo hi (allCoarsePoints m) ++ bucketPoints lo hi m.entry.head.points)

section Split

variable {lo hi : Int} {m : MetricState V} {minutes : ChunkMetadata → List (Minute V)}
  {raw coarse : List (Point V)}

def groups (lo hi : Int) (m : MetricState V) (minutes : ChunkMetadata → List (Minute V)) :
    List (List V) :=
  (bucketMinutes lo hi m minutes).map fun x => values x.2

theorem Split.raw_values (h : Split lo hi m minutes raw coarse) :
    (values raw).Perm
      ((groups lo hi m minutes).flatten ++ values (bucketPoints lo hi m.entry.head.points)) := by
  refine (h.raw.map Point.value).trans (List.Perm.of_eq ?_)
  rw [storedPoints, bucketPoints, List.filter_append, List.map_append]
  refine congrArg (· ++ _) ?_
  have hraw := raw_bucket h.minutesOf h.uncut
  rw [bucketPoints] at hraw
  rw [hraw, List.map_flatMap, groups, List.flatMap_def]

theorem Split.coarse_values (h : Split lo hi m minutes raw coarse) :
    (values coarse).Perm
      ((groups lo hi m minutes).map mean ++ values (bucketPoints lo hi m.entry.head.points)) := by
  refine (h.coarse.map Point.value).trans (List.Perm.of_eq ?_)
  rw [coarse_bucket h.minutesOf, List.map_append, List.map_map, groups, List.map_map]
  refine congrArg (· ++ _) (List.map_congr_left fun x _ => ?_)
  exact average_eq_mean x.2

theorem Split.group (h : Split lo hi m minutes raw coarse) {g : List V}
    (hg : g ∈ groups lo hi m minutes) : ∃ x ∈ diskPoints lo hi m,
      g = values (minuteGroup m.dir x.1 x.2) ∧ g ≠ [] := by
  obtain ⟨x, hx, rfl⟩ := List.mem_map.mp hg
  obtain ⟨chunk, hc, hx, hin⟩ := mem_bucketMinutes.mp hx
  have hne := (h.minutesOf.divides chunk hc).nonempty x hx
  obtain ⟨p, hp⟩ := List.exists_mem_of_ne_nil x.2 hne
  obtain ⟨hmem, hts, hgroup⟩ := h.minutesOf.stamp hc hx hp
  refine ⟨(chunk, p), mem_diskPoints.mpr ⟨hc, hmem, (h.uncut chunk hc p hmem).mpr ?_⟩, ?_, ?_⟩
  · rw [InRange, hts]
    exact hin
  · rw [hgroup]
  · exact fun hnil => hne (List.map_eq_nil_iff.mp hnil)

theorem Split.minute (h : Split lo hi m minutes raw coarse) {x : ChunkMetadata × Point V}
    (hx : x ∈ diskPoints lo hi m) :
    values (minuteGroup m.dir x.1 x.2) ∈ groups lo hi m minutes := by
  obtain ⟨chunk, p⟩ := x
  obtain ⟨hc, hp, hin⟩ := mem_diskPoints.mp hx
  have hflat := (h.minutesOf.divides chunk hc).flatten
  rw [← hflat] at hp
  obtain ⟨y, hy, hpy⟩ := List.mem_flatMap.mp hp
  obtain ⟨hmem, hts, hgroup⟩ := h.minutesOf.stamp hc hy hpy
  have hyin := (h.uncut chunk hc p hmem).mp hin
  rw [InRange, hts] at hyin
  exact List.mem_map.mpr ⟨y, mem_bucketMinutes.mpr ⟨chunk, hc, hy, hyin⟩, by rw [hgroup]⟩

theorem Split.groups_nil (h : Split lo hi m minutes raw coarse) :
    (groups lo hi m minutes).flatten = [] ↔ (groups lo hi m minutes).map mean = [] := by
  rw [List.map_eq_nil_iff, List.flatten_eq_nil_iff]
  refine ⟨fun hnil => List.eq_nil_iff_forall_not_mem.mpr fun g hg => ?_, fun hnil => ?_⟩
  · obtain ⟨_, _, _, hne⟩ := h.group hg
    exact hne (hnil g hg)
  · rw [hnil]
    exact fun _ hg => absurd hg List.not_mem_nil

theorem Split.empty_iff (h : Split lo hi m minutes raw coarse) : raw = [] ↔ coarse = [] := by
  have hnil {xs ys : List V} (hperm : xs.Perm ys) : xs = [] ↔ ys = [] :=
    ⟨fun hx => (hx ▸ hperm).symm.eq_nil, fun hy => (hy ▸ hperm).eq_nil⟩
  rw [← @List.map_eq_nil_iff _ _ Point.value raw, ← @List.map_eq_nil_iff _ _ Point.value coarse,
    hnil h.raw_values, hnil h.coarse_values, List.append_eq_nil_iff, List.append_eq_nil_iff,
    h.groups_nil]

theorem Split.single (h : Split lo hi m minutes raw coarse) (hsingle : SinglePoints lo hi m) :
    (values raw).Perm (values coarse) := by
  have hlen : ∀ g ∈ groups lo hi m minutes, g.length = 1 := by
    intro g hg
    obtain ⟨x, hx, rfl, _⟩ := h.group hg
    rw [List.length_map]
    exact hsingle x hx
  refine h.raw_values.trans ?_
  rw [← map_mean_singletons hlen]
  exact h.coarse_values.symm

theorem Split.even (h : Split lo hi m minutes raw coarse) (heven : EvenMinutes lo hi m) :
    mean (values raw) = mean (values coarse) := by
  obtain ⟨hhead, heven⟩ := heven
  have hraw := h.raw_values
  have hcoarse := h.coarse_values
  have hrest : values (bucketPoints lo hi m.entry.head.points) = [] := by
    rw [hhead]
    rfl
  rw [hrest, List.append_nil] at hraw hcoarse
  rw [mean_perm hraw, mean_perm hcoarse]
  cases hg : groups lo hi m minutes with
  | nil => rfl
  | cons g gs =>
    rw [← hg]
    have hmem : g ∈ groups lo hi m minutes := by rw [hg]; exact List.mem_cons_self
    obtain ⟨x, hx, hgx, _⟩ := h.group hmem
    have hlen : ∀ g' ∈ groups lo hi m minutes, g'.length = g.length := by
      intro g' hg'
      obtain ⟨y, hy, rfl, _⟩ := h.group hg'
      rw [hgx, List.length_map, List.length_map]
      exact heven y hy x hx
    exact (mean_means hlen).symm

theorem Split.whole (h : Split lo hi m minutes raw coarse) {v : V} (hwhole : Whole lo hi m v) :
    v ∈ values (bucketPoints lo hi m.entry.head.points) ∨
      ∃ g ∈ groups lo hi m minutes, ∀ x ∈ g, x = v := by
  rcases hwhole with ⟨p, hp, rfl⟩ | ⟨x, hx, hv⟩
  · exact .inl (List.mem_map_of_mem hp)
  · refine .inr ⟨_, h.minute hx, fun y hy => ?_⟩
    obtain ⟨q, hq, rfl⟩ := List.mem_map.mp hy
    exact hv q hq

end Split

variable [LinearOrder V]

/-- Averaging the minutes of the bucket `[lo, hi)` does not show in this function's value. -/
def Agrees (func : Text) (lo hi : Int) (m : MetricState V) : Prop :=
  Uncut lo hi m ∧
    if func = "avg".toList then SinglePoints lo hi m ∨ EvenMinutes lo hi m
    else if func = "min".toList then
      ∀ p ∈ bucketPoints lo hi (storedPoints m),
        (∀ q ∈ bucketPoints lo hi (storedPoints m), p.value ≤ q.value) → Whole lo hi m p.value
    else if func = "max".toList then
      ∀ p ∈ bucketPoints lo hi (storedPoints m),
        (∀ q ∈ bucketPoints lo hi (storedPoints m), q.value ≤ p.value) → Whole lo hi m p.value
    else SinglePoints lo hi m

instance (func : Text) (lo hi : Int) (m : MetricState V) : Decidable (Agrees func lo hi m) := by
  unfold Agrees
  infer_instance

theorem Split.least [IsStrictOrderedRing V] {lo hi : Int} {m : MetricState V}
    {minutes : ChunkMetadata → List (Minute V)} {raw coarse : List (Point V)}
    (h : Split lo hi m minutes raw coarse) {v : V} (hv : IsLeast {x | x ∈ values raw} v)
    (hwhole : Whole lo hi m v) : IsLeast {x | x ∈ values coarse} v := by
  have hset : {x | x ∈ values coarse} = {x | x ∈ (groups lo hi m minutes).map mean ++
      values (bucketPoints lo hi m.entry.head.points)} := Set.ext fun _ => h.coarse_values.mem_iff
  rw [hset]
  refine isLeast_means (fun g hg => (h.group hg).elim fun _ hx => hx.2.2) ?_ (h.whole hwhole)
  exact ⟨h.raw_values.mem_iff.mp hv.1, fun x hx => hv.2 (h.raw_values.mem_iff.mpr hx)⟩

theorem Split.greatest [IsStrictOrderedRing V] {lo hi : Int} {m : MetricState V}
    {minutes : ChunkMetadata → List (Minute V)} {raw coarse : List (Point V)}
    (h : Split lo hi m minutes raw coarse) {v : V} (hv : IsGreatest {x | x ∈ values raw} v)
    (hwhole : Whole lo hi m v) : IsGreatest {x | x ∈ values coarse} v := by
  have hset : {x | x ∈ values coarse} = {x | x ∈ (groups lo hi m minutes).map mean ++
      values (bucketPoints lo hi m.entry.head.points)} := Set.ext fun _ => h.coarse_values.mem_iff
  rw [hset]
  refine isGreatest_means (fun g hg => (h.group hg).elim fun _ hx => hx.2.2) ?_ (h.whole hwhole)
  exact ⟨h.raw_values.mem_iff.mp hv.1, fun x hx => hv.2 (h.raw_values.mem_iff.mpr hx)⟩

theorem Split.cell [IsStrictOrderedRing V] {lo hi : Int} {m : MetricState V}
    {minutes : ChunkMetadata → List (Minute V)} {raw coarse : List (Point V)}
    (h : Split lo hi m minutes raw coarse) {func : Text} (hfunc : func ∈ meanFunctions)
    (hagrees : Agrees func lo hi m) (hne : raw ≠ []) (c c' : Nat × Int) :
    aggCell func (bucketAcc c raw) = aggCell func (bucketAcc c' coarse) := by
  have hraw := bucketAcc_stats c raw
  have hcoarse := bucketAcc_stats c' coarse
  have hne' : coarse ≠ [] := mt h.empty_iff.mpr hne
  have hperm (hsingle : SinglePoints lo hi m) := aggCell_perm (h.single hsingle) hne hfunc c c'
  have hagrees := hagrees.2
  simp only [meanFunctions, List.mem_cons, List.not_mem_nil, or_false] at hfunc
  rcases hfunc with rfl | rfl | rfl | rfl | rfl
  · rw [if_pos rfl] at hagrees
    rcases hagrees with hsingle | heven
    · exact hperm hsingle
    · rw [cell_avg hraw, cell_avg hcoarse, h.even heven]
  · rw [if_neg (by decide), if_pos rfl] at hagrees
    have hleast := hraw.least hne
    obtain ⟨p, hp, hv⟩ := List.mem_map.mp hleast.1
    have hwhole : Whole lo hi m (bucketAcc c raw).minv := by
      rw [← hv]
      refine hagrees p (h.raw.mem_iff.mp hp) fun q hq => ?_
      rw [hv]
      exact hleast.2 (List.mem_map_of_mem (h.raw.mem_iff.mpr hq))
    rw [cell_min hraw hne hleast, cell_min hcoarse hne' (h.least hleast hwhole)]
  · rw [if_neg (by decide), if_neg (by decide), if_pos rfl] at hagrees
    have hgreatest := hraw.greatest hne
    obtain ⟨p, hp, hv⟩ := List.mem_map.mp hgreatest.1
    have hwhole : Whole lo hi m (bucketAcc c raw).maxv := by
      rw [← hv]
      refine hagrees p (h.raw.mem_iff.mp hp) fun q hq => ?_
      rw [hv]
      exact hgreatest.2 (List.mem_map_of_mem (h.raw.mem_iff.mpr hq))
    rw [cell_max hraw hne hgreatest, cell_max hcoarse hne' (h.greatest hgreatest hwhole)]
  · rw [if_neg (by decide), if_neg (by decide), if_neg (by decide)] at hagrees
    exact hperm hagrees
  · rw [if_neg (by decide), if_neg (by decide), if_neg (by decide)] at hagrees
    exact hperm hagrees

end Tsdb.BucketSplit
