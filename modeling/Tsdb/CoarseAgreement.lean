import Tsdb.BucketSplit

namespace Tsdb.CoarseAgreement

open CStrings Head Files Registry Query History Service Disk Aggregate Downsample Minutes Buckets
  BucketValues CoarseDirs CoarseFiles CoarseSteps CoarseSound CoarseOnly CoarseQuery MinuteBuckets
  BucketSplit Runs

variable {V : Type}

theorem bucketPoints_inRange {start stop lo bend : Int} (hlo : start ≤ lo) (points : List (Point V)) :
    bucketPoints lo bend (points.filter fun p => InRange start stop p) =
      bucketPoints lo (min bend stop) points := by
  rw [bucketPoints, bucketPoints, List.filter_filter]
  refine List.filter_congr fun p _ => ?_
  rw [← Bool.decide_and, decide_eq_decide]
  unfold InRange
  omega

variable [Field V] [LinearOrder V]

theorem bucketLine_ends {points : List (Point V)} {bucketSeconds : Int} {func : Text}
    {carry : Int → Nat × Int} {b : Int} {line : Line V}
    (h : line ∈ bucketLine points bucketSeconds func carry b) :
    line.bstart = b ∧ line.bend = b + bucketSeconds := by
  simp only [bucketLine, Option.mem_def] at h
  split at h
  case isTrue => cases h
  case isFalse =>
    obtain ⟨cell, _, rfl⟩ := Option.map_eq_some_iff.mp h
    exact ⟨rfl, rfl⟩

theorem bucketLine_agrees [IsStrictOrderedRing V] {m : MetricState V}
    {minutes : ChunkMetadata → List (Minute V)} (hminutes : MinutesOf m minutes)
    {start stop b bucketSeconds : Int} (hb : start ≤ b) {func : Text}
    (hfunc : func ∈ meanFunctions) (hagrees : Agrees func b (min (b + bucketSeconds) stop) m)
    {raw coarse : List (Point V)}
    (hraw : raw.Perm ((storedPoints m).filter fun p => InRange start stop p))
    (hcoarse : coarse.Perm
      ((allCoarsePoints m ++ m.entry.head.points).filter fun p => InRange start stop p))
    (carry carry' : Int → Nat × Int) :
    bucketLine (sortPoints coarse) bucketSeconds func carry b =
      bucketLine (sortPoints raw) bucketSeconds func carry' b := by
  have hsplit : Split b (min (b + bucketSeconds) stop) m minutes
      (bucketPoints b (b + bucketSeconds) (sortPoints raw))
      (bucketPoints b (b + bucketSeconds) (sortPoints coarse)) := by
    refine ⟨hminutes, hagrees.1, ?_, ?_⟩
    · rw [← bucketPoints_inRange hb]
      exact bucketPoints_perm _ _ ((sortPoints_perm raw).trans hraw)
    · have hsplit := bucketPoints_perm b (b + bucketSeconds)
        ((sortPoints_perm coarse).trans hcoarse)
      rw [bucketPoints_inRange hb] at hsplit
      exact hsplit.trans (List.Perm.of_eq (List.filter_append _ _))
  rw [bucketLine, bucketLine]
  by_cases hnil : bucketPoints b (b + bucketSeconds) (sortPoints raw) = []
  · simp only [hnil, hsplit.empty_iff.mp hnil, if_true]
  · simp only [hnil, mt hsplit.empty_iff.mpr hnil, if_false]
    rw [hsplit.cell hfunc hagrees hnil (carry' b) (carry b)]

omit [Field V] [LinearOrder V] in
theorem chunks_nodup {dataDir metric : Text} {l : Ledger V} (h : OnDisk dataDir metric l) :
    l.metric.entry.chunks.Nodup :=
  List.Nodup.of_map _ h.distinct

theorem headAgg_raw {dataDir metric : Text} {start stop bucketSeconds : Int} {s : Store V}
    (h : ¬ (dataDir ≠ [] ∧ downsampleShouldUse s metric start stop bucketSeconds = true))
    (func : Text) : headAgg dataDir metric start stop bucketSeconds func s =
      headAgg [] metric start stop bucketSeconds func s := by
  have hcollect (m : MetricState V) : aggCollect dataDir metric start stop bucketSeconds s m =
      aggCollect [] metric start stop bucketSeconds s m := by
    rw [aggCollect, aggCollect, if_neg h, if_neg fun h => h.1 rfl]
  unfold headAgg
  simp only [hcollect]

/-- With every chunk downsampled, the coarse path and the raw path print the same line for each
bucket in which averaging minutes does not show. -/
theorem coarse_agrees [IsStrictOrderedRing V] {dataDir : Text} {bits : V → BitVec 64} {j : Journal V}
    (h : Stepping dataDir bits j) {metric : Text} {m : MetricState V}
    (hm : hashFindStr metric j.store = some m)
    (hother : hashFindStr (downsampleCoarseDir metric) j.store = none)
    (hall : ∀ chunk ∈ m.entry.chunks,
      chunkId chunk.startTs ∈ (j.store.dirOf (downsampleCoarseDir metric)).done)
    {start stop bucketSeconds : Int} (hrange : 3600 ≤ stop - start) (hbucket : 60 ≤ bucketSeconds)
    {func : Text} (hfunc : func ∈ meanFunctions) :
    ∃ coarse raw,
      headAgg dataDir metric start stop bucketSeconds func j.store = .lines coarse ∧
      headAgg [] metric start stop bucketSeconds func j.store = .lines raw ∧
      coarse.filter (fun line => Agrees func line.bstart (min line.bend stop) m) =
        raw.filter (fun line => Agrees func line.bstart (min line.bend stop) m) := by
  obtain ⟨⟨flushed, hd⟩, hok⟩ := (running_sound h.running metric).found m hm
  have hpos : 0 < bucketSeconds := by omega
  have hlt : start < stop := by omega
  have hknown := meanFunctions_known hfunc
  have hraw : aggCollect [] metric start stop bucketSeconds j.store m =
      some ((storedPoints m).filter fun p => InRange start stop p) := by
    rw [aggCollect, if_neg fun h => h.1 rfl, OnDisk.collectRaw_eq hd, storedPoints,
      List.filter_append]
    rfl
  obtain ⟨carry', hrawLines⟩ := headAgg_lines hm hlt hpos hknown hraw
  by_cases huse : dataDir ≠ [] ∧ downsampleShouldUse j.store metric start stop bucketSeconds = true
  · obtain ⟨minutes, hminutes⟩ :=
      exists_minutesOf fun chunk hc => (OnDisk.reads_chunk hd hc).2
    have honly := fun name hread => running_onlyCoarse h.running metric hother name hread
    have hperm := collectCoarse_perm hok (chunks_nodup hd) hall (fun name hread => by
      obtain ⟨m', hm', hc⟩ := honly name hread
      obtain rfl := Option.some.inj (hm.symm.trans hm')
      exact hc) start stop
    have hcoarse : aggCollect dataDir metric start stop bucketSeconds j.store m =
        some (collectCoarse start stop (j.store.dirOf (downsampleCoarseDir metric)) ++
          collectPointsFromHead start stop m.entry.head) := by
      rw [aggCollect, if_pos huse]
      rfl
    obtain ⟨carry, hcoarseLines⟩ := headAgg_lines hm hlt hpos hknown hcoarse
    refine ⟨_, _, hcoarseLines, hrawLines, ?_⟩
    rw [List.filter_filterMap, List.filter_filterMap]
    refine List.filterMap_congr fun b hb => ?_
    by_cases hagrees : Agrees func b (min (b + bucketSeconds) stop) m
    · rw [bucketLine_agrees hminutes (le_bucketStarts hpos hb).1 hfunc hagrees (.refl _) ?_ carry
        carry']
      rw [List.filter_append]
      exact hperm.append_right _
    · have hnone (points : List (Point V)) (carry : Int → Nat × Int) :
          (bucketLine points bucketSeconds func carry b).filter
            (fun line => Agrees func line.bstart (min line.bend stop) m) = none := by
        refine Option.filter_eq_none_iff.mpr fun line hline => ?_
        obtain ⟨hstart, hend⟩ := bucketLine_ends hline
        rw [hstart, hend, decide_eq_true_iff]
        exact hagrees
      rw [hnone, hnone]
  · exact ⟨_, _, (headAgg_raw huse func).trans hrawLines, hrawLines, rfl⟩

private def averagedEvents : List (Step ℚ) :=
  [.request ⟨7, .ok, ['m'], .put ⟨0, 0⟩⟩, .request ⟨7, .ok, ['m'], .put ⟨30, 2⟩⟩,
    .request ⟨7, .ok, ['m'], .put ⟨60, 5⟩⟩, .request ⟨7, .ok, ['m'], .flush⟩,
    .round 10000 ⟨true, .ok, .ok, true⟩ ['m'] 0]

theorem coarse_agrees_two_minutes : ∃ (j : Journal ℚ) (m : MetricState ℚ),
    hashFindStr ['m'] j.store = some m ∧ ∃ coarse raw,
      headAgg ['d'] ['m'] 0 3600 60 "avg".toList j.store = .lines coarse ∧
      headAgg [] ['m'] 0 3600 60 "avg".toList j.store = .lines raw ∧
      coarse.filter (fun line => Agrees "avg".toList line.bstart (min line.bend 3600) m) =
        raw.filter (fun line => Agrees "avg".toList line.bstart (min line.bend 3600) m) ∧
      Agrees "avg".toList 0 60 m ∧ coarse = [⟨0, 60, .real 1⟩, ⟨60, 120, .real 5⟩] := by
  have hallowed : Allowed (Admits ['d'] fun _ => 0#64) (Step.run ['d']) averagedEvents
    Journal.empty := by decide
  obtain ⟨j, hj, hm⟩ := Option.bind_eq_some_iff.mp (show
    ((averagedEvents.foldlM (Step.run ['d']) Journal.empty).bind fun j =>
      (hashFindStr ['m'] j.store).map fun m =>
        decide ((hashFindStr (downsampleCoarseDir ['m']) j.store).isNone = true ∧
          (∀ chunk ∈ m.entry.chunks,
            chunkId chunk.startTs ∈ (j.store.dirOf (downsampleCoarseDir ['m'])).done) ∧
          Agrees "avg".toList 0 60 m ∧
          headAgg ['d'] ['m'] 0 3600 60 "avg".toList j.store =
            .lines [⟨0, 60, .real 1⟩, ⟨60, 120, .real 5⟩])) = some true by decide +kernel)
  obtain ⟨m, hm, hp⟩ := Option.map_eq_some_iff.mp hm
  obtain ⟨hother, hall, hagrees, hcoarse⟩ := of_decide_eq_true hp
  have hreach : Stepping ['d'] (fun _ => 0#64) j := .run (.start rfl) _ hallowed hj
  obtain ⟨coarse, raw, hc, hr, heq⟩ := coarse_agrees hreach hm (Option.isNone_iff_eq_none.mp hother)
    hall (show 3600 ≤ 3600 - 0 by decide) (show 60 ≤ 60 by decide)
    (show "avg".toList ∈ meanFunctions by decide)
  exact ⟨j, m, hm, coarse, raw, hc, hr, heq, hagrees, AggAnswer.lines.inj (hc.symm.trans hcoarse)⟩

/-- The sum over a minute of two points is not their average. -/
theorem coarse_disagrees : ¬ ∀ (j : Journal ℚ), Stepping ['d'] (fun _ => 0#64) j →
    ∀ m ∈ hashFindStr ['m'] j.store, (∀ chunk ∈ m.entry.chunks,
      chunkId chunk.startTs ∈ (j.store.dirOf (downsampleCoarseDir ['m'])).done) →
    ∀ start stop bucketSeconds : Int, 3600 ≤ stop - start → 60 ≤ bucketSeconds →
    ∀ func ∈ meanFunctions, headAgg ['d'] ['m'] start stop bucketSeconds func j.store =
      headAgg [] ['m'] start stop bucketSeconds func j.store := by
  intro h
  have hallowed : Allowed (Admits ['d'] fun _ => 0#64) (Step.run ['d']) averagedEvents
    Journal.empty := by decide
  obtain ⟨j, hj, hm⟩ := Option.bind_eq_some_iff.mp (show
    ((averagedEvents.foldlM (Step.run ['d']) Journal.empty).bind fun j =>
      (hashFindStr ['m'] j.store).map fun m =>
        decide ((∀ chunk ∈ m.entry.chunks,
            chunkId chunk.startTs ∈ (j.store.dirOf (downsampleCoarseDir ['m'])).done) ∧
          headAgg ['d'] ['m'] 0 3600 1200 "sum".toList j.store = .lines [⟨0, 1200, .real 6⟩] ∧
          headAgg [] ['m'] 0 3600 1200 "sum".toList j.store = .lines [⟨0, 1200, .real 7⟩])) =
      some true by decide +kernel)
  obtain ⟨m, hm, hp⟩ := Option.map_eq_some_iff.mp hm
  obtain ⟨hall, hcoarse, hraw⟩ := of_decide_eq_true hp
  have hreach : Stepping ['d'] (fun _ => 0#64) j := .run (.start rfl) _ hallowed hj
  have heq := h j hreach m hm hall 0 3600 1200 (by decide) (by decide) "sum".toList (by decide)
  rw [hcoarse, hraw] at heq
  exact absurd heq (by decide)

end Tsdb.CoarseAgreement
