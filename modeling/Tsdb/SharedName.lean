import Tsdb.ChunkNames
import Tsdb.Isolation

namespace Tsdb.SharedName

open CStrings Head Files Registry Sections Query Aggregate Downsample Server Service CoarseDirs
  ChunkNames TwoStores Outcomes ListRoom Isolation Runs

section Run

variable {V : Type} [Zero V] {dataDir a : Text}

private def origin : Point V := ⟨0, 0⟩

private def fresh : MetricState V := ⟨⟨getNewHeadBlock 0, [], 4⟩, Dir.empty⟩

private def flushed (dataDir a : Text) : MetricState V :=
  moved (flushName dataDir a (origin : Point V)) origin (stored origin fresh)

private def alone (dataDir a : Text) : Store V :=
  (Store.empty.set a (stored origin fresh)).set a (flushed dataDir a)

/-- The same store after a point for the metric whose directory is the coarse directory. -/
private def shared (dataDir a : Text) : Store V :=
  (alone dataDir a).set (downsampleCoarseDir a) (stored origin fresh)

private def pointAndFlush (a : Text) : List (Operation V) :=
  [.request 0 .ok a (.put origin), .request 0 .ok a .flush]

private def takesName (a : Text) : List (Operation V) :=
  pointAndFlush a ++ [.request 0 .ok (downsampleCoarseDir a) (.put origin)]

theorem find_alone (dataDir a : Text) :
    hashFindStr a (alone dataDir a) = some (flushed dataDir a : MetricState V) := find_set _ _ _

theorem dirOf_alone (dataDir a : Text) :
    (alone dataDir a : Store V).dirOf (downsampleCoarseDir a) = Dir.empty := by
  rw [alone, dirOf_set_ne _ (coarseDir_ne a), dirOf_set_ne _ (coarseDir_ne a)]
  rfl

theorem without_takesName (a : Text) :
    without (downsampleCoarseDir a) (takesName a : List (Operation V)) = pointAndFlush a := by
  have hne := (coarseDir_ne a).symm
  simp [without, takesName, pointAndFlush, Operation.metric, hne]

variable [Add V] [Div V] [NatCast V]

theorem run_alone (hfits : PathFits dataDir a) :
    (pointAndFlush a).foldlM (Operation.run dataDir) Store.empty =
      some (alone dataDir a : Store V) := by
  have hname : flushName dataDir a (origin : Point V) ≠ [] := chunkName_ne_nil hfits _
  have hput : Operation.run dataDir (Store.empty : Store V) (.request 0 .ok a (.put origin)) =
      some (Store.empty.set a (stored origin fresh)) := rfl
  have hflush : Operation.run dataDir (Store.empty.set a (stored origin (fresh : MetricState V)))
      (.request 0 .ok a .flush) = some (alone dataDir a) := by
    have hmoved : ordered dataDir a .ok (stored origin (fresh : MetricState V)) .flush =
        flushed dataDir a := by
      rcases flushSection_cases dataDir a .ok (stored origin (fresh : MetricState V)) with
        ⟨hnil, _⟩ | ⟨first, hfirst, ⟨hfail, _⟩ | ⟨_, _, he⟩⟩
      · cases hnil
      · obtain rfl := Option.some.inj hfirst
        exact absurd hfail (by simpa using hname)
      · obtain rfl := Option.some.inj hfirst
        exact congrArg Prod.snd he
    rw [request_run, getMetricFromHashTable, find_set, Option.bind_some, hmoved]
    rfl
  simp only [pointAndFlush, List.foldlM_cons, List.foldlM_nil, hput, Option.bind_eq_bind,
    Option.bind_some, hflush]
  rfl

theorem run_shared (hfits : PathFits dataDir a) :
    (takesName a).foldlM (Operation.run dataDir) Store.empty =
      some (shared dataDir a : Store V) := by
  have hput : Operation.run dataDir (alone dataDir a : Store V)
      (.request 0 .ok (downsampleCoarseDir a) (.put origin)) = some (shared dataDir a) := by
    have hnone : hashFindStr (downsampleCoarseDir a) (alone dataDir a : Store V) = none := by
      rw [alone, find_set_ne _ (coarseDir_ne a), find_set_ne _ (coarseDir_ne a)]
      rfl
    rw [request_run, getMetricFromHashTable, hnone, dirOf_alone]
    rfl
  rw [takesName, List.foldlM_append, run_alone hfits]
  simp only [List.foldlM_cons, List.foldlM_nil, Option.bind_eq_bind, Option.bind_some, hput]
  rfl

variable [LT V] [DecidableLT V]

theorem agg_alone (dataDir a : Text) :
    headAgg dataDir a 0 3600 3600 "count".toList (alone dataDir a : Store V) =
      .lines [⟨0, 3600, .int 1⟩] := by
  have hcollect : aggCollect dataDir a 0 3600 3600 (alone dataDir a : Store V) (flushed dataDir a) =
      some [origin] := by
    have hread : chunkRead (flushed dataDir a : MetricState V).dir
        (flushName dataDir a (origin : Point V)) = some ⟨0, 0, [origin]⟩ :=
      chunkRead_write_self _ _ _
    have hraw : collectRaw 0 3600 (flushed dataDir a : MetricState V) = some [origin] := by
      have hchunks : ((flushed dataDir a : MetricState V).entry.chunks.filter fun chunk =>
          chunk.startTs < 3600 ∧ 0 ≤ chunk.endTs) =
            [⟨0, 0, flushName dataDir a (origin : Point V)⟩] := rfl
      rw [collectRaw, hchunks, List.foldlM_cons, collectPointsFromChunk, hread]
      rfl
    rw [aggCollect, if_neg fun h => by simp [downsampleShouldUse, dirOf_alone, Dir.empty] at h, hraw]
    rfl
  rw [headAgg, find_alone, if_neg (by decide)]
  simp only [hcollect]
  rfl

theorem agg_shared (hdata : dataDir ≠ []) (a : Text) :
    headAgg dataDir a 0 3600 3600 "count".toList (shared dataDir a : Store V) = .lines [] := by
  have hcollect : aggCollect dataDir a 0 3600 3600 (shared dataDir a : Store V) (flushed dataDir a) =
      some [] := by
    have hdir : (shared dataDir a : Store V).dirOf (downsampleCoarseDir a) =
        (stored origin fresh).dir := dirOf_set _ _ _
    rw [aggCollect, if_pos ⟨hdata, by rw [downsampleShouldUse, hdir]; rfl⟩, hdir]
    rfl
  rw [headAgg, shared, find_set_ne _ (coarseDir_ne a).symm, ← shared, find_alone, if_neg (by decide)]
  simp only [hcollect]
  rfl

omit [Zero V] [Add V] [Div V] [NatCast V] [LT V] [DecidableLT V] in
theorem texts_differ (fmt : V → Text) :
    aggText fmt (.lines []) ≠ aggText fmt (.lines [⟨0, 3600, .int 1⟩]) := by
  simp only [aggText, List.flatMap_nil, List.flatMap_cons, lineText, wholeLine, List.length_nil,
    List.length_singleton]
  decide

omit [Add V] [Div V] [NatCast V] [LT V] [DecidableLT V] in
theorem takesName_named (ha : MetricName a) (hb : MetricName (downsampleCoarseDir a)) :
    ClientNames (takesName a : List (Operation V)) := by
  intro op hop k hk
  simp only [takesName, pointAndFlush, List.cons_append, List.nil_append, List.mem_cons,
    List.not_mem_nil, or_false] at hop
  rcases hop with rfl | rfl | rfl
  · exact Option.some.inj hk ▸ ha
  · exact Option.some.inj hk ▸ ha
  · exact Option.some.inj hk ▸ hb

omit [LT V] [DecidableLT V] in
theorem takesName_spares : Allowed (Spares dataDir (downsampleCoarseDir a))
    (Operation.run dataDir) (takesName a : List (Operation V)) Store.empty := by
  have hne := (coarseDir_ne a).symm
  refine ⟨put_spares rfl 0 .ok origin, fun s1 h1 => ⟨fun ha => absurd ha hne, fun s2 h2 =>
    ⟨put_spares ?_ 0 .ok origin, fun _ _ => trivial⟩⟩⟩
  obtain ⟨m1, rfl⟩ := request_sets h1
  obtain ⟨m2, rfl⟩ := request_sets h2
  rw [find_set_ne _ hne.symm, find_set_ne _ hne.symm]
  rfl

theorem shared_name_mixes (hdata : dataDir ≠ []) (hfits : PathFits dataDir a) :
    ¬ Isolated dataDir a (downsampleCoarseDir a) (takesName a : List (Operation V)) := by
  intro hiso
  have hsame := hiso (takesName a) (List.prefix_refl _)
  rw [run_shared hfits, without_takesName, run_alone hfits] at hsame
  have hanswer := hsame ⟨fun _ => [], fun _ => []⟩ ⟨0, .ok⟩
    ⟨.agg, a, 0, 0, 0, 3600, 3600, "count".toList⟩ rfl (by simp)
  simp only [processRequest, handleAgg, agg_alone, agg_shared hdata, Option.map_some,
    Option.some.injEq, Response.mk.injEq, true_and] at hanswer
  exact texts_differ _ hanswer

end Run

theorem data_fits (name : Text) (h : MetricName name) : PathFits "./data".toList name := by
  have hlen : "./data".toList.length = 6 := by decide
  have := h.2.1
  unfold PathFits
  omega

end Tsdb.SharedName
