import Tsdb.AggAnswers
import Tsdb.Survival

namespace Tsdb.Extremes

open CStrings Head Files Registry Query History Service Disk Recovery Retention Reads Aggregate
  Buckets BucketValues BucketLines Downsample AggAnswers Lifetime Keeping Survival

variable {V : Type}

def extremes : List Text := ["min".toList, "max".toList]

section Collected

variable {start stop : Int}

theorem mem_collected {m : MetricState V} {points : List (Point V)}
    (h : collectRaw start stop m = some points) (p : Point V) :
    p ∈ points ↔ InRange start stop p ∧ ∃ chunk ∈ m.entry.chunks,
      (chunk.startTs < stop ∧ start ≤ chunk.endTs) ∧ p ∈ chunkPoints m.dir chunk := by
  have hloop (chunks : List ChunkMetadata) (before : List (Point V))
      (hrun : chunks.foldlM (fun points chunk => (collectPointsFromChunk start stop m.dir
        chunk.filename).map (points ++ ·)) before = some points) :
      p ∈ points ↔ p ∈ before ∨ InRange start stop p ∧
        ∃ chunk ∈ chunks, p ∈ chunkPoints m.dir chunk := by
    induction chunks generalizing before with
    | nil =>
      obtain rfl := Option.some.inj hrun
      simp
    | cons chunk chunks ih =>
      rw [List.foldlM_cons] at hrun
      obtain ⟨more, hmore, hrun⟩ := Option.bind_eq_some_iff.mp hrun
      obtain ⟨part, hpart, rfl⟩ := Option.map_eq_some_iff.mp hmore
      obtain ⟨data, hread, rfl⟩ := Option.map_eq_some_iff.mp hpart
      have hpoints : chunkPoints m.dir chunk = data.points := by
        rw [chunkPoints, hread]
        rfl
      rw [ih _ hrun, List.mem_append, List.mem_filter, decide_eq_true_iff, List.exists_mem_cons_iff,
        hpoints]
      tauto
  rw [hloop _ [] h]
  simp only [List.not_mem_nil, false_or, List.mem_filter, decide_eq_true_iff]
  tauto

end Collected

section Values

variable [Field V] [LinearOrder V]

theorem aggPoints_extremes {xs ys : List (Point V)} (h : ∀ p, p ∈ xs ↔ p ∈ ys)
    (start stop : Int) {bucketSeconds : Int} (hpos : 0 < bucketSeconds) {func : Text}
    (hfunc : func ∈ extremes) :
    aggPoints xs start stop bucketSeconds func = aggPoints ys start stop bucketSeconds func := by
  have hknown : func ∈ aggFunctions := by
    simp only [extremes, List.mem_cons, List.not_mem_nil, or_false] at hfunc
    rcases hfunc with rfl | rfl <;> decide
  obtain ⟨carry, hxs⟩ := aggPoints_eq xs start stop hpos hknown
  obtain ⟨carry', hys⟩ := aggPoints_eq ys start stop hpos hknown
  rw [hxs, hys]
  refine congrArg _ (List.filterMap_congr fun b _ => ?_)
  have hmem (p : Point V) : p ∈ bucketPoints b (b + bucketSeconds) (sortPoints xs) ↔
      p ∈ bucketPoints b (b + bucketSeconds) (sortPoints ys) := by
    rw [mem_bucketPoints, mem_bucketPoints, (sortPoints_perm xs).mem_iff,
      (sortPoints_perm ys).mem_iff, h]
  rw [bucketLine, bucketLine]
  generalize bucketPoints b (b + bucketSeconds) (sortPoints xs) = inside at hmem ⊢
  generalize bucketPoints b (b + bucketSeconds) (sortPoints ys) = inside' at hmem ⊢
  by_cases hnil : inside = []
  · have hnil' : inside' = [] :=
      List.eq_nil_iff_forall_not_mem.mpr fun p hp => by
        rw [← hmem, hnil] at hp
        exact List.not_mem_nil hp
    rw [if_pos hnil, if_pos hnil']
  · have hnil' : inside' ≠ [] := by
      obtain ⟨p, hp⟩ := List.exists_mem_of_ne_nil _ hnil
      exact List.ne_nil_of_mem ((hmem p).mp hp)
    have hvalues : {v | v ∈ values inside} = {v | v ∈ values inside'} := by
      ext v
      simp only [values, List.mem_map, hmem]
    have hstats := bucketAcc_stats (carry b) inside
    have hstats' := bucketAcc_stats (carry' b) inside'
    rw [if_neg hnil, if_neg hnil']
    simp only [extremes, List.mem_cons, List.not_mem_nil, or_false] at hfunc
    rcases hfunc with rfl | rfl
    · rw [cell_min hstats hnil (hvalues ▸ hstats'.least hnil'),
        cell_min hstats' hnil' (hstats'.least hnil')]
    · rw [cell_max hstats hnil (hvalues ▸ hstats'.greatest hnil'),
        cell_max hstats' hnil' (hstats'.greatest hnil')]

/-- After any crashes, shutdowns and failing writes, a `min` or `max` query without coarse data that
can read its chunks gives what it would give over all that the metric has accepted. -/
theorem extremes_survive {bits : V → BitVec 64} {dataDir : Text} {s : Past V}
    (h : Surviving bits dataDir s) {metric : Text}
    (hnew : ∀ p ∈ s.accepted metric, ¬ Outdated s.passes metric p)
    {start stop bucketSeconds : Int} (hrange : start < stop) (hpos : 0 < bucketSeconds)
    (hraw : ¬ (dataDir ≠ [] ∧ downsampleShouldUse s.store metric start stop bucketSeconds))
    {func : Text} (hfunc : func ∈ extremes)
    (hread : headAgg dataDir metric start stop bucketSeconds func s.store ≠
      .error "ERR disk read\n".toList) :
    headAgg dataDir metric start stop bucketSeconds func s.store =
      aggPoints (bucketPoints start stop (s.accepted metric)) start stop bucketSeconds func := by
  have hkept := surviving_kept h metric
  unfold headAgg at hread ⊢
  rw [if_neg (by omega)] at hread ⊢
  cases hm : hashFindStr metric s.store with
  | none =>
    rw [hkept.unknown hm]
    exact (@aggPoints_nil V _ _ start stop bucketSeconds func).symm
  | some m =>
    have hmetric := hkept.metric m hm
    rw [hm] at hread
    dsimp only at hread ⊢
    cases hcollect : aggCollect dataDir metric start stop bucketSeconds s.store m with
    | none =>
      rw [hcollect] at hread
      exact absurd rfl hread
    | some points =>
      dsimp only
      rw [aggCollect, if_neg hraw] at hcollect
      obtain ⟨disk, hdisk, rfl⟩ := Option.map_eq_some_iff.mp hcollect
      have hmem (p : Point V) : p ∈ disk ++ collectPointsFromHead start stop m.entry.head ↔
          p ∈ bucketPoints start stop (s.accepted metric) := by
        rw [List.mem_append, mem_collected hdisk, collectPointsFromHead, mem_bucketPoints,
          List.mem_filter, decide_eq_true_iff]
        constructor
        · rintro (⟨hin, chunk, _, _, hchunk⟩ | ⟨hhead, hin⟩)
          · obtain ⟨data, hr, hdata⟩ := mem_chunkPoints hchunk
            exact ⟨(hmetric.dir.files _ data hr).2.2.1 hdata, hin⟩
          · rw [← hmetric.log] at hhead
            exact ⟨hmetric.dir.logged.subset hhead, hin⟩
        · rintro ⟨hp, hlow, hhigh⟩
          rcases hmetric.covered p hp with hhead | hold | ⟨chunk, hc, hchunk, hfirst, hlast⟩
          · exact .inr ⟨hhead, hlow, hhigh⟩
          · exact absurd hold (hnew p hp)
          · exact .inl ⟨⟨hlow, hhigh⟩, chunk, hc, ⟨by omega, by omega⟩, hchunk⟩
      split
      case isTrue hnil =>
        have hnone : bucketPoints start stop (s.accepted metric) = [] :=
          List.eq_nil_iff_forall_not_mem.mpr fun p hp => by
            rw [← hmem, hnil] at hp
            exact List.not_mem_nil hp
        rw [hnone, aggPoints_nil]
      case isFalse =>
        apply aggPoints_extremes _ start stop hpos hfunc
        exact fun p => (sortPoints_perm _).mem_iff.trans (hmem p)

/-- The point at 7 is read twice, from its chunk and from the head. -/
theorem extremes_survive_crash :
    headAgg ['d'] ['m'] 0 100 60 "min".toList afterCrash.store =
      aggPoints (bucketPoints 0 100 (afterCrash.accepted ['m'])) 0 100 60 "min".toList := by
  have hlines : headAgg ['d'] ['m'] 0 100 60 "min".toList afterCrash.store =
      .lines [⟨0, 60, .real 1⟩] := by decide +kernel
  have hpasses : afterCrash.passes = [] := rfl
  apply extremes_survive surviving_afterCrash
  · rintro p _ ⟨x, hx, _⟩
    rw [hpasses] at hx
    cases hx
  · decide
  · decide
  · simp [downsampleShouldUse, downsampleAfterSeconds]
  · decide
  · rw [hlines]
    simp

end Values

end Tsdb.Extremes
