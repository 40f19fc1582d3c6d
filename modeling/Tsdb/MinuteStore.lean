import Tsdb.CoarseQuery
import Tsdb.CoarseOnly
import Tsdb.MinutePasses

namespace Tsdb.MinuteStore

open CStrings Head Files Registry Query History Service Disk Downsample Minutes CoarseDirs
  CoarseFiles CoarseOnly CoarseQuery MinutePasses

variable {V : Type}

def minute (p : Point V) : Int := p.ts / 60 * 60

def rawPoints (m : MetricState V) : List (Point V) := m.entry.chunks.flatMap (chunkPoints m.dir)

section Arithmetic

variable [Zero V] [Add V] [Div V] [NatCast V]

/-- What the coarse directory of a metric is for: one point for each minute that has raw points,
their average, and no file of a chunk written over by another chunk. -/
structure OnePerMinute (metric : Text) (m : MetricState V) (coarseDir : Dir V) : Prop where
  once : ((dirPoints coarseDir).map Point.ts).Nodup
  minutes : ∀ t, (∃ c ∈ dirPoints coarseDir, c.ts = t) ↔ ∃ p ∈ rawPoints m, minute p = t
  averages : ∀ c ∈ dirPoints coarseDir,
    c.value = average ((rawPoints m).filter fun p => minute p = c.ts)
  separate : (m.entry.chunks.map (coarseFile metric)).Nodup

def MinutesApart (m : MetricState V) : Prop :=
  m.entry.chunks.Pairwise fun chunk other =>
    ∀ p ∈ chunkPoints m.dir chunk, ∀ q ∈ chunkPoints m.dir other, minute p ≠ minute q

instance (m : MetricState V) : Decidable (MinutesApart m) :=
  inferInstanceAs (Decidable (m.entry.chunks.Pairwise fun chunk other =>
    ∀ p ∈ chunkPoints m.dir chunk, ∀ q ∈ chunkPoints m.dir other, minute p ≠ minute q))

omit [Zero V] [Add V] [Div V] [NatCast V] in
theorem stamp_eq_minute {chunk : ChunkMetadata} {points : List (Point V)}
    (hdesc : Describes chunk points) (hnonneg : 0 ≤ chunk.startTs) {p : Point V}
    (hp : p ∈ points) : stamp (minuteStart chunk.startTs) p = minute p := by
  have hstart := (minuteStart_spec chunk.startTs).2.2.2 hnonneg
  have hle : chunk.startTs ≤ p.ts := hdesc.least.2 ⟨p, hp, rfl⟩
  unfold stamp minute
  rw [hstart]
  omega

/-- The coarse points of one chunk: one for each of its minutes, its average there. -/
structure CoarseSpec (points coarse : List (Point V)) : Prop where
  once : (coarse.map Point.ts).Nodup
  minutes : ∀ t, t ∈ coarse.map Point.ts ↔ ∃ p ∈ points, minute p = t
  averages : ∀ c ∈ coarse, c.value = average (points.filter fun p => minute p = c.ts)

theorem coarseSpec {chunk : ChunkMetadata} {points : List (Point V)}
    (hdesc : Describes chunk points) (hnonneg : 0 ≤ chunk.startTs) :
    CoarseSpec points (coarsePoints points) := by
  obtain ⟨first, rest, hpoints, hfirst⟩ := hdesc.first
  have hsorted := hdesc.sorted
  rw [hpoints] at hsorted
  obtain ⟨minutes, hdiv, hcoarse⟩ := coarsePoints_divides hsorted
  rw [← hpoints, hfirst] at hdiv
  rw [← hpoints] at hcoarse
  rw [hcoarse]
  have hstamped : ∀ x ∈ minutes, ∀ p ∈ x.2, minute p = x.1 := by
    intro x hx p hp
    rw [← hdiv.stamped x hx p hp]
    refine (stamp_eq_minute hdesc hnonneg ?_).symm
    rw [← hdiv.flatten]
    exact List.mem_flatMap.mpr ⟨x, hx, hp⟩
  refine ⟨?_, fun t => ?_, fun c hc => ?_⟩
  · rw [List.map_map]
    exact (List.pairwise_map.mpr hdiv.increasing).imp fun hlt => ne_of_lt hlt
  · rw [List.map_map, List.mem_map]
    constructor
    · rintro ⟨x, hx, rfl⟩
      obtain ⟨p, hp⟩ := List.exists_mem_of_ne_nil _ (hdiv.nonempty x hx)
      refine ⟨p, ?_, hstamped x hx p hp⟩
      rw [← hdiv.flatten]
      exact List.mem_flatMap.mpr ⟨x, hx, hp⟩
    · rintro ⟨p, hp, rfl⟩
      rw [← hdiv.flatten] at hp
      obtain ⟨x, hx, hp⟩ := List.mem_flatMap.mp hp
      exact ⟨x, hx, (hstamped x hx p hp).symm⟩
  · obtain ⟨x, hx, rfl⟩ := List.mem_map.mp hc
    have hgroup : (points.filter fun p => minute p = x.1) = x.2 := by
      rw [← Divides.group hdiv hx]
      apply List.filter_congr
      intro p hp
      rw [stamp_eq_minute hdesc hnonneg hp]
    rw [minutePoint, hgroup]

theorem once_iff {m : MetricState V}
    (hspec : ∀ chunk ∈ m.entry.chunks, CoarseSpec (chunkPoints m.dir chunk)
      (coarsePoints (chunkPoints m.dir chunk))) :
    ((allCoarsePoints m).map Point.ts).Nodup ↔ MinutesApart m := by
  rw [allCoarsePoints, List.map_flatMap, List.nodup_flatMap, MinutesApart,
    and_iff_right fun chunk hc => (hspec chunk hc).once]
  apply List.Pairwise.iff_of_mem
  intro chunk other hc ho
  constructor
  · intro hdisjoint p hp q hq heq
    apply hdisjoint (a := minute p)
    · exact ((hspec chunk hc).minutes _).mpr ⟨p, hp, rfl⟩
    · exact ((hspec other ho).minutes _).mpr ⟨q, hq, heq.symm⟩
  · intro hapart t ht ht'
    obtain ⟨p, hp, rfl⟩ := ((hspec chunk hc).minutes _).mp ht
    obtain ⟨q, hq, heq⟩ := ((hspec other ho).minutes _).mp ht'
    exact hapart p hp q hq heq.symm

omit [Zero V] [Add V] [Div V] [NatCast V] in
theorem filter_minute {m : MetricState V} (hapart : MinutesApart m) {chunk : ChunkMetadata}
    (hc : chunk ∈ m.entry.chunks) {p : Point V} (hp : p ∈ chunkPoints m.dir chunk) :
    (rawPoints m).filter (fun q => minute q = minute p) =
      (chunkPoints m.dir chunk).filter fun q => minute q = minute p := by
  obtain ⟨before, after, hsplit⟩ := List.append_of_mem hc
  unfold MinutesApart at hapart
  rw [hsplit] at hapart
  obtain ⟨_, hafter, hbefore⟩ := List.pairwise_append.mp hapart
  have hnil {chunks : List ChunkMetadata}
      (h : ∀ other ∈ chunks, ∀ q ∈ chunkPoints m.dir other, minute q ≠ minute p) :
      (chunks.flatMap (chunkPoints m.dir)).filter (fun q => minute q = minute p) = [] := by
    apply List.filter_eq_nil_iff.mpr
    intro q hq
    obtain ⟨other, ho, hq⟩ := List.mem_flatMap.mp hq
    simpa using h other ho q hq
  rw [rawPoints, hsplit, List.flatMap_append, List.flatMap_cons, List.filter_append,
    List.filter_append, hnil fun other ho q hq => hbefore other ho chunk (by simp) q hq p hp,
    hnil fun other ho q hq => (List.rel_of_pairwise_cons hafter ho p hp q hq).symm,
    List.nil_append, List.append_nil]

theorem averages_apart {m : MetricState V}
    (hspec : ∀ chunk ∈ m.entry.chunks, CoarseSpec (chunkPoints m.dir chunk)
      (coarsePoints (chunkPoints m.dir chunk))) (hapart : MinutesApart m) :
    ∀ c ∈ allCoarsePoints m, c.value = average ((rawPoints m).filter fun p => minute p = c.ts) := by
  intro c hc
  obtain ⟨chunk, hchunk, hc⟩ := List.mem_flatMap.mp hc
  obtain ⟨p, hp, hts⟩ := ((hspec chunk hchunk).minutes c.ts).mp (List.mem_map_of_mem hc)
  rw [(hspec chunk hchunk).averages c hc, ← hts, filter_minute hapart hchunk hp]

theorem minutes_all {m : MetricState V}
    (hspec : ∀ chunk ∈ m.entry.chunks, CoarseSpec (chunkPoints m.dir chunk)
      (coarsePoints (chunkPoints m.dir chunk))) (t : Int) :
    (∃ c ∈ allCoarsePoints m, c.ts = t) ↔ ∃ p ∈ rawPoints m, minute p = t := by
  constructor
  · rintro ⟨c, hc, rfl⟩
    obtain ⟨chunk, hchunk, hc⟩ := List.mem_flatMap.mp hc
    obtain ⟨p, hp, hts⟩ := ((hspec chunk hchunk).minutes c.ts).mp (List.mem_map_of_mem hc)
    exact ⟨p, List.mem_flatMap.mpr ⟨chunk, hchunk, hp⟩, hts⟩
  · rintro ⟨p, hp, rfl⟩
    obtain ⟨chunk, hchunk, hp⟩ := List.mem_flatMap.mp hp
    obtain ⟨c, hc, hts⟩ := List.mem_map.mp (((hspec chunk hchunk).minutes _).mpr ⟨p, hp, rfl⟩)
    exact ⟨c, List.mem_flatMap.mpr ⟨chunk, hchunk, hc⟩, hts⟩

theorem kept_start {metric : Text} {m : MetricState V} {s : Store V}
    (hm : hashFindStr metric s = some m)
    (hdone : (s.dirOf (downsampleCoarseDir metric)).done = [])
    (hempty : ∀ name, chunkRead (s.dirOf (downsampleCoarseDir metric)) name = none) :
    Kept metric m s := by
  refine ⟨⟨m.dir, hm, fun _ _ => rfl⟩, ⟨?_, ?_, ?_⟩, fun name hname => absurd (hempty name) hname⟩
  · simp [hdone]
  · simp [hdone]
  · simp [hdone]

/-- The coarse store has its one average per minute exactly when no two chunks begin in minutes
of one file name, and no two have points in the same minute. -/
theorem one_per_minute_iff {dataDir metric : Text} {s : Store V} {m : MetricState V}
    (_hnames : ∀ k ∈ s.registry, EntryName k) (hm : hashFindStr metric s = some m)
    (hraw : RawChunks dataDir metric m)
    (hnonneg : ∀ chunk ∈ m.entry.chunks, 0 ≤ chunk.startTs)
    (hdone : (s.dirOf (downsampleCoarseDir metric)).done = [])
    (hempty : ∀ name, chunkRead (s.dirOf (downsampleCoarseDir metric)) name = none)
    {passes : List Pass} (hio : ∀ pass ∈ passes, ∀ i, pass.io metric i = .ok)
    (hall : ∀ chunk ∈ m.entry.chunks, ∃ pass ∈ passes,
      chunk.endTs < pass.now - downsampleAfterSeconds) :
    OnePerMinute metric m
        ((passes.foldl Pass.run s).dirOf (downsampleCoarseDir metric)) ↔
      (m.entry.chunks.map coarseId).Nodup ∧ MinutesApart m := by
  have hspec := fun chunk hc => coarseSpec (hraw.describes chunk hc) (hnonneg chunk hc)
  have hfiles : (m.entry.chunks.map (coarseFile metric)).Nodup ↔
      (m.entry.chunks.map coarseId).Nodup := by
    have hmap : m.entry.chunks.map (coarseFile metric) =
        (m.entry.chunks.map coarseId).map (coarseName metric) := by
      rw [List.map_map]
      rfl
    rw [hmap, List.nodup_map_iff fun _ _ => coarseName_injective]
  have hperm (hids : (m.entry.chunks.map coarseId).Nodup) :
      (dirPoints ((passes.foldl Pass.run s).dirOf (downsampleCoarseDir metric))).Perm
        (allCoarsePoints m) := by
    obtain ⟨hkept, hmarked⟩ := kept_passes hraw hids (kept_start hm hdone hempty) hio hall
    exact dirPoints_perm hkept.ok hmarked hkept.only (hfiles.mpr hids)
  constructor
  · intro h
    have hids := hfiles.mp h.separate
    exact ⟨hids, (once_iff hspec).mp (((hperm hids).map Point.ts).nodup_iff.mp h.once)⟩
  · rintro ⟨hids, hapart⟩
    have hp := hperm hids
    refine ⟨?_, fun t => ?_, fun c hc => ?_, hfiles.mpr hids⟩
    · exact ((hp.map Point.ts).nodup_iff).mpr ((once_iff hspec).mpr hapart)
    · rw [← minutes_all hspec]
      simp only [hp.mem_iff]
    · exact averages_apart hspec hapart c (hp.mem_iff.mp hc)

end Arithmetic

theorem one_per_minute_iff_two_minutes : ∃ (j : Journal ℚ) (m : MetricState ℚ),
    ([(⟨0, .ok⟩, ['m'], .put ⟨0, 1⟩), (⟨0, .ok⟩, ['m'], .flush), (⟨0, .ok⟩, ['m'], .put ⟨60, 3⟩),
      (⟨0, .ok⟩, ['m'], .flush)] : List (Call ℚ)).foldlM (call ['d']) Journal.empty = some j ∧
    hashFindStr ['m'] j.store = some m ∧
    OnePerMinute ['m'] m (([⟨10000, fun _ _ => .ok⟩].foldl Pass.run j.store).dirOf
      (downsampleCoarseDir ['m'])) := by
  obtain ⟨j, hj, hp⟩ := Option.bind_eq_some_iff.mp (show
    (([(⟨0, .ok⟩, ['m'], .put ⟨0, 1⟩), (⟨0, .ok⟩, ['m'], .flush), (⟨0, .ok⟩, ['m'], .put ⟨60, 3⟩),
      (⟨0, .ok⟩, ['m'], .flush)] : List (Call ℚ)).foldlM (call ['d']) Journal.empty).bind
    (fun j : Journal ℚ => (hashFindStr ['m'] j.store).map fun m =>
      ((j.store.dirs.lookup (downsampleCoarseDir ['m'])).isNone,
        decide (j.store.registry.keys = [['m']] ∧
          (∀ chunk ∈ m.entry.chunks, 0 ≤ chunk.startTs ∧ chunk.endTs < 6400) ∧
          (m.entry.chunks.map coarseId).Nodup ∧ MinutesApart m))) = some (true, true) by
    decide +kernel)
  obtain ⟨m, hm, hp⟩ := Option.map_eq_some_iff.mp hp
  obtain ⟨hnew, hcond⟩ := Prod.mk.inj hp
  obtain ⟨hkeys, hchunks, hids, hapart⟩ := of_decide_eq_true hcond
  have hreach : Serving ['d'] (opensFresh ['d']) j := .run (.start rfl) _ (by decide) hj
  obtain ⟨flushed, hd⟩ := serving_onDisk hreach hm
  have hdir : j.store.dirOf (downsampleCoarseDir ['m']) = Dir.empty := by
    rw [Store.dirOf, Option.isNone_iff_eq_none.mp hnew]
    rfl
  refine ⟨j, m, hj, hm, (one_per_minute_iff
    (fun k hk => by rw [eq_of_keys hkeys hk]; decide) hm (OnDisk.rawChunks hd)
    (fun chunk hc => (hchunks chunk hc).1) (by rw [hdir]; rfl) (by rw [hdir]; exact fun _ => rfl)
    ?_ ?_).mpr ⟨hids, hapart⟩⟩
  · simp
  · exact fun chunk hc => ⟨_, List.mem_singleton.mpr rfl, (hchunks chunk hc).2⟩

/-- Two chunks of one minute write the same coarse file; the first one's point is gone and the
average is that of the second chunk alone. -/
theorem shared_minute_overwritten : ¬ ∀ (dataDir metric : Text) (calls : List (Call ℚ))
    (j : Journal ℚ) (m : MetricState ℚ) (passes : List Pass),
    calls.foldlM (call dataDir) Journal.empty = some j → hashFindStr metric j.store = some m →
    (∀ chunk ∈ m.entry.chunks, 0 ≤ chunk.startTs) →
    (∀ pass ∈ passes, ∀ name i, pass.io name i = .ok) →
    (∀ chunk ∈ m.entry.chunks, ∃ pass ∈ passes,
      chunk.endTs < pass.now - downsampleAfterSeconds) →
    OnePerMinute metric m ((passes.foldl Pass.run j.store).dirOf (downsampleCoarseDir metric)) := by
  intro h
  obtain ⟨j, hj, hp⟩ := Option.bind_eq_some_iff.mp (show
    (([(⟨0, .ok⟩, ['m'], .put ⟨0, 1⟩), (⟨0, .ok⟩, ['m'], .flush), (⟨0, .ok⟩, ['m'], .put ⟨30, 3⟩),
      (⟨0, .ok⟩, ['m'], .flush)] : List (Call ℚ)).foldlM (call ['d']) Journal.empty).bind
    (fun j : Journal ℚ => (hashFindStr ['m'] j.store).map fun m =>
      decide ((∀ chunk ∈ m.entry.chunks, 0 ≤ chunk.startTs ∧ chunk.endTs < 6400) ∧
        dirPoints (([⟨10000, fun _ _ => .ok⟩].foldl Pass.run j.store).dirOf
          (downsampleCoarseDir ['m'])) = [⟨0, 3⟩] ∧
        rawPoints m = [⟨0, 1⟩, ⟨30, 3⟩])) = some true by decide +kernel)
  obtain ⟨m, hm, hp⟩ := Option.map_eq_some_iff.mp hp
  obtain ⟨hchunks, hpoints, hraw⟩ := of_decide_eq_true hp
  have hone := h ['d'] ['m'] _ j m [⟨10000, fun _ _ => .ok⟩] hj hm
    (fun chunk hc => (hchunks chunk hc).1) (by simp)
    (fun chunk hc => ⟨_, List.mem_singleton.mpr rfl, (hchunks chunk hc).2⟩)
  have havg := hone.averages ⟨0, 3⟩ (by rw [hpoints]; exact List.mem_singleton.mpr rfl)
  rw [hraw] at havg
  exact absurd havg (by decide +kernel)

end Tsdb.MinuteStore
