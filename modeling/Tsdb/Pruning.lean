import Tsdb.CoarseQuery
import Tsdb.Shelves

namespace Tsdb.Pruning

open CStrings Head Files Registry Query History Service Recovery Disk Aggregate Downsample Buckets
  CoarseQuery Retention Lifetime Shelves

variable {V : Type} {dataDir metric : Text}

/-- Chunk files are distinct: no flush opens the file of an entry that is there. -/
def DistinctFiles (dataDir : Text) (s : Store V) : Turn V → Prop
  | .request env metric order =>
    ∀ m ∈ getMetricFromHashTable env.unset metric order.isPut s,
      opensFresh dataDir metric env.io order m
  | .expire _ _ _ => True
  | .restart _ _ => True

instance (dataDir : Text) (s : Store V) (env : Env) (metric : Text) (order : Order V) :
    Decidable (DistinctFiles dataDir s (.request env metric order)) :=
  inferInstanceAs (Decidable (∀ m ∈ getMetricFromHashTable env.unset metric order.isPut s,
    opensFresh dataDir metric env.io order m))

theorem living_shelved {s : Store V} (h : Living dataDir (DistinctFiles dataDir) s) (k : Text) :
    Keeps (Filed dataDir) (Shelved dataDir) s k := by
  apply living_invariant _ _ _ _ _ _ h
  · exact fun k => filed_empty
  · exact fun k m hm => hm.filed
  · exact fun k dir unset hdir => shelved_new hdir unset
  · exact fun s env k order m hguard hm hI => shelved_order hI (hguard m hm)
  · exact fun k m cfg now removes hI => shelved_expire hI cfg now removes
  · intro s unset dirs k _ hpossible hs
    have hfiled := filed_found hs (hpossible k)
    exact ⟨hfiled, shelved_loaded hfiled (unset k)⟩

theorem aggCollect_raw {m : MetricState V} (hreads : ∀ chunk ∈ m.entry.chunks,
      chunkRead m.dir chunk.filename =
          some ⟨chunk.startTs, chunk.endTs, chunkPoints m.dir chunk⟩ ∧
        Describes chunk (chunkPoints m.dir chunk)) {s : Store V} {start stop bucketSeconds : Int}
    (hraw : ¬ (dataDir ≠ [] ∧ downsampleShouldUse s metric start stop bucketSeconds)) :
    aggCollect dataDir metric start stop bucketSeconds s m =
      some ((storedPoints m).filter fun p => InRange start stop p) := by
  rw [aggCollect, if_neg hraw, collectRaw_eq hreads, storedPoints, List.filter_append]
  rfl

theorem storedPoints_perm (m : MetricState V) {chunks : List ChunkMetadata}
    (h : chunks.Perm m.entry.chunks) :
    (storedPoints ⟨{ m.entry with chunks := chunks }, m.dir⟩).Perm (storedPoints m) :=
  (h.flatMap_right (chunkPoints m.dir)).append_right _

/-- Skipping chunks by their start and end never drops a point: without coarse data the array of
`Head_AGG` is what chunks and head hold in the range, `qsort` puts it in time order, and another
order of the chunk list gives the same points. -/
theorem pruning_sound {s : Store V} (h : Living dataDir (DistinctFiles dataDir) s) {metric : Text}
    {m : MetricState V} (hm : hashFindStr metric s = some m) {start stop bucketSeconds : Int}
    (hraw : ¬ (dataDir ≠ [] ∧ downsampleShouldUse s metric start stop bucketSeconds)) :
    ∃ points, aggCollect dataDir metric start stop bucketSeconds s m = some points ∧
      points.Perm ((storedPoints m).filter fun p => InRange start stop p) ∧
      (sortPoints points).Perm ((storedPoints m).filter fun p => InRange start stop p) ∧
      (sortPoints points).Pairwise (fun p q => p.ts ≤ q.ts) ∧
      ∀ chunks : List ChunkMetadata, chunks.Perm m.entry.chunks →
        ∃ points', aggCollect dataDir metric start stop bucketSeconds s
            ⟨{ m.entry with chunks := chunks }, m.dir⟩ = some points' ∧ points'.Perm points := by
  have hreads (chunk : ChunkMetadata) (hc : chunk ∈ m.entry.chunks) :=
    ((living_shelved h metric).metric m hm).reads hc
  refine ⟨_, aggCollect_raw hreads hraw, .refl _, sortPoints_perm _, sortPoints_sorted _,
    fun chunks hperm => ?_⟩
  exact ⟨_, @aggCollect_raw V dataDir metric ⟨{ m.entry with chunks := chunks }, m.dir⟩
    (fun chunk hc => hreads chunk (hperm.subset hc)) s start stop bucketSeconds hraw,
    (storedPoints_perm m hperm).filter _⟩

/-- Two chunks, of which the older one expires, a restart, and a point in the new head. -/
theorem pruning_sound_expired : ∃ (s : Store Nat) (m : MetricState Nat),
    hashFindStr ['m'] s = some m ∧ storedPoints m = [⟨7, 2⟩, ⟨9, 3⟩] ∧
    ∃ points, aggCollect ['d'] ['m'] 0 10 4 s m = some points ∧
      points.Perm ((storedPoints m).filter fun p => InRange 0 10 p) := by
  have hrun : ∃ s : Store Nat, ([(⟨0, .ok⟩, ['m'], .put ⟨5, 1⟩), (⟨0, .ok⟩, ['m'], .flush),
      (⟨0, .ok⟩, ['m'], .put ⟨7, 2⟩), (⟨0, .ok⟩, ['m'], .flush), (⟨0, .ok⟩, ['m'], .put ⟨9, 3⟩)] :
        List (Call Nat)).foldlM (fun s x => serveOrder ['d'] x.1 x.2.1 s x.2.2) Store.empty =
        some s ∧
      (hashFindStr ['m'] (loadRegistry ['d'] (fun _ => 0)
        (runExpiry [⟨['m'], 10⟩] 16 (fun _ _ => true) s).dirs)).map storedPoints =
          some [⟨7, 2⟩, ⟨9, 3⟩] := by
    refine ⟨_, rfl, ?_⟩
    decide +kernel
  obtain ⟨s, hs, hstored⟩ := hrun
  obtain ⟨m, hm, hp⟩ := Option.map_eq_some_iff.mp hstored
  have hstart : Living ['d'] (DistinctFiles ['d']) (Store.empty : Store Nat) := .start rfl
  have hlive := ((hstart.requests (by decide +kernel) hs).expired [⟨['m'], 10⟩] 16
    (fun _ _ => true) trivial).again (fun _ => 0) trivial
  obtain ⟨points, hcollect, hperm, _⟩ := @pruning_sound Nat ['d'] _ hlive ['m'] m hm 0 10 4
    (by simp [downsampleShouldUse, downsampleAfterSeconds])
  exact ⟨_, m, hm, hp, points, hcollect, hperm⟩

end Tsdb.Pruning
