import Tsdb.CoarseSound

namespace Tsdb.CoarseOnly

open CStrings Head Files Registry Query Sections History Service Disk Aggregate Downsample Minutes
  CoarseDirs CoarseFiles CoarseRuns CoarseSound Runs

variable {V : Type} [Zero V] [Add V] [Div V] [NatCast V]

/-- As long as no client writes to the metric `<metric>_1m`, its directory holds coarse files
of this metric and nothing else. -/
def OnlyCoarse (j : Journal V) (metric : Text) : Prop :=
  hashFindStr (downsampleCoarseDir metric) j.store = none →
    ∀ name, chunkRead (j.store.dirOf (downsampleCoarseDir metric)) name ≠ none →
      ∃ m, hashFindStr metric j.store = some m ∧
        ∃ chunk ∈ m.entry.chunks, name = coarseFile metric chunk

theorem onlyCoarse_request {dataDir n : Text} {j j' : Journal V} {m m' : MetricState V}
    (honly : ∀ k, OnlyCoarse j k) (h : Requested dataDir n j j' m m') (k : Text) :
    OnlyCoarse j' k := by
  intro hnone name hread
  rw [h.store] at hnone hread ⊢
  have hne : downsampleCoarseDir k ≠ n := by
    rintro rfl
    rw [find_set] at hnone
    cases hnone
  rw [find_set_ne _ hne] at hnone
  rw [dirOf_set_ne _ hne] at hread
  obtain ⟨m0, hm0, chunk, hc, hname⟩ := honly k hnone name hread
  by_cases hk : k = n
  · subst hk
    have hold : m = m0 := by
      rcases h.old with hold | hold
      · exact Option.some.inj (hold.symm.trans hm0)
      · rw [hold] at hm0
        cases hm0
    subst hold
    exact ⟨m', find_set _ _ _, chunk, h.grows.chunks.subset hc, hname⟩
  · exact ⟨m0, (find_set_ne _ hk _).trans hm0, chunk, hc, hname⟩

theorem onlyCoarse_round {n : Text} {j j' : Journal V} {m : MetricState V} {dir : Dir V}
    (honly : ∀ k, OnlyCoarse j k) (h : Rounded n j j' m dir) (k : Text) : OnlyCoarse j' k := by
  intro hnone name hread
  have hfind {m0 : MetricState V} (hm0 : hashFindStr k j.store = some m0) :
      hashFindStr k j'.store = some ⟨m0.entry, j'.store.dirOf k⟩ := by
    rw [h.store, find_setDir, hm0]
    rfl
  have hnone : hashFindStr (downsampleCoarseDir k) j.store = none := by
    rwa [h.store, find_setDir, Option.map_eq_none_iff] at hnone
  have hkept (hread : chunkRead (j.store.dirOf (downsampleCoarseDir k)) name ≠ none) :
      ∃ m, hashFindStr k j'.store = some m ∧ ∃ chunk ∈ m.entry.chunks, name = coarseFile k chunk := by
    obtain ⟨m0, hm0, chunk, hc, hname⟩ := honly k hnone name hread
    exact ⟨_, hfind hm0, chunk, hc, hname⟩
  rw [h.store] at hread
  by_cases hk : k = n
  · subst hk
    rw [dirOf_setDir] at hread
    rcases h.wrote with hdir | ⟨chunk, hc, data, _, _, hdir⟩
    · exact hkept (hdir ▸ hread)
    · by_cases hname : name = coarseFile k chunk
      · exact ⟨_, hfind h.find, chunk, hc, hname⟩
      · rw [hdir, chunkRead_coarsened_ne hname] at hread
        exact hkept hread
  · rw [dirOf_setDir_ne _ fun heq => hk (coarseDir_injective heq)] at hread
    exact hkept hread

theorem running_onlyCoarse {dataDir : Text} {j : Journal V} (h : Running dataDir j)
    (metric : Text) : OnlyCoarse j metric := by
  unfold Running at h
  induction h generalizing metric with
  | start h =>
    subst h
    exact fun _ _ hread => absurd rfl hread
  | next e hprev hstep ih =>
    obtain ⟨hadmits, hrun⟩ := hstep
    have hsound := fun k => running_sound hprev k
    cases e with
    | request env n order =>
      obtain ⟨m, m', hreq⟩ := request_step hsound hadmits hrun
      exact onlyCoarse_request ih hreq metric
    | round now io n i =>
      rcases round_step hsound hadmits hrun with rfl | ⟨m, dir, hround⟩
      · exact ih metric
      · exact onlyCoarse_round ih hround metric

theorem flatMap_perm_of_support {α β : Type} [DecidableEq α] {xs ys : List α} (f : α → List β)
    (hxs : xs.Nodup) (hys : ys.Nodup) (hsub : ∀ y ∈ ys, y ∈ xs)
    (hnil : ∀ x ∈ xs, x ∉ ys → f x = []) : (xs.flatMap f).Perm (ys.flatMap f) := by
  have hperm : (xs.filter (· ∈ ys)).Perm ys :=
    (List.perm_ext_iff_of_nodup (hxs.filter _) hys).mpr fun x => by
      simpa using fun hx => hsub x hx
  have hfilter : xs.flatMap f = (xs.filter (· ∈ ys)).flatMap f := by
    clear hperm hxs hsub
    induction xs with
    | nil => rfl
    | cons x xs ih =>
      have ih := ih fun y hy => hnil y (List.mem_cons_of_mem _ hy)
      rw [List.flatMap_cons, List.filter_cons, ih]
      by_cases hx : x ∈ ys
      · rw [if_pos (decide_eq_true hx), List.flatMap_cons]
      · rw [if_neg (by simpa using hx), hnil x (by simp) hx, List.nil_append]
  rw [hfilter]
  exact hperm.flatMap_right f

def allCoarsePoints (m : MetricState V) : List (Point V) :=
  m.entry.chunks.flatMap fun chunk => coarsePoints (chunkPoints m.dir chunk)

def dirPoints (dir : Dir V) : List (Point V) :=
  (dir.chunks.keys.filter fun name => ".chunk".toList <:+: name).flatMap fun name =>
    ((chunkRead dir name).map ChunkData.points).getD []

theorem dirPoints_perm {metric : Text} {m : MetricState V} {coarseDir : Dir V}
    (hok : CoarseOk metric m coarseDir)
    (hall : ∀ chunk ∈ m.entry.chunks, chunkId chunk.startTs ∈ coarseDir.done)
    (honly : ∀ name, chunkRead coarseDir name ≠ none →
      ∃ chunk ∈ m.entry.chunks, name = coarseFile metric chunk)
    (hfiles : (m.entry.chunks.map (coarseFile metric)).Nodup) :
    (dirPoints coarseDir).Perm (allCoarsePoints m) := by
  have hread : (m.entry.chunks.map (coarseFile metric)).flatMap (fun name =>
      ((chunkRead coarseDir name).map ChunkData.points).getD []) = allCoarsePoints m := by
    rw [allCoarsePoints, List.flatMap_map]
    apply List.flatMap_congr
    intro chunk hc
    obtain ⟨data, hread, hdata⟩ := hok.covered chunk hc (hall chunk hc)
    rw [hread, ← hdata]
    rfl
  rw [← hread]
  refine flatMap_perm_of_support _ ((AList.keys_nodup _).filter _) hfiles ?_ ?_
  · intro name hname
    obtain ⟨chunk, hc, rfl⟩ := List.mem_map.mp hname
    obtain ⟨data, hread, _⟩ := hok.covered chunk hc (hall chunk hc)
    exact List.mem_filter.mpr ⟨chunkRead_key hread, decide_eq_true (coarseFile_isChunk metric chunk)⟩
  · intro name _ hname
    have hnone : chunkRead coarseDir name = none := by
      by_contra hread
      obtain ⟨chunk, hc, rfl⟩ := honly name hread
      exact hname (List.mem_map_of_mem hc)
    rw [hnone]
    rfl

omit [Zero V] [Add V] [Div V] [NatCast V] in
theorem collectCoarse_eq (start stop : Int) (coarseDir : Dir V) :
    collectCoarse start stop coarseDir =
      (dirPoints coarseDir).filter fun p => InRange start stop p := by
  rw [dirPoints, List.filter_flatMap]
  apply List.flatMap_congr
  intro name _
  unfold collectPointsFromChunk
  cases chunkRead coarseDir name <;> rfl

theorem collectCoarse_perm {metric : Text} {m : MetricState V} {coarseDir : Dir V}
    (hok : CoarseOk metric m coarseDir) (hchunks : m.entry.chunks.Nodup)
    (hall : ∀ chunk ∈ m.entry.chunks, chunkId chunk.startTs ∈ coarseDir.done)
    (honly : ∀ name, chunkRead coarseDir name ≠ none →
      ∃ chunk ∈ m.entry.chunks, name = coarseFile metric chunk) (start stop : Int) :
    (collectCoarse start stop coarseDir).Perm
      ((allCoarsePoints m).filter fun p => InRange start stop p) := by
  have hfiles : (m.entry.chunks.map (coarseFile metric)).Nodup :=
    List.Nodup.map_on (fun a ha b hb hab =>
      hok.apart a ha (hall a ha) b hb (hall b hb) (coarseName_injective hab)) hchunks
  rw [collectCoarse_eq]
  exact (dirPoints_perm hok hall honly hfiles).filter _

end Tsdb.CoarseOnly
