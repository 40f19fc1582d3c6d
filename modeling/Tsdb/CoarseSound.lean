import Tsdb.CoarseRuns

namespace Tsdb.CoarseSound

open CStrings Head Files Wal Registry Sections History Service Disk Downsample Minutes CoarseDirs
  CoarseFiles CoarseRuns Runs

variable {V : Type} [Zero V] [Add V] [Div V] [NatCast V]

omit [Zero V] [Add V] [Div V] [NatCast V] in
theorem OnDisk.dir {dataDir metric : Text} {m : MetricState V} {accepted : List (Point V)}
    {flushed : List (List (Point V))} (h : OnDisk dataDir metric ⟨m, accepted, flushed⟩)
    {dir : Dir V} (hwal : dir.wal = m.dir.wal) (hread : ∀ chunk ∈ m.entry.chunks,
      chunkRead dir chunk.filename = chunkRead m.dir chunk.filename) :
    OnDisk dataDir metric ⟨⟨m.entry, dir⟩, accepted, flushed⟩ := by
  refine ⟨⟨h.conserved.ordered, h.conserved.conserved, h.conserved.described, ?_⟩, h.distinct,
    h.named, Readable.frame h.readable hread⟩
  exact (congrArg (Option.getD · []) hwal).trans h.conserved.logged

theorem sound_request {dataDir n : Text} {j j' : Journal V} {m m' : MetricState V}
    (hsound : ∀ k, Sound dataDir j k) (h : Requested dataDir n j j' m m') (k : Text) :
    Sound dataDir j' k := by
  -- the coarse directory of `k` can only have changed as the own directory of `n`
  have hcoarse : ∀ mk, CoarseOk k mk (j.store.dirOf (downsampleCoarseDir k)) →
      CoarseOk k mk (j'.store.dirOf (downsampleCoarseDir k)) := by
    intro mk hmk
    rw [h.store]
    by_cases hkn : downsampleCoarseDir k = n
    · have hset : (j.store.set n m').dirOf n = m'.dir := (find_dir (find_set _ _ _)).symm
      rw [hkn, hset]
      rw [hkn, ← h.dir] at hmk
      refine hmk.frame h.grows.done fun id => h.grows.frame _ fun ts => ?_
      rw [← hkn]
      exact coarseName_ne_chunkName dataDir k id (chunkId ts)
    · rwa [dirOf_set_ne _ hkn]
  have hdone : (j.store.dirOf (downsampleCoarseDir k)).done = [] →
      (j'.store.dirOf (downsampleCoarseDir k)).done = [] := by
    intro hnil
    rw [h.store]
    by_cases hkn : downsampleCoarseDir k = n
    · have hset : (j.store.set n m').dirOf n = m'.dir := (find_dir (find_set _ _ _)).symm
      rw [hkn, ← h.dir] at hnil
      rw [hkn, hset, h.grows.done, hnil]
    · rwa [dirOf_set_ne _ hkn]
  by_cases hk : k = n
  · subst hk
    obtain ⟨flushed, hd⟩ := h.onDisk
    refine ⟨fun mk hmk => ?_, fun hnone => ?_⟩
    · rw [h.store, find_set] at hmk
      obtain rfl := Option.some.inj hmk
      exact ⟨⟨flushed, hd⟩, hcoarse _ (h.coarse.grow h.grows hd.distinct hd.named)⟩
    · rw [h.store, find_set] at hnone
      cases hnone
  · refine ⟨fun mk hmk => ?_, fun hnone => ?_⟩
    · rw [h.store, find_set_ne _ hk] at hmk
      obtain ⟨hd, hmc⟩ := (hsound k).found mk hmk
      rw [h.others k hk]
      exact ⟨hd, hcoarse mk hmc⟩
    · rw [h.store, find_set_ne _ hk] at hnone
      obtain ⟨hwal, hacc, hnil⟩ := (hsound k).absent hnone
      rw [h.others k hk]
      refine ⟨?_, hacc, hdone hnil⟩
      rw [h.store, dirOf_set_ne _ hk, hwal]

theorem Rounded.frame (dataDir : Text) {n : Text} {j j' : Journal V} {m : MetricState V} {dir : Dir V}
    (h : Rounded n j j' m dir) (k : Text) :
    (j'.store.dirOf k).wal = (j.store.dirOf k).wal ∧
      ∀ ts, chunkRead (j'.store.dirOf k) (chunkName dataDir k (chunkId ts)) =
        chunkRead (j.store.dirOf k) (chunkName dataDir k (chunkId ts)) := by
  rw [h.store]
  by_cases hk : k = downsampleCoarseDir n
  · subst hk
    rw [dirOf_setDir]
    rcases h.wrote with hdir | ⟨chunk, _, data, _, _, hdir⟩
    · rw [hdir]
      exact ⟨rfl, fun _ => rfl⟩
    · rw [hdir]
      exact ⟨rfl, fun ts => chunkRead_coarsened_ne
        (coarseName_ne_chunkName dataDir n _ (chunkId ts)).symm data _⟩
  · rw [dirOf_setDir_ne _ hk]
    exact ⟨rfl, fun _ => rfl⟩

theorem sound_round {dataDir n : Text} {j j' : Journal V} {m : MetricState V} {dir : Dir V}
    (hsound : ∀ k, Sound dataDir j k) (h : Rounded n j j' m dir) (k : Text) :
    Sound dataDir j' k := by
  obtain ⟨hwal, hread⟩ := Rounded.frame dataDir h k
  have hfind (mk : MetricState V) (hmk : hashFindStr k j'.store = some mk) :
      ∃ m0, hashFindStr k j.store = some m0 ∧ mk = ⟨m0.entry, j'.store.dirOf k⟩ := by
    rw [h.store, find_setDir] at hmk
    obtain ⟨m0, hm0, rfl⟩ := Option.map_eq_some_iff.mp hmk
    exact ⟨m0, hm0, by rw [h.store]⟩
  refine ⟨fun mk hmk => ?_, fun hnone => ?_⟩
  · obtain ⟨m0, hm0, rfl⟩ := hfind mk hmk
    obtain ⟨⟨flushed, hd⟩, hmc⟩ := (hsound k).found m0 hm0
    have hfiles : ∀ chunk ∈ m0.entry.chunks,
        chunkRead (j'.store.dirOf k) chunk.filename = chunkRead m0.dir chunk.filename := by
      intro chunk hc
      rw [hd.named chunk hc, find_dir hm0]
      exact hread chunk.startTs
    rw [h.accepted]
    refine ⟨⟨flushed, OnDisk.dir hd (by rw [hwal, find_dir hm0]) hfiles⟩, CoarseOk.dir ?_ hfiles⟩
    by_cases hkn : k = n
    · subst hkn
      obtain rfl := Option.some.inj (h.find.symm.trans hm0)
      rw [h.store, dirOf_setDir]
      rcases h.wrote with hdir | ⟨chunk, hc, data, hfresh, hdata, hdir⟩
      · rw [hdir]
        exact hmc
      · rw [hdir]
        exact hmc.round hd.distinct hd.named hc hfresh hdata
    · rw [h.store, dirOf_setDir_ne _ fun heq => hkn (coarseDir_injective heq)]
      exact hmc
  · rw [h.store, find_setDir, Option.map_eq_none_iff] at hnone
    obtain ⟨hw, hacc, hdone⟩ := (hsound k).absent hnone
    refine ⟨hwal.trans hw, by rw [h.accepted, hacc], ?_⟩
    have hkn : k ≠ n := by
      rintro rfl
      rw [h.find] at hnone
      cases hnone
    rw [h.store, dirOf_setDir_ne _ fun heq => hkn (coarseDir_injective heq), hdone]

theorem running_sound {dataDir : Text} {j : Journal V} (h : Running dataDir j)
    (metric : Text) : Sound dataDir j metric := by
  refine Reach.invariant (fun j => ∀ k, Sound dataDir j k) ?_ ?_ h metric
  · rintro _ rfl k
    exact sound_empty dataDir k
  · rintro e j j' hsound ⟨hadmits, hrun⟩ k
    cases e with
    | request env n order =>
      obtain ⟨m, m', hreq⟩ := request_step hsound hadmits hrun
      exact sound_request hsound hreq k
    | round now io n i =>
      rcases round_step hsound hadmits hrun with rfl | ⟨m, dir, hround⟩
      · exact hsound k
      · exact sound_round hsound hround k

end Tsdb.CoarseSound
