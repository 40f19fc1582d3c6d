import Tsdb.CleanRestart

namespace Tsdb.IdleRounds

open CStrings Head Files Registry History Service Disk Downsample CoarseDirs CoarseRuns
  Loading Directories DirectoryUse CleanRestart Runs

variable {V : Type} [Zero V] [Add V] [Div V] [NatCast V] {dataDir : Text}

def Idle (j : Journal V) : Event V → Prop
  | .request _ _ _ => True
  | .round now _ metric i => ∀ m ∈ hashFindStr metric j.store, ∀ chunk ∈ m.entry.chunks[i]?,
    now - downsampleAfterSeconds ≤ chunk.endTs

theorem noCoarse_request {n : Text} {j j' : Journal V} (h : ∀ k, Tidy dataDir j k)
    (hnone : NoCoarse j.store) {env : Env} {order : Order V}
    (hguard : Distinct dataDir j (.request env n order))
    (hrun : (Event.request env n order).run dataDir j = some j') : NoCoarse j'.store := by
  obtain ⟨⟨res, j'⟩, hserve, rfl⟩ := Option.map_eq_some_iff.mp hrun
  obtain ⟨m, hm, _, hstore, _⟩ := serve_ledger hserve []
  have hdir := ((h n).served hm (hguard m hm)).1
  have hgrows := @grows_order V dataDir n env.io order ⟨m, j.accepted n, []⟩ (hguard m hm)
  dsimp only at hstore ⊢
  generalize (order.run dataDir n env.io ⟨m, j.accepted n, []⟩).2.metric = m' at hstore hgrows
  have hset : n ∈ j'.store.registry := by
    rw [hstore]
    exact mem_of_find (find_set _ _ _)
  have hother {k : Text} (hk : k ≠ n) : k ∈ j'.store.registry ↔ k ∈ j.store.registry := by
    rw [hstore, mem_registry, mem_registry, find_set_ne _ hk]
  have hdirs {k : Text} (hk : k ≠ n) : j'.store.dirOf k = j.store.dirOf k := by
    rw [hstore, dirOf_set_ne _ hk]
  -- a metric that is new had no coarse directory, so nothing was in its name
  have hbefore (k : Text) (hk : k ∈ j'.store.registry) :
      ((j.store.dirOf (downsampleCoarseDir k)).present = true →
        downsampleCoarseDir k ∈ j.store.registry) ∧
      ∀ ts, chunkRead (j.store.dirOf (downsampleCoarseDir k)) (coarseName k (chunkId ts)) = none := by
    by_cases hreg : k ∈ j.store.registry
    · exact hnone k hreg
    · refine ⟨fun hpresent => ?_, fun ts => ?_⟩
      · rcases (h _).dirs hpresent with hk' | ⟨k', hk', heq⟩
        · exact mem_registry.mpr hk'
        · obtain rfl := coarseDir_injective heq
          exact absurd (mem_registry.mpr hk') hreg
      · by_contra hread
        exact hreg ((h _).coarse_owner hread).2
  intro k hk
  obtain ⟨hpresent, hfiles⟩ := hbefore k hk
  by_cases hkn : downsampleCoarseDir k = n
  · refine ⟨fun _ => by rw [hkn]; exact hset, fun ts => ?_⟩
    have hdir' : j'.store.dirOf n = m'.dir := by rw [hstore, dirOf_set]
    rw [hkn, hdir', hgrows.frame _ fun ts' => by
      rw [← hkn]
      exact coarseName_ne_chunkName dataDir k _ _, hdir, ← hkn]
    exact hfiles ts
  · rw [hdirs hkn, hother hkn]
    exact ⟨hpresent, hfiles⟩

theorem noCoarse_idle {n : Text} {j : Journal V} (hnone : NoCoarse j.store) {now : Int}
    {io : FlushIO} {i : Nat} (hidle : Idle j (.round now io n i)) :
    NoCoarse (downsampleRound now io n i j.store) := by
  have hsame (k : Text) : k ∈ (downsampleRound now io n i j.store).registry ↔
      k ∈ j.store.registry := by
    unfold downsampleRound
    cases hashFindStr n j.store with
    | none => exact Iff.rfl
    | some m =>
      dsimp only
      cases m.entry.chunks[i]? <;> exact Iff.rfl
  have hdirs (k : Text) : (downsampleRound now io n i j.store).dirOf k = j.store.dirOf k := by
    unfold downsampleRound
    cases hf : hashFindStr n j.store with
    | none => rfl
    | some m =>
      dsimp only
      cases hi : m.entry.chunks[i]? with
      | none => rfl
      | some chunk =>
        have hyoung : downsampleChunk (now - downsampleAfterSeconds) io n m.dir
            (j.store.dirOf (downsampleCoarseDir n)) chunk =
              j.store.dirOf (downsampleCoarseDir n) := if_pos (hidle m hf chunk hi)
        dsimp only
        rw [hyoung, dirOf_setDir_same]
  intro k hk
  rw [hsame] at hk
  rw [hsame, hdirs]
  exact hnone k hk

theorem idle_mixed {j : Journal V} (h : Reach (fun j => j = Journal.empty)
    (Guarded (fun j e => Distinct dataDir j e ∧ Idle j e) (Event.run dataDir)) j) :
    Mixed dataDir j :=
  h.mono fun _ _ _ hs => ⟨hs.1.1, hs.2⟩

theorem idle_noCoarse {j : Journal V} (h : Reach (fun j => j = Journal.empty)
    (Guarded (fun j e => Distinct dataDir j e ∧ Idle j e) (Event.run dataDir)) j) :
    NoCoarse j.store := by
  induction h with
  | start h =>
    obtain rfl := h
    exact fun n hn => absurd hn (AList.notMem_empty n)
  | next e h hs ih =>
    obtain ⟨⟨hguard, hidle⟩, hrun⟩ := hs
    cases e with
    | request env n order => exact noCoarse_request (mixed_tidy (idle_mixed h)) ih hguard hrun
    | round now io n i =>
      obtain rfl := Option.some.inj hrun
      exact noCoarse_idle ih hidle

theorem idle_rounds_restart_clean {j : Journal V}
    (h : Reach (fun j => j = Journal.empty)
      (Guarded (fun j e => Distinct dataDir j e ∧ Idle j e) (Event.run dataDir)) j)
    (hload : ∀ k ∈ j.store.registry, Loadable dataDir k)
    (hfresh : ∀ k m, hashFindStr k j.store = some m → opensFresh dataDir k .ok .flush m) :
    RestartsClean dataDir j :=
  clean_of_noCoarse (mixed_tidy (idle_mixed h)) hload hfresh (idle_noCoarse h)

end Tsdb.IdleRounds
