import Tsdb.ExactlyOnce
import Tsdb.PutAnswer
import Tsdb.Reload

namespace Tsdb.CleanRestart

open CStrings Head Files Registry Sections History Service Disk Downsample CoarseDirs CoarseRuns
  ChunkNames Recovery Loading CrashFiles ExactlyOnce PutAnswer Directories DirectoryUse Shutdown
  Reload Runs

variable {V : Type} {dataDir : Text}

/-- A shutdown in which every flush goes well, and the start of the next server, which may list
the chunk files of a directory in any order. -/
def Restarts (dataDir : Text) (unset : Text → Int) (s s' : Store V) : Prop :=
  ∃ dirs, (∀ k, Relisted ((cleanupRegistry dataDir (fun _ => .ok) s).dirOf k)
      ((dirs.lookup k).getD Dir.empty)) ∧
    s' = loadRegistry dataDir unset dirs

/-- The next server has the same metrics with the same points, and all of them are clients'. -/
structure Unchanged (j : Journal V) (s' : Store V) : Prop where
  keys : ∀ k, k ∈ s'.registry ↔ k ∈ j.store.registry
  points : ∀ k, (pointsOf s' k).Perm (pointsOf j.store k)
  written : ∀ k ∈ s'.registry, j.accepted k ≠ []

def RestartsClean (dataDir : Text) (j : Journal V) : Prop :=
  ∀ unset s', Restarts dataDir unset j.store s' → Unchanged j s'

/-- A coarse directory is there only for a client's metric of its name, and has no coarse file. -/
def NoCoarse (s : Store V) : Prop :=
  ∀ n ∈ s.registry,
    ((s.dirOf (downsampleCoarseDir n)).present = true → downsampleCoarseDir n ∈ s.registry) ∧
      ∀ ts, chunkRead (s.dirOf (downsampleCoarseDir n)) (coarseName n (chunkId ts)) = none

theorem reloaded_iff {j : Journal V} {k : Text} (h : Tidy dataDir j k) {m : MetricState V}
    (hm : hashFindStr k j.store = some m) (hload : Loadable dataDir k)
    (hfresh : opensFresh dataDir k .ok .flush m) {unset : Text → Int}
    {dirs : AList fun _ : Text => Dir V} (hlist : Relisted
      ((cleanupRegistry dataDir (fun _ => .ok) j.store).dirOf k) ((dirs.lookup k).getD Dir.empty)) :
    k ∈ (loadRegistry dataDir unset dirs).registry ∧
      ((pointsOf (loadRegistry dataDir unset dirs) k).Perm (pointsOf j.store k) ↔
        ∀ n, k = downsampleCoarseDir n → ∀ ts,
          chunkRead (j.store.dirOf k) (coarseName n (chunkId ts)) = none) := by
  obtain ⟨⟨flushed, hd⟩, hpresent, _⟩ := h.found m hm
  have hd' := onDisk_flush hd .ok (hfresh trivial)
  have hext := extends_flush dataDir k .ok m
  rw [cleanup_dir hm] at hlist
  have hfiles : ∀ name data,
      chunkRead (flushSection dataDir k .ok m).2.dir name = some data →
      name ∈ filenames (flushSection dataDir k .ok m).2 ∨
        data.points ≠ [] ∧ ∃ n ts, k = downsampleCoarseDir n ∧ name = coarseName n (chunkId ts) := by
    intro name data hread
    rcases hext.files name data hread with ⟨hnew, _⟩ | hold
    · exact .inl hnew
    · rw [find_dir hm] at hold
      obtain ⟨_, ⟨m0, hm0, hname⟩ | ⟨hpoints, n, ts, _, hk, hname⟩⟩ := h.files name data hold
      · obtain rfl := Option.some.inj (hm.symm.trans hm0)
        exact .inl (hext.chunks hname)
      · exact .inr ⟨hpoints, n, ts, hk, hname⟩
  have hthere := hlist.present.symm.trans (hext.present hpresent)
  have hfind := find_loadRegistry dataDir unset dirs hload.1 (lookup_present hthere) hthere
  refine ⟨mem_of_find hfind, ?_⟩
  have hempty : (flushSection dataDir k .ok m).2.entry.head.points = [] :=
    flushSection_empties ⟨rfl, fun first _ => chunkName_ne_nil hload.fits first.ts⟩
  have hiff := reload_iff hd' hempty hlist hload hfiles (unset k)
  have hstored : pointsOf j.store k = j.accepted k := by
    rw [pointsOf, hm]
    exact hd.stored
  rw [pointsOf, hfind, hstored]
  apply hiff.trans
  have hsame (n : Text) (hk : k = downsampleCoarseDir n) (ts : Int) :
      chunkRead (flushSection dataDir k .ok m).2.dir (coarseName n (chunkId ts)) =
        chunkRead (j.store.dirOf k) (coarseName n (chunkId ts)) := by
    rw [← find_dir hm]
    apply (grows_flush .ok (hfresh trivial)).frame
    rw [hk]
    exact fun ts' => coarseName_ne_chunkName dataDir n _ _
  constructor
  · intro h n hk ts
    rw [← hsame n hk]
    exact h n hk ts
  · intro h n hk ts
    exact (hsame n hk ts).trans (h n hk ts)

theorem entryName_coarseDir {n : Text} (h : EntryName n) : EntryName (downsampleCoarseDir n) := by
  have hlen : (downsampleCoarseDir n).length = n.length + 3 := List.length_append
  refine ⟨?_, ?_, ?_, ?_⟩
  · rintro heq
    simp [heq] at hlen
  · rw [downsampleCoarseDir, List.mem_append, not_or]
    exact ⟨h.2.1, by decide⟩
  · rintro heq
    simp [heq] at hlen
  · rintro heq
    simp [heq] at hlen

theorem absent_stays {j : Journal V} {k : Text} (h : Tidy dataDir j k) (hnone : NoCoarse j.store)
    (hk : hashFindStr k j.store = none) {unset : Text → Int} {dirs : AList fun _ : Text => Dir V}
    (hlist : Relisted ((cleanupRegistry dataDir (fun _ => .ok) j.store).dirOf k)
      ((dirs.lookup k).getD Dir.empty)) :
    hashFindStr k (loadRegistry dataDir unset dirs) = none := by
  rw [cleanup_dir_none hk] at hlist
  apply find_loadRegistry_none
  rw [← hlist.present, ← Bool.not_eq_true]
  intro hpresent
  rcases h.dirs hpresent with hreg | ⟨n, hn, rfl⟩
  · exact hreg hk
  · exact mem_registry.mp ((hnone n (mem_registry.mpr hn)).1 hpresent) hk

theorem noCoarse_of_clean {j : Journal V} (h : ∀ k, Tidy dataDir j k)
    (hload : ∀ k ∈ j.store.registry, Loadable dataDir k)
    (hfresh : ∀ k m, hashFindStr k j.store = some m → opensFresh dataDir k .ok .flush m)
    (hclean : RestartsClean dataDir j) : NoCoarse j.store := by
  intro n hn
  have hlist (k : Text) : Relisted
      ((cleanupRegistry dataDir (fun _ => .ok) j.store).dirOf k)
      (((cleanupRegistry dataDir (fun _ => .ok) j.store).dirs.lookup k).getD Dir.empty) :=
    .refl _
  have hsame := hclean (fun _ => 0) _ ⟨_, hlist, rfl⟩
  have hkeys : (j.store.dirOf (downsampleCoarseDir n)).present = true →
      downsampleCoarseDir n ∈ j.store.registry := by
    intro hpresent
    by_contra hk
    have hnone : hashFindStr (downsampleCoarseDir n) j.store = none := by
      by_contra hne
      exact hk (mem_registry.mpr hne)
    rw [← @cleanup_dir_none V dataDir (fun _ => .ok) _ _ hnone] at hpresent
    apply hk
    rw [← hsame.keys, mem_registry, find_loadRegistry dataDir (fun _ => 0) _
      (entryName_coarseDir (hload n hn).1) (lookup_present hpresent) hpresent]
    exact Option.some_ne_none _
  refine ⟨hkeys, fun ts => ?_⟩
  by_contra hread
  have hk := hkeys ((h _).coarse_owner hread).1
  obtain ⟨m, hm⟩ := Option.ne_none_iff_exists'.mp (mem_registry.mp hk)
  obtain ⟨_, hiff⟩ := @reloaded_iff V dataDir _ _ (h _) m hm (hload _ hk) (hfresh _ m hm)
    (fun _ => 0) _ (hlist _)
  exact hread (hiff.mp (hsame.points _) n rfl ts)

theorem clean_of_noCoarse {j : Journal V} (h : ∀ k, Tidy dataDir j k)
    (hload : ∀ k ∈ j.store.registry, Loadable dataDir k)
    (hfresh : ∀ k m, hashFindStr k j.store = some m → opensFresh dataDir k .ok .flush m)
    (hnone : NoCoarse j.store) : RestartsClean dataDir j := by
  rintro unset s' ⟨dirs, hlist, rfl⟩
  have hfound (k : Text) (hk : k ∈ j.store.registry) :
      k ∈ (loadRegistry dataDir unset dirs).registry ∧
        (pointsOf (loadRegistry dataDir unset dirs) k).Perm (pointsOf j.store k) := by
    obtain ⟨m, hm⟩ := Option.ne_none_iff_exists'.mp (mem_registry.mp hk)
    obtain ⟨hmem, hiff⟩ := @reloaded_iff V dataDir _ _ (h k) m hm (hload k hk) (hfresh k m hm)
      unset _ (hlist k)
    refine ⟨hmem, hiff.mpr ?_⟩
    rintro n rfl ts
    by_contra hread
    exact hread ((hnone n ((h _).coarse_owner hread).2).2 ts)
  have hkeys (k : Text) : k ∈ (loadRegistry dataDir unset dirs).registry ↔ k ∈ j.store.registry := by
    constructor
    · intro hk
      by_contra hnot
      have hfind : hashFindStr k j.store = none := by
        by_contra hne
        exact hnot (mem_registry.mpr hne)
      exact mem_registry.mp hk (absent_stays (h k) hnone hfind (hlist k))
    · exact fun hk => (hfound k hk).1
  refine ⟨hkeys, fun k => ?_, fun k hk => ?_⟩
  · by_cases hk : k ∈ j.store.registry
    · exact (hfound k hk).2
    · have hnot := mt (hkeys k).mp hk
      rw [mem_registry, not_not] at hk hnot
      rw [pointsOf, pointsOf, hk, hnot]
  · obtain ⟨m, hm⟩ := Option.ne_none_iff_exists'.mp (mem_registry.mp ((hkeys k).mp hk))
    exact ((h k).found m hm).2.2

section Rounds

variable [Zero V] [Add V] [Div V] [NatCast V]

/-- Shutdown and start are the identity on keys and points exactly when downsampling has left
no coarse directory for the next server to take for a metric, and no coarse file in the
directory of a metric. -/
theorem clean_restart_iff {j : Journal V} (h : Mixed dataDir j)
    (hload : ∀ k ∈ j.store.registry, Loadable dataDir k)
    (hfresh : ∀ k m, hashFindStr k j.store = some m → opensFresh dataDir k .ok .flush m) :
    RestartsClean dataDir j ↔ NoCoarse j.store :=
  ⟨noCoarse_of_clean (mixed_tidy h) hload hfresh, clean_of_noCoarse (mixed_tidy h) hload hfresh⟩

private def pointsAround : List (Event Nat) :=
  [.request ⟨9, .ok⟩ ['m'] (.put ⟨5, 1⟩), .request ⟨9, .ok⟩ ['m'] .flush,
    .request ⟨9, .ok⟩ ['m'] (.put ⟨7, 2⟩), .round 100 .ok ['m'] 0]

theorem clean_restart_iff_young_chunk : ∃ j : Journal Nat,
    pointsAround.foldlM (Event.run ['d']) Journal.empty = some j ∧ RestartsClean ['d'] j := by
  obtain ⟨j, hj, hp⟩ := Option.map_eq_some_iff.mp (show
    (pointsAround.foldlM (Event.run ['d']) Journal.empty).map (fun j => decide
      (j.store.registry.keys = [['m']] ∧
        (hashFindStr ['m'] j.store).all (fun m => opensFresh ['d'] ['m'] .ok .flush m) ∧
        (j.store.dirOf (downsampleCoarseDir ['m'])).present = false ∧
        (j.store.dirOf (downsampleCoarseDir ['m'])).chunks.keys = [])) = some true by decide)
  obtain ⟨hkeys, hfresh, habsent, hnames⟩ := of_decide_eq_true hp
  have hreach : Mixed ['d'] j := .run (.start rfl) _ (by decide) hj
  refine ⟨j, hj, (clean_restart_iff hreach (fun k hk => ?_) fun k m hm => ?_).mpr fun n hn => ?_⟩
  · rw [eq_of_keys hkeys hk]
    exact ⟨by decide, by decide⟩
  · obtain rfl := eq_of_keys hkeys (mem_of_find hm)
    rw [hm] at hfresh
    exact of_decide_eq_true hfresh
  · obtain rfl := eq_of_keys hkeys hn
    refine ⟨fun hpresent => ?_, fun ts => ?_⟩
    · rw [habsent] at hpresent
      cases hpresent
    · by_contra hread
      obtain ⟨data, hdata⟩ := Option.ne_none_iff_exists'.mp hread
      have hmem := chunkRead_key hdata
      rw [hnames] at hmem
      cases hmem

private def oldChunk : List (Event Nat) :=
  [.request ⟨9, .ok⟩ ['m'] (.put ⟨0, 1⟩), .request ⟨9, .ok⟩ ['m'] .flush,
    .round 10000 .ok ['m'] 0]

/-- The coarse directory of `m` comes back as a metric `m_1m` that nobody wrote. -/
theorem coarse_dir_becomes_metric : ¬ ∀ j : Journal Nat, Mixed ['d'] j →
    (∀ k ∈ j.store.registry, Loadable ['d'] k) →
    (∀ k m, hashFindStr k j.store = some m → opensFresh ['d'] k .ok .flush m) →
    RestartsClean ['d'] j := by
  intro h
  obtain ⟨j, hj, hp⟩ := Option.map_eq_some_iff.mp (show
    (oldChunk.foldlM (Event.run ['d']) Journal.empty).map (fun j => decide
      (j.store.registry.keys = [['m']] ∧
        (hashFindStr ['m'] j.store).all (fun m => opensFresh ['d'] ['m'] .ok .flush m) ∧
        "m_1m".toList ∈ (loadRegistry ['d'] (fun _ => 0)
          (cleanupRegistry ['d'] (fun _ => .ok) j.store).dirs).registry.keys)) = some true by decide)
  obtain ⟨hkeys, hfresh, hnew⟩ := of_decide_eq_true hp
  have hreach : Mixed ['d'] j := .run (.start rfl) _ (by decide) hj
  have hclean := h j hreach (fun k hk => ?_) fun k m hm => ?_
  · have hsame := hclean (fun _ => 0) _ ⟨_, fun k => .refl _, rfl⟩
    exact absurd (eq_of_keys hkeys ((hsame.keys _).mp (AList.mem_keys.mpr hnew))) (by decide)
  · rw [eq_of_keys hkeys hk]
    exact ⟨by decide, by decide⟩
  · obtain rfl := eq_of_keys hkeys (mem_of_find hm)
    rw [hm] at hfresh
    exact of_decide_eq_true hfresh

end Rounds

end Tsdb.CleanRestart
