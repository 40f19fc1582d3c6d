import Tsdb.Directories

namespace Tsdb.DirectoryUse

open CStrings Head Files Wal Registry Sections History Service Disk Downsample CoarseDirs
  CoarseRuns CoarseSound MinutePasses Directories Runs

variable {V : Type} {dataDir : Text}

/-- What the directories below the data directory are there for: the metrics, whose chunks are
complete files, and the coarse files of metrics. -/
structure Tidy (dataDir : Text) (j : Journal V) (k : Text) : Prop where
  found : ∀ m, hashFindStr k j.store = some m →
    (∃ flushed, OnDisk dataDir k ⟨m, j.accepted k, flushed⟩) ∧ m.dir.present = true ∧
      j.accepted k ≠ []
  absent : hashFindStr k j.store = none → (j.store.dirOf k).wal = none ∧ j.accepted k = []
  dirs : (j.store.dirOf k).present = true → hashFindStr k j.store ≠ none ∨
    ∃ n, hashFindStr n j.store ≠ none ∧ k = downsampleCoarseDir n
  files : ∀ name data, chunkRead (j.store.dirOf k) name = some data →
    (j.store.dirOf k).present = true ∧
      ((∃ m, hashFindStr k j.store = some m ∧ name ∈ filenames m) ∨
        data.points ≠ [] ∧ ∃ n ts, hashFindStr n j.store ≠ none ∧ k = downsampleCoarseDir n ∧
          name = coarseName n (chunkId ts))

theorem coarseName_not_chunk {n : Text} {l : Ledger V}
    (hd : OnDisk dataDir (downsampleCoarseDir n) l) (id : Nat) :
    coarseName n id ∉ filenames l.metric := by
  intro hmem
  obtain ⟨chunk, hc, hname⟩ := List.mem_map.mp hmem
  rw [hd.named chunk hc] at hname
  exact coarseName_ne_chunkName dataDir n _ _ hname.symm

theorem Tidy.coarse_owner {n : Text} {j : Journal V} (h : Tidy dataDir j (downsampleCoarseDir n))
    {id : Nat} (hread : chunkRead (j.store.dirOf (downsampleCoarseDir n)) (coarseName n id) ≠ none) :
    (j.store.dirOf (downsampleCoarseDir n)).present = true ∧ n ∈ j.store.registry := by
  obtain ⟨data, hdata⟩ := Option.ne_none_iff_exists'.mp hread
  obtain ⟨hpresent, ⟨m, hm, hname⟩ | ⟨_, n', _, hn', heq, _⟩⟩ := h.files _ data hdata
  · obtain ⟨⟨flushed, hd⟩, _⟩ := h.found m hm
    exact absurd hname (coarseName_not_chunk hd id)
  · obtain rfl := coarseDir_injective heq
    exact ⟨hpresent, mem_registry.mpr hn'⟩

theorem tidy_empty (dataDir k : Text) : Tidy dataDir (Journal.empty : Journal V) k := by
  refine ⟨fun m h => ?_, fun _ => ⟨rfl, rfl⟩, fun h => ?_, fun name data h => ?_⟩
  · cases h
  · cases h
  · cases h

def Distinct (dataDir : Text) (j : Journal V) : Event V → Prop
  | .request env metric order => ∀ m ∈ getMetricFromHashTable env.unset metric order.isPut j.store,
    opensFresh dataDir metric env.io order m
  | .round _ _ _ _ => True

instance (dataDir : Text) (j : Journal V) : ∀ e : Event V, Decidable (Distinct dataDir j e)
  | .request env metric order => inferInstanceAs (Decidable
      (∀ m ∈ getMetricFromHashTable env.unset metric order.isPut j.store,
        opensFresh dataDir metric env.io order m))
  | .round _ _ _ _ => .isTrue trivial

theorem Tidy.served {n : Text} {j : Journal V} (h : Tidy dataDir j n) {env : Env} {order : Order V}
    {m : MetricState V} (hm : m ∈ getMetricFromHashTable env.unset n order.isPut j.store)
    (hguard : opensFresh dataDir n env.io order m) :
    m.dir = j.store.dirOf n ∧ ∃ flushed,
      OnDisk dataDir n (order.run dataDir n env.io ⟨m, j.accepted n, flushed⟩).2 ∧
      (order.run dataDir n env.io ⟨m, j.accepted n, flushed⟩).2.metric.dir.present = true ∧
      (order.run dataDir n env.io ⟨m, j.accepted n, flushed⟩).2.accepted ≠ [] := by
  obtain hf | ⟨hf, hput, rfl⟩ := getMetric_cases hm
  · obtain ⟨⟨flushed, hd⟩, hpresent, hacc⟩ := h.found m hf
    exact ⟨find_dir hf, flushed, onDisk_order hd hguard,
      (extends_order dataDir n env.io order _).present hpresent,
      accepted_order dataDir n env.io order hacc⟩
  · obtain ⟨hwal, hacc⟩ := h.absent hf
    cases order with
    | flush => cases hput
    | put point =>
      rw [hacc]
      refine ⟨rfl, [], onDisk_order (onDisk_fresh dataDir n env.unset hwal) hguard, ?_, ?_⟩
      · rw [order_new]
        rfl
      · rw [order_new]
        simp

theorem registered_set {n : Text} (s : Store V) (m : MetricState V) {k : Text}
    (hk : hashFindStr k s ≠ none) : hashFindStr k (s.set n m) ≠ none := by
  by_cases hkn : k = n
  · rw [hkn, find_set]
    exact Option.some_ne_none _
  · rwa [find_set_ne _ hkn]

theorem tidy_set_self {n : Text} {j : Journal V} (h : Tidy dataDir j n) {old : MetricState V}
    (hfind : hashFindStr n j.store = some old ∨ hashFindStr n j.store = none)
    (hdir : old.dir = j.store.dirOf n) {l : Ledger V} (hd : OnDisk dataDir n l)
    (hpresent : l.metric.dir.present = true) (hne : l.accepted ≠ [])
    (hext : Extends old l.metric) :
    Tidy dataDir ⟨j.store.set n l.metric, Function.update j.accepted n l.accepted⟩ n := by
  refine ⟨fun m hm => ?_, fun hnone => ?_, fun _ => .inl ?_, fun name data hread => ?_⟩
  · obtain rfl := Option.some.inj ((find_set _ _ _).symm.trans hm)
    dsimp only
    rw [Function.update_self]
    exact ⟨⟨l.flushed, hd⟩, hpresent, hne⟩
  · rw [find_set] at hnone
    cases hnone
  · rw [find_set]
    exact Option.some_ne_none _
  · rw [dirOf_set] at hread ⊢
    refine ⟨hpresent, ?_⟩
    rcases hext.files name data hread with ⟨hnew, _⟩ | hold
    · exact .inl ⟨l.metric, find_set _ _ _, hnew⟩
    · rw [hdir] at hold
      obtain ⟨_, ⟨m, hm, hname⟩ | ⟨hpoints, n', ts, hn', hcoarse⟩⟩ := h.files name data hold
      · rw [hm] at hfind
        obtain rfl := Option.some.inj (hfind.resolve_right (Option.some_ne_none m))
        exact .inl ⟨l.metric, find_set _ _ _, hext.chunks hname⟩
      · exact .inr ⟨hpoints, n', ts, registered_set _ _ hn', hcoarse⟩

theorem tidy_set_ne {n k : Text} (hk : k ≠ n) {j : Journal V} (h : Tidy dataDir j k)
    (m : MetricState V) (accepted : List (Point V)) :
    Tidy dataDir ⟨j.store.set n m, Function.update j.accepted n accepted⟩ k := by
  refine ⟨?_, ?_, ?_, ?_⟩
  · dsimp only
    rw [find_set_ne _ hk, Function.update_of_ne hk]
    exact h.found
  · dsimp only
    rw [find_set_ne _ hk, dirOf_set_ne _ hk, Function.update_of_ne hk]
    exact h.absent
  · intro hpresent
    rw [dirOf_set_ne _ hk] at hpresent
    rw [find_set_ne _ hk]
    rcases h.dirs hpresent with hreg | ⟨n', hn', hcoarse⟩
    · exact .inl hreg
    · exact .inr ⟨n', registered_set _ _ hn', hcoarse⟩
  · intro name data hread
    rw [dirOf_set_ne _ hk] at hread ⊢
    rw [find_set_ne _ hk]
    obtain ⟨hpresent, hold | ⟨hpoints, n', ts, hn', hcoarse⟩⟩ := h.files name data hread
    · exact ⟨hpresent, .inl hold⟩
    · exact ⟨hpresent, .inr ⟨hpoints, n', ts, registered_set _ _ hn', hcoarse⟩⟩

variable [Zero V] [Add V] [Div V] [NatCast V]

theorem tidy_request {n : Text} {j j' : Journal V} (h : ∀ k, Tidy dataDir j k) {env : Env}
    {order : Order V} (hguard : Distinct dataDir j (.request env n order))
    (hrun : (Event.request env n order).run dataDir j = some j') (k : Text) :
    Tidy dataDir j' k := by
  obtain ⟨⟨res, j'⟩, hserve, rfl⟩ := Option.map_eq_some_iff.mp hrun
  obtain ⟨m, hm, _⟩ := serve_ledger hserve []
  obtain ⟨hdir, flushed, hd, hpresent, hne⟩ := (h n).served hm (hguard m hm)
  obtain ⟨m1, hm1, _, hstore, haccepted⟩ := serve_ledger hserve flushed
  obtain rfl := Option.mem_unique hm hm1
  obtain ⟨store, accepted⟩ := j'
  dsimp only at hstore haccepted
  subst hstore haccepted
  by_cases hk : k = n
  · subst hk
    have hext := extends_order dataDir k env.io order ⟨m, j.accepted k, flushed⟩
    exact tidy_set_self (h k) ((getMetric_cases hm).imp_right And.left) hdir hd hpresent hne hext
  · exact tidy_set_ne hk (h k) _ _

structure RoundOn (dataDir n k : Text) (dir dir' : Dir V) : Prop where
  wal : dir'.wal = dir.wal
  raw : ∀ ts, chunkRead dir' (chunkName dataDir k (chunkId ts)) =
    chunkRead dir (chunkName dataDir k (chunkId ts))
  kept : dir.present = true → dir'.present = true
  made : dir'.present = true → dir.present = true ∨ k = downsampleCoarseDir n
  files : ∀ name data, chunkRead dir' name = some data → chunkRead dir name = some data ∨
    dir'.present = true ∧ data.points ≠ [] ∧ k = downsampleCoarseDir n ∧
      ∃ ts, name = coarseName n (chunkId ts)

theorem round_dirs (dataDir n : Text) (now : Int) (io : FlushIO) (i : Nat) (s : Store V) (k : Text) :
    (∀ m, hashFindStr k (downsampleRound now io n i s) = some m →
      ∃ m0, hashFindStr k s = some m0 ∧
        m = ⟨m0.entry, (downsampleRound now io n i s).dirOf k⟩) ∧
    (hashFindStr k s ≠ none → hashFindStr k (downsampleRound now io n i s) ≠ none) ∧
    (hashFindStr n s = none → (downsampleRound now io n i s) = s) ∧
    RoundOn dataDir n k (s.dirOf k) ((downsampleRound now io n i s).dirOf k) := by
  have hsame : RoundOn dataDir n k (s.dirOf k) (s.dirOf k) :=
    ⟨rfl, fun _ => rfl, id, .inl, fun _ _ h => .inl h⟩
  have hself (m : MetricState V) (hm : hashFindStr k s = some m) :
      ∃ m0, hashFindStr k s = some m0 ∧ m = ⟨m0.entry, s.dirOf k⟩ :=
    ⟨m, hm, by rw [← find_dir hm]⟩
  unfold downsampleRound
  cases hf : hashFindStr n s with
  | none => exact ⟨hself, id, fun _ => rfl, hsame⟩
  | some m =>
    dsimp only
    cases m.entry.chunks[i]? with
    | none => exact ⟨hself, id, fun _ => rfl, hsame⟩
    | some chunk =>
      dsimp only
      refine ⟨fun m' hm' => ?_, fun hk => ?_, fun hnone => (nomatch hnone), ?_⟩
      · rw [find_setDir] at hm'
        obtain ⟨m0, hm0, rfl⟩ := Option.map_eq_some_iff.mp hm'
        exact ⟨m0, hm0, rfl⟩
      · rw [find_setDir]
        exact fun hnone => hk (Option.map_eq_none_iff.mp hnone)
      · by_cases hk : k = downsampleCoarseDir n
        · subst hk
          rw [dirOf_setDir]
          obtain ⟨hwal, hframe⟩ := downsampleChunk_frame (now - downsampleAfterSeconds) io n m.dir
            (s.dirOf (downsampleCoarseDir n)) chunk
          obtain ⟨hpresent, hfiles⟩ := downsampleChunk_files (now - downsampleAfterSeconds) io n
            m.dir (s.dirOf (downsampleCoarseDir n)) chunk
          refine ⟨hwal, fun ts => ?_, hpresent, fun _ => .inr rfl, fun name data hread => ?_⟩
          · exact hframe _ fun id => (coarseName_ne_chunkName dataDir n id _).symm
          · rcases hfiles name data hread with hold | ⟨hp, hpoints, hname⟩
            · exact .inl hold
            · exact .inr ⟨hp, hpoints, rfl, hname⟩
        · rw [dirOf_setDir_ne s hk]
          exact hsame

theorem tidy_round {n : Text} {j : Journal V} (h : ∀ k, Tidy dataDir j k) (now : Int)
    (io : FlushIO) (i : Nat) (k : Text) :
    Tidy dataDir ⟨downsampleRound now io n i j.store, j.accepted⟩ k := by
  obtain ⟨hfound, hkept, hnone, hdir⟩ := round_dirs dataDir n now io i j.store k
  cases hn : hashFindStr n j.store with
  | none =>
    rw [hnone hn]
    exact h k
  | some mn =>
    have hreg (k : Text) := (round_dirs dataDir n now io i j.store k).2.1
    have hn : hashFindStr n (downsampleRound now io n i j.store) ≠ none :=
      hreg n (by rw [hn]; exact Option.some_ne_none mn)
    refine ⟨fun m hm => ?_, fun hm => ?_, fun hp => ?_, fun name data hread => ?_⟩
    · obtain ⟨m0, hm0, rfl⟩ := hfound m hm
      obtain ⟨⟨flushed, hd⟩, hp, hacc⟩ := (h k).found m0 hm0
      refine ⟨⟨flushed, OnDisk.dir hd ?_ fun chunk hc => ?_⟩, ?_, hacc⟩
      · rw [find_dir hm0]
        exact hdir.wal
      · rw [hd.named chunk hc, find_dir hm0]
        exact hdir.raw chunk.startTs
      · rw [find_dir hm0] at hp
        exact hdir.kept hp
    · have hold : hashFindStr k j.store = none := by
        by_contra hne
        exact hkept hne hm
      obtain ⟨hwal, hacc⟩ := (h k).absent hold
      exact ⟨hdir.wal.trans hwal, hacc⟩
    · rcases hdir.made hp with hp | hk
      · rcases (h k).dirs hp with hk | ⟨n0, hn0, hk⟩
        · exact .inl (hkept hk)
        · exact .inr ⟨n0, hreg n0 hn0, hk⟩
      · exact .inr ⟨n, hn, hk⟩
    · rcases hdir.files name data hread with hread | ⟨hp, hpoints, hk, ts, hname⟩
      · obtain ⟨hp, hold⟩ := (h k).files name data hread
        refine ⟨hdir.kept hp, ?_⟩
        rcases hold with ⟨m0, hm0, hname⟩ | ⟨hpoints, n0, ts, hn0, hk, hname⟩
        · obtain ⟨m, hm⟩ := Option.ne_none_iff_exists'.mp
            (hkept (by rw [hm0]; exact Option.some_ne_none m0))
          obtain ⟨m1, hm1, rfl⟩ := hfound m hm
          obtain rfl := Option.some.inj (hm0.symm.trans hm1)
          exact .inl ⟨_, hm, hname⟩
        · exact .inr ⟨hpoints, n0, ts, hreg n0 hn0, hk, hname⟩
      · exact ⟨hp, .inr ⟨hpoints, n, ts, hn, hk, hname⟩⟩

def Mixed (dataDir : Text) : Journal V → Prop :=
  Reach (fun j => j = Journal.empty) (Guarded (Distinct dataDir) (Event.run dataDir))

theorem mixed_tidy {j : Journal V} (h : Mixed dataDir j) (k : Text) : Tidy dataDir j k := by
  refine Reach.invariant (fun j => ∀ k, Tidy dataDir j k) ?_ ?_ h k
  · rintro _ rfl k
    exact tidy_empty dataDir k
  · rintro e j j' hj ⟨hguard, hrun⟩ k
    cases e with
    | request env n order => exact tidy_request hj hguard hrun k
    | round now io n i =>
      obtain rfl := Option.some.inj hrun
      exact tidy_round hj now io i k

end Tsdb.DirectoryUse
