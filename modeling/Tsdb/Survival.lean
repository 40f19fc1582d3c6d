import Tsdb.Keeping
import Tsdb.Moves

namespace Tsdb.Survival

open CStrings Head Files Wal Registry Sections History Service Disk Exactness ChunkNames Recovery
  Replay Loading Shutdown LoadOrder Retention Lifetime TimeOrder Runs Reads Keeping Outcomes Moves

variable {V : Type} {bits : V → BitVec 64} {dataDir metric : Text}

/-- A server with a retention thread, and what has happened: the points `Head_PUT` said yes to,
and the expiry passes with their time. -/
structure Past (V : Type) where
  store : Store V
  accepted : Text → List (Point V)
  passes : List (RetentionConfig × Int)

def Past.empty : Past V := ⟨Store.empty, fun _ => [], []⟩

def Past.run (dataDir : Text) (s : Past V) : Move V → Option (Past V)
  | .request x =>
    (request dataDir ⟨s.store, s.accepted⟩ x).map fun j => ⟨j.store, j.accepted, s.passes⟩
  | .expire cfg now removes =>
    some ⟨runExpiry cfg now removes s.store, s.accepted, s.passes ++ [(cfg, now)]⟩
  | .restart unset _ dirs => some ⟨loadRegistry dataDir unset dirs, s.accepted, s.passes⟩

/-- Some pass was to drop points as old as this one. -/
def Outdated (passes : List (RetentionConfig × Int)) (metric : Text) (p : Point V) : Prop :=
  ∃ x ∈ passes, 0 < retentionGet x.1 metric ∧ p.ts < x.2 - retentionGet x.1 metric

/-- What the code leaves to its surroundings. Clients write to names that fit into a path, at
times that rise and fit into a chunk id. `malloc` leaves a new block a time below what is logged.
When files expire, no two entries of a metric share one. -/
def Steady (dataDir : Text) (s : Past V) : Move V → Prop
  | .request ⟨_, _, metric, .put point⟩ =>
    Loadable dataDir metric ∧ (0 ≤ point.ts ∧ point.ts < 2 ^ 32) ∧
      ∀ q ∈ s.accepted metric, q.ts < point.ts
  | .request ⟨_, _, _, .flush⟩ => True
  | .expire _ _ _ => ∀ k m, hashFindStr k s.store = some m → (filenames m).Nodup
  | .restart unset _ dirs =>
    ∀ k, ∀ p ∈ ((dirs.lookup k).getD Dir.empty).wal.getD [], unset k < p.ts

def Surviving (bits : V → BitVec 64) (dataDir : Text) : Past V → Prop :=
  Reach (fun s => s = Past.empty)
    (Guarded (fun s x => Moves.Possible dataDir s.store x ∧ Faithful bits s.store x ∧
      Steady dataDir s x) (Past.run dataDir))

structure Kept (dataDir : Text) (s : Past V) (k : Text) : Prop where
  dir : DirKept dataDir k (s.store.dirOf k) (s.accepted k)
  metric : ∀ m, hashFindStr k s.store = some m →
    MetricKept dataDir k (Outdated s.passes k) m (s.accepted k)
  found : s.accepted k ≠ [] → hashFindStr k s.store ≠ none

theorem Kept.unknown {s : Past V} {k : Text} (h : Kept dataDir s k)
    (hfind : hashFindStr k s.store = none) : s.accepted k = [] := by
  by_contra hne
  exact h.found hne hfind

theorem Kept.get {s : Past V} {k : Text} (h : Kept dataDir s k) {unset : Int} {flag : Bool}
    {m : MetricState V} (hm : m ∈ getMetricFromHashTable unset k flag s.store) :
    MetricKept dataDir k (Outdated s.passes k) m (s.accepted k) := by
  obtain hf | ⟨hf, -, rfl⟩ := getMetric_cases hm
  · exact h.metric _ hf
  · have hdir := h.dir
    rw [h.unknown hf] at hdir ⊢
    exact metricKept_new hdir unset

theorem kept_request {s s' : Past V} (h : ∀ k, Kept dataDir s k) {x : Attempt V}
    (hfaithful : Faithful bits s.store (.request x)) (hsteady : Steady dataDir s (.request x))
    (hrun : s.run dataDir (.request x) = some s') (k : Text) : Kept dataDir s' k := by
  obtain ⟨j, hrequest, rfl⟩ := Option.map_eq_some_iff.mp hrun
  rw [request_call fun m hm => (hfaithful.2 m hm).1] at hrequest
  obtain ⟨unset, io, n, order⟩ := x
  obtain ⟨⟨res, j⟩, hserve, rfl⟩ := Option.map_eq_some_iff.mp hrequest
  obtain ⟨m, hm, _, hstore, haccepted⟩ := serve_ledger hserve []
  have hnew := @metricKept_order V dataDir n (Outdated s.passes n) ⟨m, s.accepted n, []⟩
    ((h n).get hm) (told io) order (by rintro point rfl; exact hsteady)
  dsimp only [Attempt.call] at hstore haccepted ⊢
  generalize (order.run dataDir n (told io) ⟨m, s.accepted n, []⟩).2 = l at hnew hstore haccepted
  by_cases hk : k = n
  · subst hk
    have hfind : hashFindStr k j.store = some l.metric := by rw [hstore, find_set]
    have hacc : j.accepted k = l.accepted := by rw [haccepted, Function.update_self]
    rw [← hacc] at hnew
    refine ⟨?_, fun m' hm' => ?_, fun _ => by rw [hfind]; exact Option.some_ne_none _⟩
    · rw [← find_dir hfind]
      exact hnew.dir
    · obtain rfl := Option.some.inj (hfind.symm.trans hm')
      exact hnew
  · have hacc : j.accepted k = s.accepted k := by rw [haccepted, Function.update_of_ne hk]
    have hfind : hashFindStr k j.store = hashFindStr k s.store := by rw [hstore, find_set_ne _ hk]
    refine ⟨?_, fun m' hm' => ?_, ?_⟩
    · dsimp only
      rw [hacc, hstore, dirOf_set_ne _ hk]
      exact (h k).dir
    · dsimp only at hm' ⊢
      rw [hfind] at hm'
      rw [hacc]
      exact (h k).metric m' hm'
    · dsimp only
      rw [hacc, hfind]
      exact (h k).found

theorem Outdated.mono {passes : List (RetentionConfig × Int)} {p : Point V}
    (h : Outdated passes metric p) (x : RetentionConfig × Int) :
    Outdated (passes ++ [x]) metric p := by
  obtain ⟨y, hy, hp⟩ := h
  exact ⟨y, List.mem_append_left _ hy, hp⟩

theorem kept_expire {s : Past V} {k : Text} (h : Kept dataDir s k)
    (hdistinct : ∀ m, hashFindStr k s.store = some m → (filenames m).Nodup)
    (cfg : RetentionConfig) (now : Int) (removes : Text → Nat → Bool) :
    Kept dataDir ⟨runExpiry cfg now removes s.store, s.accepted, s.passes ++ [(cfg, now)]⟩ k := by
  cases hf : hashFindStr k s.store with
  | none =>
    obtain ⟨hfind, hsame⟩ := @find_runExpiry_none V cfg now removes s.store k hf
    refine ⟨by rw [hsame]; exact h.dir, fun m hm => ?_, fun hne => absurd (h.unknown hf) hne⟩
    rw [hfind] at hm
    cases hm
  | some m =>
    have hfind := @find_runExpiry V cfg now removes s.store k m hf
    have hkept : MetricKept dataDir k (Outdated (s.passes ++ [(cfg, now)]) k)
        (expireMetric cfg now (removes k) k m) (s.accepted k) :=
      metricKept_expire (h.metric m hf) (hdistinct m hf) cfg now (removes k) (fun p hp => hp.mono _)
        fun p hp => ⟨(cfg, now), List.mem_append_right _ (List.mem_singleton_self _), hp⟩
    refine ⟨by rw [← find_dir hfind]; exact hkept.dir, fun m' hm' => ?_, fun _ => ?_⟩
    · obtain rfl := Option.some.inj (hfind.symm.trans hm')
      exact hkept
    · rw [hfind]
      exact Option.some_ne_none _

theorem kept_restart {s : Past V} {k : Text} (h : Kept dataDir s k) {unset : Text → Int}
    {dirs : AList fun _ : Text => Dir V}
    (hfound : FoundBy dataDir (fun _ _ => True) s.store k ((dirs.lookup k).getD Dir.empty))
    (hunset : ∀ p ∈ ((dirs.lookup k).getD Dir.empty).wal.getD [], unset k < p.ts) :
    Kept dataDir ⟨loadRegistry dataDir unset dirs, s.accepted, s.passes⟩ k := by
  have hcovers : DirCovers dataDir k (Outdated s.passes k) ((dirs.lookup k).getD Dir.empty)
      (s.accepted k) := by
    unfold FoundBy at hfound
    cases hf : hashFindStr k s.store with
    | some m =>
      rw [hf] at hfound
      obtain ⟨dir, hleft, hlist⟩ := hfound
      exact (covers_left (h.metric m hf) hleft).relist hlist
    | none =>
      rw [hf] at hfound
      apply DirCovers.relist _ hfound
      refine ⟨h.dir, fun p hp => ?_⟩
      rw [h.unknown hf] at hp
      exact absurd hp List.not_mem_nil
  refine ⟨?_, fun m hm => ?_, fun hne => ?_⟩
  · rw [dirOf_loadRegistry]
    exact hcovers.kept
  · rw [find_loadRegistry_some hm]
    exact metricKept_loaded hcovers hunset
  · obtain ⟨hload, hpresent⟩ := hcovers.kept.known hne
    rw [find_loadRegistry dataDir unset dirs hload.1 (lookup_present hpresent) hpresent]
    exact Option.some_ne_none _

theorem surviving_kept {s : Past V} (h : Surviving bits dataDir s) (k : Text) :
    Kept dataDir s k := by
  refine Reach.invariant (fun s => ∀ k, Kept dataDir s k) ?_ ?_ h k
  · rintro _ rfl k
    exact ⟨dirKept_empty, fun m hm => (nomatch hm), fun hne => absurd rfl hne⟩
  · rintro x s s' hs ⟨⟨hpossible, hfaithful, hsteady⟩, hrun⟩ k
    have hturn := possible_turn hpossible hfaithful
    cases x with
    | request x => exact kept_request hs hfaithful hsteady hrun k
    | expire cfg now removes =>
      obtain rfl := Option.some.inj hrun
      exact kept_expire (hs k) (hsteady k) cfg now removes
    | restart unset endings dirs =>
      obtain rfl := Option.some.inj hrun
      exact kept_restart (hs k) (hturn k) (hsteady k)

/-- Whatever crashes, shutdowns and failing writes come between, a metric holds no point that was
not accepted, and it holds every accepted point that no expiry pass was to drop. -/
theorem nothing_lost {s : Past V} (h : Surviving bits dataDir s) (metric : Text) :
    (s.accepted metric ≠ [] → ∃ m, hashFindStr metric s.store = some m) ∧
      ∀ m, hashFindStr metric s.store = some m →
        (∀ p ∈ storedPoints m, p ∈ s.accepted metric) ∧
          ∀ p ∈ s.accepted metric, ¬ Outdated s.passes metric p → p ∈ storedPoints m := by
  have hkept := surviving_kept h metric
  refine ⟨fun hne => Option.ne_none_iff_exists'.mp (hkept.found hne), fun m hm => ⟨?_, ?_⟩⟩
  · intro p hp
    have hmetric := hkept.metric m hm
    rcases List.mem_append.mp hp with hp | hp
    · obtain ⟨chunk, _, hchunk⟩ := List.mem_flatMap.mp hp
      obtain ⟨data, hread, hdata⟩ := mem_chunkPoints hchunk
      exact (hmetric.dir.files _ data hread).2.2.1 hdata
    · rw [← hmetric.log] at hp
      exact hmetric.dir.logged.subset hp
  · intro p hp hgone
    rcases (hkept.metric m hm).covered p hp with hhead | hold | ⟨chunk, hchunk, hfile, _⟩
    · exact List.mem_append_right _ hhead
    · exact absurd hold hgone
    · exact List.mem_append_left _ (List.mem_flatMap.mpr ⟨chunk, hchunk, hfile⟩)

instance (dataDir : Text) (s : Past V) :
    ∀ x : Attempt V, Decidable (Steady dataDir s (.request x))
  | ⟨_, _, metric, .put point⟩ => inferInstanceAs (Decidable ((EntryName metric ∧
      dataDir.length + 2 * metric.length + 19 ≤ 254) ∧ (0 ≤ point.ts ∧ point.ts < 2 ^ 32) ∧
      ∀ q ∈ s.accepted metric, q.ts < point.ts))
  | ⟨_, _, _, .flush⟩ => .isTrue trivial

theorem Surviving.requests {requests : List (Attempt V)} {s s' : Past V}
    (h : Surviving bits dataDir s)
    (hallowed : Allowed (fun s x => Faithful bits s.store (.request x) ∧
      Steady dataDir s (.request x)) (fun s x => s.run dataDir (.request x)) requests s)
    (hrun : requests.foldlM (fun s x => s.run dataDir (.request x)) s = some s') :
    Surviving bits dataDir s' := by
  induction requests generalizing s with
  | nil =>
    obtain rfl := Option.some.inj hrun
    exact h
  | cons x requests ih =>
    rw [List.foldlM_cons] at hrun
    obtain ⟨s1, h1, hrun⟩ := Option.bind_eq_some_iff.mp hrun
    exact ih (.next (.request x) h ⟨⟨trivial, hallowed.1⟩, h1⟩) (hallowed.2 s1 h1) hrun

/-- The process stops inside the `headflush` of one metric and starts again. -/
theorem Surviving.crashed {s : Past V} (h : Surviving bits dataDir s) {m : MetricState V}
    (hm : hashFindStr metric s.store = some m) (hexact : Exact bits m.entry.head.points)
    (point : CrashPoint) (unset : Text → Int)
    (hunset : ∀ k, ∀ p ∈ (s.store.dirOf k).wal.getD [], unset k < p.ts)
    (hcrash : (crashFlush point dataDir metric m).wal.getD [] ⊆ m.dir.wal.getD []) :
    Surviving bits dataDir ⟨loadRegistry dataDir unset
      (s.store.dirs.insert metric (crashFlush point dataDir metric m)), s.accepted, s.passes⟩ := by
  have hother {k : Text} (hk : k ≠ metric) :
      ((s.store.dirs.insert metric (crashFlush point dataDir metric m)).lookup k).getD Dir.empty =
        s.store.dirOf k := by
    rw [AList.lookup_insert_ne hk]
    rfl
  refine .next (.restart unset (fun k => if k = metric then .stopped point else .idle) _) h
    ⟨⟨fun k => ?_, fun k m' hm' => ?_, fun k p hp => ?_⟩, rfl⟩
  · unfold FoundAfter
    dsimp only
    by_cases hk : k = metric
    · subst hk
      rw [AList.lookup_insert, Option.getD_some, hm, if_pos rfl]
      exact .refl _
    · rw [hother hk, if_neg hk]
      cases hf : hashFindStr k s.store with
      | none => exact .refl _
      | some m' =>
        rw [← find_dir hf]
        exact .refl _
  · by_cases hk : k = metric
    · subst hk
      obtain rfl := Option.some.inj (hm.symm.trans hm')
      dsimp only
      rw [if_pos rfl]
      exact hexact
    · dsimp only
      rw [if_neg hk]
      trivial
  · by_cases hk : k = metric
    · subst hk
      rw [AList.lookup_insert, Option.getD_some] at hp
      apply hunset
      rw [← find_dir hm]
      exact hcrash hp
    · rw [hother hk] at hp
      exact hunset k p hp

def beforeCrash : Past ℚ :=
  ([⟨9, .ok, ['m'], .put ⟨5, 1⟩⟩, ⟨9, .ok, ['m'], .flush⟩, ⟨9, .ok, ['m'], .put ⟨7, 2⟩⟩].foldlM
    (fun (s : Past ℚ) (x : Attempt ℚ) => s.run ['d'] (.request x)) Past.empty).getD Past.empty

def afterCrash : Past ℚ :=
  (Past.run ['d'] ⟨loadRegistry ['d'] (fun _ => 0) (beforeCrash.store.dirs.insert ['m']
      (((hashFindStr ['m'] beforeCrash.store).map (crashFlush .written ['d'] ['m'])).getD
        Dir.empty)), beforeCrash.accepted, beforeCrash.passes⟩
    (.request ⟨9, .ok, ['m'], .put ⟨9, 3⟩⟩)).getD Past.empty

theorem surviving_afterCrash : Surviving (fun _ => 0#64) ['d'] afterCrash := by
  have hsome {o : Option (Past ℚ)} (h : o.isSome) : o = some (o.getD Past.empty) := by
    obtain ⟨s, rfl⟩ := Option.isSome_iff_exists.mp h
    rfl
  have hstart : Surviving (fun _ => 0#64) ['d'] (Past.empty : Past ℚ) := .start rfl
  have hbefore : Surviving (fun _ => 0#64) ['d'] beforeCrash :=
    hstart.requests (by decide +kernel) (hsome (by decide +kernel))
  have hm : (hashFindStr ['m'] beforeCrash.store).isSome := by decide +kernel
  have hkeys : beforeCrash.store.dirs.keys = [['m']] := by decide +kernel
  have hwal : (beforeCrash.store.dirOf ['m']).wal = some [⟨7, 2⟩] := by decide +kernel
  have hcrash : (hashFindStr ['m'] beforeCrash.store).map
      (fun m => (m.entry.head.points, m.dir.wal, (crashFlush .written ['d'] ['m'] m).wal)) =
        some ([⟨7, 2⟩], some [⟨7, 2⟩], some [⟨7, 2⟩]) := by decide +kernel
  have hafter := hsome (o := Past.run ['d'] ⟨loadRegistry ['d'] (fun _ => 0)
    (beforeCrash.store.dirs.insert ['m'] (((hashFindStr ['m'] beforeCrash.store).map
      (crashFlush .written ['d'] ['m'])).getD Dir.empty)), beforeCrash.accepted,
    beforeCrash.passes⟩ (.request ⟨9, .ok, ['m'], .put ⟨9, 3⟩⟩)) (by decide +kernel)
  have hsize : (getMetricFromHashTable 9 ['m'] true (loadRegistry ['d'] (fun _ => 0)
      (beforeCrash.store.dirs.insert ['m'] (((hashFindStr ['m'] beforeCrash.store).map
        (crashFlush .written ['d'] ['m'])).getD Dir.empty)))).map (fun m => m.entry.head.size) =
      some 1 := by decide +kernel
  obtain ⟨m, hm⟩ := Option.isSome_iff_exists.mp hm
  rw [hm] at hcrash hafter hsize
  obtain ⟨hhead, hlogs⟩ := Prod.mk.inj (Option.some.inj hcrash)
  obtain ⟨hold, hleft⟩ := Prod.mk.inj hlogs
  have hexact : Exact (fun _ => 0#64) m.entry.head.points := by
    rw [hhead]
    exact exact_singleton _ rfl
  have hagain := hbefore.crashed hm hexact .written (fun _ => 0) (by
    intro k p hp
    by_cases hk : k = ['m']
    · subst hk
      rw [hwal] at hp
      rw [List.mem_singleton.mp hp]
      decide
    · rw [dirOf_of_keys hkeys hk] at hp
      exact absurd hp List.not_mem_nil) (by rw [hold, hleft]; exact List.Subset.refl _)
  have hacc : beforeCrash.accepted ['m'] = [⟨5, 1⟩, ⟨7, 2⟩] := by decide +kernel
  refine .next (.request ⟨9, .ok, ['m'], .put ⟨9, 3⟩⟩) hagain
    ⟨⟨trivial, ⟨by decide, fun m' hm' => ⟨by simp [Closes], fun hfull => ?_⟩⟩,
      ⟨by decide, by decide⟩, by decide, ?_⟩, ?_⟩
  · have hone : m'.entry.head.size = 1 := by
      obtain ⟨m1, hm1, hone⟩ := Option.map_eq_some_iff.mp hsize
      obtain rfl := Option.some.inj (hm1.symm.trans hm')
      exact hone
    simp [Order.flushes, hone, headCapacity] at hfull
  · rw [hacc]
    decide
  · rw [afterCrash, hm]
    exact hafter

/-- The process stopped between the chunk file and the log. -/
theorem nothing_lost_crash : ∃ m, hashFindStr ['m'] afterCrash.store = some m ∧
    filenames m = ["m_7.chunk".toList, "m_5.chunk".toList] ∧
    afterCrash.accepted ['m'] = [⟨5, 1⟩, ⟨7, 2⟩, ⟨9, 3⟩] ∧
    ∀ p ∈ afterCrash.accepted ['m'], p ∈ storedPoints m := by
  have hnames : (hashFindStr ['m'] afterCrash.store).map filenames =
      some ["m_7.chunk".toList, "m_5.chunk".toList] := by decide +kernel
  obtain ⟨m, hm, hnames⟩ := Option.map_eq_some_iff.mp hnames
  obtain ⟨_, hstored⟩ := nothing_lost surviving_afterCrash ['m']
  refine ⟨m, hm, hnames, by decide +kernel, fun p hp => (hstored m hm).2 p hp ?_⟩
  rintro ⟨x, hx, _⟩
  have hpasses : afterCrash.passes = [] := rfl
  rw [hpasses] at hx
  cases hx

end Tsdb.Survival
