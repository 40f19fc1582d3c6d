import Tsdb.LoadOrder
import Tsdb.Outcomes

namespace Tsdb.TimeOrder

open CStrings Head Files Wal Registry Sections History Service Recovery Loading Shutdown Folds
  PutAnswer ChunkOrder LoadOrder Outcomes Runs

variable {V : Type} {dataDir : Text}

/-- A request with any outcome of its file operations, or a stop of the process between two
requests and the start of the next one. -/
inductive Happening (V : Type) where
  | request (x : Attempt V)
  | restart (unset : Text → Int) (dirs : AList fun _ : Text => Dir V)

def Happening.run (dataDir : Text) (j : Journal V) : Happening V → Option (Journal V)
  | .request x => Outcomes.request dataDir j x
  | .restart unset dirs => some ⟨loadRegistry dataDir unset dirs, j.accepted⟩

def Possible (j : Journal V) : Happening V → Prop
  | .request _ => True
  | .restart _ dirs => ∀ k, Relisted (j.store.dirOf k) ((dirs.lookup k).getD Dir.empty)

/-- The clients and the file system do themselves what the code leaves to them: a metric has a
directory of its own, a point that starts a head is no older than those before it, and chunk files
are listed by their start. -/
def InOrder (dataDir : Text) (j : Journal V) : Happening V → Prop
  | .request ⟨unset, io, metric, .put point⟩ =>
    EntryName metric ∧ ∀ m ∈ getMetricFromHashTable unset metric true j.store,
      StartsHead dataDir metric (told io) m → ∀ q ∈ j.accepted metric, q.ts ≤ point.ts
  | .request ⟨_, _, metric, .flush⟩ => EntryName metric
  | .restart _ dirs => ∀ k, InTimeOrder ((dirs.lookup k).getD Dir.empty)

def Restarting (dataDir : Text) : Journal V → Prop :=
  Reach (fun j => j = Journal.empty) (Guarded Possible (Happening.run dataDir))

def Timed (dataDir : Text) : Journal V → Prop :=
  Reach (fun j => j = Journal.empty)
    (Guarded (fun j x => Possible j x ∧ InOrder dataDir j x) (Happening.run dataDir))

section Requests

variable {metric : Text}

/-- A chunk file that `fclose` has lost makes no difference in memory. -/
theorem flushHead_entry (io : ChunkIO) (m : MetricState V) :
    (flushHead dataDir metric io m).2.entry = (flushSection dataDir metric (told io) m).2.entry := by
  cases io with
  | ok | openFails | writeFails => rfl
  | closeFails =>
    unfold flushSection flushHead chunkwrite
    split
    · rfl
    · rename_i first rest _
      by_cases hname : chunkName dataDir metric (chunkId first.ts) = []
      · simp only [if_pos hname]
      · simp only [if_neg hname, told, FlushIO.chunk]

theorem putHead_told (io : ChunkIO) (point : Point V) (m : MetricState V) :
    (putHead dataDir metric io point m).1 = (putLocked dataDir metric (told io) point m).1 := by
  rw [putHead_eq, putLocked_eq]
  split
  · rw [Bool.eq_iff_iff, putSection_true_iff, putSection_true_iff, flushHead_entry]
  · rfl

theorem metricOrder_order {m : MetricState V} {accepted : List (Point V)}
    (h : MetricOrder dataDir metric m accepted) (io : ChunkIO) {order : Order V}
    (hstart : ∀ point, order = .put point → StartsHead dataDir metric (told io) m →
      ∀ q ∈ accepted, q.ts ≤ point.ts) :
    MetricOrder dataDir metric (orderHead dataDir metric io m order).2
      (accept accepted (orderHead dataDir metric io m order).1 order) := by
  cases order with
  | flush => exact metricOrder_flushHead h io
  | put point =>
    rw [orderHead, putHead_eq]
    split
    case isFalse => exact metricOrder_put h fun hnil => hstart point rfl (.inl hnil)
    case isTrue hfull =>
      apply metricOrder_put (metricOrder_flushHead h io)
      intro hnil
      apply hstart point rfl
      by_cases hs : FlushSucceeds dataDir metric (told io) m
      · exact .inr ⟨hfull, hs⟩
      · rw [flushHead_entry, flushSection_keeps hs] at hnil
        exact .inl hnil

end Requests

structure Chronological (dataDir : Text) (j : Journal V) (k : Text) : Prop where
  dir : DirOrder dataDir k (j.store.dirOf k) (j.accepted k)
  metric : ∀ m, hashFindStr k j.store = some m → MetricOrder dataDir k m (j.accepted k)

theorem chronological_empty (dataDir k : Text) :
    Chronological dataDir (Journal.empty : Journal V) k := by
  refine ⟨⟨.nil, List.nil_suffix, fun name data h => ?_, fun name data name' data' h => ?_⟩,
    fun m h => ?_⟩
  · cases h
  · cases h
  · cases h

theorem Chronological.get {j : Journal V} {k : Text} (h : Chronological dataDir j k) {unset : Int}
    {flag : Bool} {m : MetricState V} (hm : m ∈ getMetricFromHashTable unset k flag j.store) :
    MetricOrder dataDir k m (j.accepted k) := by
  obtain hf | ⟨_, -, rfl⟩ := getMetric_cases hm
  · exact h.metric _ hf
  · exact metricOrder_new h.dir unset

theorem chronological_request {j j' : Journal V} (h : ∀ k, Chronological dataDir j k)
    {x : Attempt V} (hguard : InOrder dataDir j (.request x))
    (hrun : (Happening.request x).run dataDir j = some j') (k : Text) :
    Chronological dataDir j' k := by
  obtain ⟨unset, io, n, order⟩ := x
  obtain ⟨m, hm, rfl⟩ := Option.map_eq_some_iff.mp hrun
  have hnew := @metricOrder_order V dataDir n m (j.accepted n) ((h n).get hm) io order <| by
    rintro point rfl
    exact hguard.2 m hm
  dsimp only at hm ⊢
  generalize orderHead dataDir n io m order = out at hnew
  by_cases hk : k = n
  · subst hk
    refine ⟨?_, fun m' hm' => ?_⟩
    · dsimp only
      rw [dirOf_set, Function.update_self]
      exact hnew.dir
    · rw [find_set] at hm'
      obtain rfl := Option.some.inj hm'
      dsimp only
      rw [Function.update_self]
      exact hnew
  · refine ⟨?_, fun m' hm' => ?_⟩
    · dsimp only
      rw [dirOf_set_ne _ hk, Function.update_of_ne hk]
      exact (h k).dir
    · rw [find_set_ne _ hk] at hm'
      dsimp only
      rw [Function.update_of_ne hk]
      exact (h k).metric m' hm'

theorem dirOf_loadRegistry (dataDir : Text) (unset : Text → Int)
    (dirs : AList fun _ : Text => Dir V) (k : Text) :
    (loadRegistry dataDir unset dirs).dirOf k = (dirs.lookup k).getD Dir.empty := by
  unfold loadRegistry
  apply foldl_keeps (P := fun s : Store V => s.dirOf k = (dirs.lookup k).getD Dir.empty)
  · intro s name _ hs
    by_cases hk : k = name
    · rw [hk, dirOf_set]
      rfl
    · rwa [dirOf_set_ne s hk]
  · rfl

theorem find_loadRegistry_some {unset : Text → Int} {dirs : AList fun _ : Text => Dir V} {k : Text}
    {m : MetricState V} (h : hashFindStr k (loadRegistry dataDir unset dirs) = some m) :
    m = loadMetric dataDir k (unset k) ((dirs.lookup k).getD Dir.empty) := by
  unfold loadRegistry at h
  by_cases hk : k ∈ dirs.keys.filter fun name =>
      EntryName name ∧ ((dirs.lookup name).getD Dir.empty).present
  · rw [find_foldl_set (fun name => loadMetric dataDir name (unset name)
      ((dirs.lookup name).getD Dir.empty)) _ _ hk] at h
    exact (Option.some.inj h).symm
  · rw [find_foldl_set_ne (fun name => loadMetric dataDir name (unset name)
      ((dirs.lookup name).getD Dir.empty)) _ _ hk] at h
    cases h

theorem chronological_restart {j : Journal V} (h : ∀ k, Chronological dataDir j k)
    {unset : Text → Int} {dirs : AList fun _ : Text => Dir V}
    (hlist : Possible j (.restart unset dirs)) (hsorted : InOrder dataDir j (.restart unset dirs))
    (k : Text) : Chronological dataDir ⟨loadRegistry dataDir unset dirs, j.accepted⟩ k := by
  have hdir := DirOrder.relist (h k).dir (hlist k)
  refine ⟨?_, fun m hm => ?_⟩
  · rw [dirOf_loadRegistry]
    exact hdir
  · rw [find_loadRegistry_some hm]
    exact metricOrder_loaded hdir (hsorted k) (unset k)

theorem timed_chronological {j : Journal V} (h : Timed dataDir j) (k : Text) :
    Chronological dataDir j k := by
  refine Reach.invariant (fun j => ∀ k, Chronological dataDir j k) ?_ ?_ h k
  · rintro _ rfl k
    exact chronological_empty dataDir k
  · rintro x j j' hj ⟨⟨hpossible, hguard⟩, hrun⟩ k
    cases x with
    | request x => exact chronological_request hj hguard hrun k
    | restart unset dirs =>
      obtain rfl := Option.some.inj hrun
      exact chronological_restart hj hpossible hguard k

/-- A point older than one that was accepted is turned away, unless it starts a head. -/
theorem stale_rejected_iff {metric : Text} {m : MetricState V} {accepted : List (Point V)}
    (h : MetricOrder dataDir metric m accepted) {point : Point V}
    (hstale : ∃ q ∈ accepted, point.ts < q.ts) (io : ChunkIO) :
    (putHead dataDir metric io point m).1 = false ↔ ¬ StartsHead dataDir metric (told io) m := by
  rw [putHead_told, ← Bool.not_eq_true, putLocked_true_iff, not_iff_not]
  unfold Stores StartsHead
  apply or_congr_left
  constructor
  · rintro ⟨hlast, hroom⟩
    by_contra hne
    obtain ⟨q, hq, hlt⟩ := hstale
    have hnewest := h.newest hne hroom q hq
    have hle := hlast (List.length_pos_iff.mpr hne)
    omega
  · intro hnil
    simp [Accepts, HeadBlock.size, hnil, headCapacity]

/-- As long as no stale point starts a head and chunk files are listed by their start, the
accepted points of a metric are in time order, so are its chunks and its head, and every other
stale point is turned away. -/
theorem time_order {j : Journal V} (h : Timed dataDir j) (metric : Text) :
    (j.accepted metric).Pairwise (fun p q => p.ts ≤ q.ts) ∧
      (∀ m, hashFindStr metric j.store = some m →
        m.entry.chunks.Pairwise (fun c c' => c.endTs ≤ c'.startTs) ∧
          ∀ last ∈ m.entry.chunks.getLast?, ∀ first ∈ m.entry.head.points.head?,
            last.endTs ≤ first.ts) ∧
      ∀ (unset : Int) (io : ChunkIO) (point : Point V) (m : MetricState V),
        getMetricFromHashTable unset metric true j.store = some m →
        (∃ q ∈ j.accepted metric, point.ts < q.ts) →
        ((putHead dataDir metric io point m).1 = false ↔
          ¬ StartsHead dataDir metric (told io) m) := by
  have hc := timed_chronological h metric
  refine ⟨hc.dir.sorted, fun m hm => ⟨(hc.metric m hm).chunks, fun last hl first hf => ?_⟩,
    fun unset io point m hm hstale => stale_rejected_iff (hc.get hm) hstale io⟩
  have hmem := (hc.metric m hm).points.subset (List.mem_of_mem_head? hf)
  exact ((hc.metric m hm).early last (List.mem_of_getLast? hl)).logged first hmem

theorem Timed.requests {requests : List (Attempt V)} {j j' : Journal V} (h : Timed dataDir j)
    (hallowed : Allowed (fun j x => InOrder dataDir j (.request x)) (request dataDir) requests j)
    (hrun : requests.foldlM (request dataDir) j = some j') : Timed dataDir j' := by
  induction requests generalizing j with
  | nil =>
    obtain rfl := Option.some.inj hrun
    exact h
  | cons x requests ih =>
    rw [List.foldlM_cons] at hrun
    obtain ⟨j1, h1, hrun⟩ := Option.bind_eq_some_iff.mp hrun
    exact ih (.next (.request x) h ⟨⟨trivial, hallowed.1⟩, h1⟩) (hallowed.2 j1 h1) hrun

instance (dataDir : Text) (j : Journal V) :
    ∀ x : Attempt V, Decidable (InOrder dataDir j (.request x))
  | ⟨unset, io, metric, .put point⟩ => inferInstanceAs (Decidable
      (EntryName metric ∧ ∀ m ∈ getMetricFromHashTable unset metric true j.store,
        StartsHead dataDir metric (told io) m → ∀ q ∈ j.accepted metric, q.ts ≤ point.ts))
  | ⟨_, _, metric, .flush⟩ => inferInstanceAs (Decidable (EntryName metric))

/-- A chunk, a point in the log, and a restart; then a point at 6 is turned away. -/
theorem time_order_restart : ∃ (j : Journal Nat) (m : MetricState Nat), Timed ['d'] j ∧
    j.accepted ['m'] = [⟨5, 1⟩, ⟨7, 2⟩] ∧
    (j.accepted ['m']).Pairwise (fun p q => p.ts ≤ q.ts) ∧
    hashFindStr ['m'] j.store = some m ∧ (putHead ['d'] ['m'] .ok ⟨6, 3⟩ m).1 = false := by
  obtain ⟨j, hj, hp⟩ := Option.map_eq_some_iff.mp (show
    (([⟨9, .ok, ['m'], .put ⟨5, 1⟩⟩, ⟨9, .ok, ['m'], .flush⟩, ⟨9, .ok, ['m'], .put ⟨7, 2⟩⟩] :
      List (Attempt Nat)).foldlM (request ['d']) Journal.empty).map (fun j => decide
      (j.accepted ['m'] = [⟨5, 1⟩, ⟨7, 2⟩] ∧ j.store.dirs.keys = [['m']] ∧
        (j.store.dirOf ['m']).chunks.keys = ["m_5.chunk".toList] ∧
        (hashFindStr ['m'] (loadRegistry ['d'] (fun _ => 0) j.store.dirs)).map
          (fun m => m.entry.head.points) = some [⟨7, 2⟩])) = some true by decide)
  obtain ⟨hacc, hdirs, hnames, hfind⟩ := of_decide_eq_true hp
  obtain ⟨m, hm, hpoints⟩ := Option.map_eq_some_iff.mp hfind
  have hstart : Timed ['d'] (Journal.empty : Journal Nat) := .start rfl
  have hreach := hstart.requests (by decide) hj
  have hagain : Timed ['d'] ⟨loadRegistry ['d'] (fun _ => 0) j.store.dirs, j.accepted⟩ :=
    .next (.restart (fun _ => 0) j.store.dirs) hreach
      ⟨⟨fun k => .refl _, inTimeOrder_single hdirs hnames⟩, rfl⟩
  obtain ⟨hchron, _, hreject⟩ := time_order hagain ['m']
  have hget : getMetricFromHashTable 0 ['m'] true
      (loadRegistry ['d'] (fun _ => 0) j.store.dirs) = some m := by
    rw [getMetricFromHashTable, hm]
  have hstale : ∃ q ∈ j.accepted ['m'], (6 : Int) < q.ts := ⟨⟨7, 2⟩, by simp [hacc], by decide⟩
  refine ⟨_, m, hagain, hacc, hchron, hm, (hreject 0 .ok ⟨6, 3⟩ m hget hstale).mpr ?_⟩
  simp [StartsHead, HeadBlock.size, hpoints, headCapacity]

private def staleAfterFlush : List (Happening Nat) :=
  [.request ⟨9, .ok, ['m'], .put ⟨10, 1⟩⟩, .request ⟨9, .ok, ['m'], .flush⟩,
    .request ⟨9, .ok, ['m'], .put ⟨5, 2⟩⟩]

/-- After a flush the head has forgotten the point at 10. -/
theorem flush_forgets_newest : ¬ ∀ j : Journal Nat, Restarting ['d'] j → ∀ metric,
    (j.accepted metric).Pairwise fun p q => p.ts ≤ q.ts := by
  intro h
  obtain ⟨j, hj, hp⟩ := Option.map_eq_some_iff.mp (show
    (staleAfterFlush.foldlM (Happening.run ['d']) Journal.empty).map (fun j => j.accepted ['m']) =
      some [⟨10, 1⟩, ⟨5, 2⟩] by decide)
  have hreach : Restarting ['d'] j :=
    .run (.start rfl) _ (by simp [staleAfterFlush, Allowed, Possible]) hj
  have hsorted := h j hreach ['m']
  rw [hp] at hsorted
  exact absurd hsorted (by decide)

end Tsdb.TimeOrder
