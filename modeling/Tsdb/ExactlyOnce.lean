import Tsdb.CrashFiles
import Tsdb.Outcomes

namespace Tsdb.ExactlyOnce

open CStrings Head Files Wal Registry Sections History Service Disk Recovery Replay Loading
  CrashFiles Exactness Outcomes

variable {V : Type}

/-- What the new head's memory must have held for the log to be read the right way: below
the records as long as only they have the points, not below them once a chunk has them too. -/
def Recovers (point : CrashPoint) (unset : Int) (head : List (Point V)) : Prop :=
  match point with
  | .beforeOpen => ∀ p ∈ head, unset < p.ts
  | .opened => ∀ p ∈ head, unset < p.ts
  | .written => ∀ p ∈ head, p.ts ≤ unset
  | .registered => ∀ p ∈ head, p.ts ≤ unset
  | .truncated => True

theorem replay_all_iff {head : List (Point V)} (hroom : head.length ≤ headCapacity)
    (hinc : head.Pairwise (fun p q => p.ts < q.ts)) (unset : Int) :
    ((head.foldl replayRecord (getNewHeadBlock unset)).points).Perm head ↔
      ∀ p ∈ head, unset < p.ts := by
  have hloop := replay_loop head (getNewHeadBlock unset) (by simpa [getNewHeadBlock] using hroom)
  rw [List.isChain_iff_pairwise, List.pairwise_cons, List.pairwise_map] at hloop
  obtain ⟨kept, hsub, hkept⟩ := replay_appends head (getNewHeadBlock unset)
  constructor
  · intro hperm p hp
    have hlen := hperm.length_eq
    simp only [getNewHeadBlock, List.nil_append] at hkept hloop
    rw [getNewHeadBlock, hkept] at hlen
    rw [hkept, hsub.eq_of_length hlen] at hloop
    exact (hloop.mp rfl).1 p.ts (List.mem_map_of_mem hp)
  · intro h
    have he := hloop.mpr ⟨fun ts hts => by
      obtain ⟨p, hp, rfl⟩ := List.mem_map.mp hts
      exact h p hp, hinc⟩
    rw [he]
    exact List.Perm.refl _

theorem replay_none_iff (head : List (Point V)) (unset : Int) :
    (head ++ (head.foldl replayRecord (getNewHeadBlock unset)).points).Perm head ↔
      ∀ p ∈ head, p.ts ≤ unset := by
  have hnothing : (head.foldl replayRecord (getNewHeadBlock unset)).points = [] ↔
      ∀ p ∈ head, p.ts ≤ unset :=
    replay_nothing head (getNewHeadBlock unset) (by simp [getNewHeadBlock, headCapacity])
  rw [← hnothing]
  constructor
  · intro hperm
    have hlen := hperm.length_eq
    rw [List.length_append] at hlen
    exact List.length_eq_zero_iff.mp (by omega)
  · intro h
    rw [h, List.append_nil]

theorem recovers_iff {head : List (Point V)} (hroom : head.length ≤ headCapacity)
    (hinc : head.Pairwise (fun p q => p.ts < q.ts)) (point : CrashPoint) (unset : Int) :
    ((crashFiles point head).1 ++
      ((crashFiles point head).2.foldl replayRecord (getNewHeadBlock unset)).points).Perm head ↔
      Recovers point unset head := by
  cases point with
  | beforeOpen => exact replay_all_iff hroom hinc unset
  | opened => exact replay_all_iff hroom hinc unset
  | written => exact replay_none_iff head unset
  | registered => exact replay_none_iff head unset
  | truncated => simp [crashFiles, Recovers, getNewHeadBlock]

def pointsOf (s : Store V) (metric : Text) : List (Point V) :=
  ((hashFindStr metric s).map storedPoints).getD []

def dirAfter (point : CrashPoint) (dataDir metric k : Text) (m : MetricState V) : Dir V :=
  if k = metric then crashFlush point dataDir metric m else m.dir

theorem crashFlush_absent {point : CrashPoint} {dataDir metric : Text} {m : MetricState V}
    (h : (crashFlush point dataDir metric m).present = false) : m.dir.present = false := by
  unfold crashFlush at h
  split at h
  · exact h
  · dsimp only at h
    split at h
    · cases h
    · cases point <;> cases h

theorem restart_eq {dataDir metric k : Text} {unset : Text → Int} {point : CrashPoint} {s : Store V}
    {m mk : MetricState V} (hm : hashFindStr metric s = some m) (hk : hashFindStr k s = some mk) :
    ∃ dirs, restart dataDir unset metric point s = loadRegistry dataDir unset dirs ∧
      (dirs.lookup k).getD Dir.empty = dirAfter point dataDir metric k mk := by
  refine ⟨_, by rw [restart, hm], ?_⟩
  unfold dirAfter
  by_cases hkm : k = metric
  · subst hkm
    obtain rfl := Option.some.inj (hm.symm.trans hk)
    rw [AList.lookup_insert, if_pos rfl, Option.getD_some]
  · rw [AList.lookup_insert_ne hkm, if_neg hkm]
    obtain ⟨entry, _, rfl⟩ := Option.map_eq_some_iff.mp hk
    rfl

/-- After a crash inside `headflush` the restart has every accepted point exactly once, in
every metric, exactly when the memory of the new head happens to be on the right side of the
logged timestamps. -/
theorem crash_exactly_once_iff {dataDir : Text} {bits : V → BitVec 64} {j : Journal V}
    (h : Handling dataDir (keepsFlushed dataDir bits) j) {metric k : Text}
    {m mk : MetricState V} (hm : hashFindStr metric j.store = some m)
    (hk : hashFindStr k j.store = some mk) (hflush : keepsFlushed dataDir bits metric .ok .flush m)
    (hload : Loadable dataDir k)
    (hinc : (j.accepted k).Pairwise (fun p q => p.ts < q.ts)) (point : CrashPoint)
    (unset : Text → Int) :
    (pointsOf (restart dataDir unset metric point j.store) k).Perm (j.accepted k) ↔
      Recovers (if k = metric then point else .beforeOpen) (unset k) mk.entry.head.points := by
  obtain ⟨flushed, hd⟩ := serving_onDisk h.fresh hk
  obtain ⟨_, hr⟩ := serving_registered h.fresh hk
  have hr : Registered ⟨mk, j.accepted k, flushed⟩ := ⟨hr.named, hr.made⟩
  have hacc : j.accepted k = flushed.flatten ++ mk.entry.head.points := hd.conserved.conserved
  have hhead : mk.entry.head.points.Pairwise (fun p q => p.ts < q.ts) := by
    rw [hacc] at hinc
    exact (List.pairwise_append.mp hinc).2.1
  have hleaves : Leaves dataDir k (dirAfter point dataDir metric k mk)
      (flushed.flatten ++ (crashFiles (if k = metric then point else .beforeOpen)
        mk.entry.head.points).1)
      (crashFiles (if k = metric then point else .beforeOpen) mk.entry.head.points).2 := by
    unfold dirAfter
    by_cases hkm : k = metric
    · subst hkm
      obtain rfl := Option.some.inj (hm.symm.trans hk)
      simp only [if_true]
      exact leaves_crash hd hr hload (hflush.1 trivial) point
    · simp only [if_neg hkm, crashFiles, List.append_nil]
      exact leaves_unchanged hd hr hload
  obtain ⟨dirs, hrestart, hdir⟩ := restart_eq hm hk
  rw [hrestart, pointsOf]
  cases hpresent : (dirAfter point dataDir metric k mk).present with
  | true =>
    have hlookup : dirs.lookup k = some (dirAfter point dataDir metric k mk) := by
      rw [← hdir] at hpresent ⊢
      exact lookup_present hpresent
    rw [find_loadRegistry dataDir unset dirs hload.1 hlookup hpresent, Option.map_some,
      Option.getD_some, hacc, leaves_recovers hleaves, recovers_iff hd.conserved.ordered.room hhead]
  | false =>
    have habsent : mk.dir.present = false := by
      unfold dirAfter at hpresent
      split at hpresent
      · exact crashFlush_absent hpresent
      · exact hpresent
    have hnone : j.accepted k = [] := by
      by_contra hne
      rw [hr.made hne] at habsent
      cases habsent
    have hnil : mk.entry.head.points = [] := by
      rw [hnone] at hacc
      exact (List.append_eq_nil_iff.mp hacc.symm).2
    rw [find_loadRegistry_none dataDir unset dirs (by rw [hdir]; exact hpresent), hnone, hnil]
    refine iff_of_true (List.Perm.refl _) ?_
    unfold Recovers
    split <;> simp

/-- A crash before the chunk file is opened, with zero in the new head's memory. -/
theorem crash_exactly_once_iff_before_open : ∃ j : Journal Nat,
    ([⟨7, .ok, ['m'], .put ⟨5, 1⟩⟩] : List (Attempt Nat)).foldlM (request ['d']) Journal.empty =
      some j ∧
    (pointsOf (restart ['d'] (fun _ => 0) ['m'] .beforeOpen j.store) ['m']).Perm
      (j.accepted ['m']) := by
  obtain ⟨j, hj, hp⟩ := Option.map_eq_some_iff.mp (show
    (([⟨7, .ok, ['m'], .put ⟨5, 1⟩⟩] : List (Attempt Nat)).foldlM (request ['d'])
      Journal.empty).map (fun j : Journal Nat =>
      (j.accepted ['m'], (hashFindStr ['m'] j.store).map fun m =>
        (m.entry.head.points, filenames m))) = some ([⟨5, 1⟩], some ([⟨5, 1⟩], [])) by decide)
  obtain ⟨hacc, hfind⟩ := Prod.mk.inj hp
  obtain ⟨m, hm, hp⟩ := Option.map_eq_some_iff.mp hfind
  obtain ⟨hhead, hnames⟩ := Prod.mk.inj hp
  have hreach : Handling ['d'] (keepsFlushed ['d'] fun _ => 0#64) j :=
    .run (.start rfl) _ (by decide) hj
  refine ⟨j, hj, (crash_exactly_once_iff hreach hm hm ?_ ?_ ?_ .beforeOpen (fun _ => 0)).mpr ?_⟩
  · exact ⟨fun _ => by simp [hnames], fun _ => by rw [hhead]; exact exact_singleton _ rfl⟩
  · exact ⟨by decide, by decide⟩
  · rw [hacc]
    exact List.pairwise_singleton _ _
  · rw [if_pos rfl, hhead]
    exact fun p hp => by
      rw [List.mem_singleton.mp hp]
      decide

/-- A crash after the chunk file and before the log is gone brings the point back twice. -/
theorem crash_duplicates : ¬ ∀ (dataDir : Text) (bits : Nat → BitVec 64) (j : Journal Nat)
    (metric : Text) (m : MetricState Nat) (point : CrashPoint) (unset : Text → Int),
    Handling dataDir (keepsFlushed dataDir bits) j → hashFindStr metric j.store = some m →
    keepsFlushed dataDir bits metric .ok .flush m →
    Loadable dataDir metric → (∀ p ∈ j.accepted metric, 0 < p.ts) →
    (j.accepted metric).Pairwise (fun p q => p.ts < q.ts) →
    (pointsOf (restart dataDir unset metric point j.store) metric).Perm (j.accepted metric) := by
  intro h
  obtain ⟨j, hj, hp⟩ := Option.map_eq_some_iff.mp (show
    (([⟨7, .ok, ['m'], .put ⟨5, 1⟩⟩] : List (Attempt Nat)).foldlM (request ['d'])
      Journal.empty).map (fun j : Journal Nat => decide (j.accepted ['m'] = [⟨5, 1⟩] ∧
        pointsOf (restart ['d'] (fun _ => 0) ['m'] .written j.store) ['m'] = [⟨5, 1⟩, ⟨5, 1⟩] ∧
        (hashFindStr ['m'] j.store).map (fun m => (m.entry.head.points, filenames m)) =
          some ([⟨5, 1⟩], []))) = some true by decide +kernel)
  obtain ⟨hacc, hpoints, hfind⟩ := of_decide_eq_true hp
  obtain ⟨m, hm, hp⟩ := Option.map_eq_some_iff.mp hfind
  obtain ⟨hhead, hnames⟩ := Prod.mk.inj hp
  have hreach : Handling ['d'] (keepsFlushed ['d'] fun _ => 0#64) j :=
    .run (.start rfl) _ (by decide) hj
  have hperm := h ['d'] (fun _ => 0#64) j ['m'] m .written (fun _ => 0) hreach hm
    ⟨fun _ => by simp [hnames], fun _ => by rw [hhead]; exact exact_singleton _ rfl⟩
    ⟨by decide, by decide⟩ (by simp [hacc]) (by simp [hacc])
  rw [hpoints, hacc] at hperm
  exact absurd hperm.length_eq (by decide)

end Tsdb.ExactlyOnce
