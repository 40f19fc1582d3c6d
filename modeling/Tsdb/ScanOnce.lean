import Tsdb.GetAnswer
import Tsdb.QueryScan

namespace Tsdb.ScanOnce

open CStrings Head Files Registry Sections History Service Disk Query Aggregate GetAnswer PutAnswer
  QueryScan Exactness Outcomes Runs

variable {V : Type} {dataDir metric : Text} {start stop : Int}

/-- The query has exactly the early points and some of those accepted since. -/
def ExactlyOnce (start stop : Int) (s : Watch V) (pts : List (Point V)) : Prop :=
  ∃ extra, extra.Sublist (s.ledger.accepted.drop s.before.length) ∧
    pts.Perm (inRange start stop (s.before ++ extra))

/-- The chunks seen so far gave their points, and those behind the loop hold no early one. -/
def Progress (start stop : Int) (s : Watch V) : Scan V → Prop
  | .waiting => True
  | .scanning i pts => i ≤ s.ledger.flushed.length ∧
      pts = inRange start stop (s.ledger.flushed.take i).flatten
  | .scanned pts => ∃ i ≤ s.ledger.flushed.length,
      pts = inRange start stop (s.ledger.flushed.take i).flatten ∧
      ∀ p ∈ (s.ledger.flushed.drop i).flatten.take
        (s.before.length - (s.ledger.flushed.take i).flatten.length), ¬ InRange start stop p
  | .collected pts => ExactlyOnce start stop s pts
  | .failed => False

structure Consistent (dataDir metric : Text) (start stop : Int) (s : Watch V) : Prop where
  onDisk : OnDisk dataDir metric s.ledger
  before : s.before <+: s.ledger.accepted
  progress : Progress start stop s s.scan

structure Grown (dataDir metric : Text) (x : Section V) (l l' : Ledger V) : Prop where
  accepted : l.accepted <+: l'.accepted
  flushed : l'.flushed = l.flushed ∨ ∃ io, x = .flush io ∧
    FlushSucceeds dataDir metric io l.metric ∧
    l'.flushed = l.flushed ++ [l.metric.entry.head.points]

theorem grown_put (l : Ledger V) (point : Point V) :
    Grown dataDir metric (.put point) l (l.put point).2 := by
  unfold Ledger.put
  rcases putSection_cases point l.metric with ⟨_, he⟩ | ⟨_, he⟩
  · rw [he]
    exact ⟨List.prefix_append _ _, .inl rfl⟩
  · rw [he]
    exact ⟨List.prefix_refl _, .inl rfl⟩

theorem grown_flush (l : Ledger V) (io : FlushIO) :
    Grown dataDir metric (.flush io) l (l.flush dataDir metric io).2 := by
  unfold Ledger.flush
  rcases flushSection_cases dataDir metric io l.metric with
    ⟨hnil, he⟩ | ⟨first, hf, ⟨_, dir, _, he⟩ | ⟨hio, hname, he⟩⟩
  · rw [he]
    exact ⟨List.prefix_refl _, .inl (by simp [hnil])⟩
  · rw [he]
    exact ⟨List.prefix_refl _, .inl (by simp)⟩
  · have hne : l.metric.entry.head.points ≠ [] := by
      rintro hnil
      simp [hnil] at hf
    rw [he]
    refine ⟨List.prefix_refl _, .inr ⟨io, rfl, ⟨hio, fun p hp => ?_⟩, by simp [hne]⟩⟩
    rwa [← Option.mem_unique hf hp]

theorem grown_run (l : Ledger V) (x : Section V) :
    Grown dataDir metric x l (l.run dataDir metric x).2 := by
  cases x with
  | put point => exact grown_put l point
  | flush io => exact grown_flush l io

theorem onDisk_run {l : Ledger V} (h : OnDisk dataDir metric l) {x : Section V}
    (hfresh : ∀ io, x = .flush io → ∀ first ∈ l.metric.entry.head.points.head?,
      flushName dataDir metric first ∉ filenames l.metric) :
    OnDisk dataDir metric (l.run dataDir metric x).2 := by
  cases x with
  | put point => exact onDisk_put h point
  | flush io => exact onDisk_flush h io (hfresh io rfl)

theorem ExactlyOnce.mono {s s' : Watch V} {pts : List (Point V)} (h : ExactlyOnce start stop s pts)
    (hbefore : s'.before = s.before) (haccepted : s.ledger.accepted <+: s'.ledger.accepted) :
    ExactlyOnce start stop s' pts := by
  obtain ⟨extra, hsub, hperm⟩ := h
  refine ⟨extra, ?_, by rwa [hbefore]⟩
  rw [hbefore]
  exact hsub.trans (haccepted.drop s.before.length).sublist

theorem exactlyOnce_gap {s : Watch V} {xs ys zs : List (Point V)}
    (haccepted : s.ledger.accepted = xs ++ ys ++ zs) (hbefore : s.before <+: s.ledger.accepted)
    (hgap : ∀ p ∈ ys.take (s.before.length - xs.length), ¬ InRange start stop p) :
    ExactlyOnce start stop s (inRange start stop xs ++ inRange start stop zs) := by
  have htake : s.before = xs.take s.before.length ++
      (ys.take (s.before.length - xs.length) ++
        zs.take (s.before.length - xs.length - ys.length)) := by
    have heq := List.prefix_iff_eq_take.mp hbefore
    rw [haccepted, List.append_assoc, List.take_append, List.take_append] at heq
    exact heq
  refine ⟨xs.drop s.before.length ++ zs.drop (s.before.length - xs.length - ys.length), ?_, ?_⟩
  · rw [haccepted, List.append_assoc, List.drop_append, List.drop_append]
    exact (List.Sublist.refl _).append (List.sublist_append_right _ _)
  · have hxs : inRange start stop xs = inRange start stop (xs.take s.before.length) ++
        inRange start stop (xs.drop s.before.length) := by
      rw [← inRange_append, List.take_append_drop]
    have hzs (k : Nat) : inRange start stop zs =
        inRange start stop (zs.take k) ++ inRange start stop (zs.drop k) := by
      rw [← inRange_append, List.take_append_drop]
    rw [inRange_append, htake, inRange_append, inRange_append, inRange_append, inRange_nil hgap,
      ← htake, List.nil_append, hxs, hzs (s.before.length - xs.length - ys.length),
      List.append_assoc, List.append_assoc]
    exact (List.perm_append_comm_assoc _ _ _).append_left _

theorem skipped {chunk : ChunkMetadata} {points : List (Point V)} (h : Describes chunk points)
    (hskip : ¬ (chunk.startTs < stop ∧ start ≤ chunk.endTs)) :
    inRange start stop points = [] := by
  apply inRange_nil
  rintro p hp ⟨hlo, hhi⟩
  have h1 := h.least.2 ⟨p, hp, rfl⟩
  have h2 := h.greatest.2 ⟨p, hp, rfl⟩
  omega

theorem scanChunk_eq {dir : Dir V} {chunk : ChunkMetadata} {points : List (Point V)}
    (h : ReadsAs dir chunk points) (i : Nat) (pts : List (Point V)) :
    scanChunk start stop dir chunk i pts =
      .scanning (i + 1) (pts ++ inRange start stop points) := by
  unfold scanChunk
  split
  · rw [collectPointsFromChunk, h.1]
    rfl
  · rename_i hskip
    rw [skipped h.2 hskip, List.append_nil]

theorem progress_other {s : Watch V} (h : Consistent dataDir metric start stop s) {x : Section V}
    (hadmits : ∀ io, x = .flush io → s.scan.beforeHead = true →
      FlushSucceeds dataDir metric io s.ledger.metric → ∀ p ∈ early s, ¬ InRange start stop p) :
    Progress start stop { s with ledger := (s.ledger.run dataDir metric x).2 } s.scan := by
  obtain ⟨hacc, hflushed⟩ := @grown_run V dataDir metric s.ledger x
  have hp := h.progress
  cases hs : s.scan with
  | waiting => trivial
  | failed => rw [hs] at hp; exact hp
  | collected pts =>
    rw [hs] at hp
    exact ExactlyOnce.mono hp rfl hacc
  | scanning i pts =>
    rw [hs] at hp
    obtain ⟨hi, hpts⟩ := hp
    rcases hflushed with he | ⟨io, _, _, he⟩
    · rw [Progress, he]
      exact ⟨hi, hpts⟩
    · rw [Progress, he, List.length_append, List.take_append_of_le_length hi]
      exact ⟨by omega, hpts⟩
  | scanned pts =>
    rw [hs] at hp
    obtain ⟨i, hi, hpts, hgap⟩ := hp
    rcases hflushed with he | ⟨io, rfl, hsucc, he⟩
    · rw [Progress, he]
      exact ⟨i, hi, hpts, hgap⟩
    · rw [Progress, he]
      refine ⟨i, ?_, ?_, ?_⟩
      · rw [List.length_append]
        omega
      · rwa [List.take_append_of_le_length hi]
      · -- what this flush moves comes behind all that was flushed before
        have hsum : (s.ledger.flushed.take i).flatten.length +
            (s.ledger.flushed.drop i).flatten.length = s.ledger.flushed.flatten.length := by
          rw [← List.length_append, ← List.flatten_append, List.take_append_drop]
        have hmoved := hadmits io rfl (by rw [hs]; rfl) hsucc
        rw [early, ← hsum] at hmoved
        rw [List.take_append_of_le_length hi, List.drop_append_of_le_length hi,
          List.flatten_append, List.take_append]
        intro p hp
        cases List.mem_append.mp hp with
        | inl hp => exact hgap p hp
        | inr hp =>
          apply hmoved p
          simpa [Nat.sub_sub] using hp

theorem progress_query {s s' : Watch V} (h : Consistent dataDir metric start stop s)
    (hstep : s.step dataDir metric start stop .query = some s') :
    Consistent dataDir metric start stop s' := by
  have hp := h.progress
  unfold Watch.step at hstep
  cases hs : s.scan with
  | waiting =>
    simp only [hs, Option.some.injEq] at hstep
    rw [← hstep]
    exact ⟨h.onDisk, List.prefix_refl _, Nat.zero_le _, rfl⟩
  | failed => simp [hs] at hstep
  | collected pts => simp [hs] at hstep
  | scanning i pts =>
    rw [hs] at hp
    obtain ⟨hi, hpts⟩ := hp
    have hreads := OnDisk.reads h.onDisk
    have hlen := hreads.length_eq
    cases hc : s.ledger.metric.entry.chunks[i]? with
    | none =>
      simp only [hs, hc, Option.some.injEq] at hstep
      rw [← hstep]
      have hend : i = s.ledger.flushed.length := by
        have := List.getElem?_eq_none_iff.mp hc
        omega
      exact ⟨h.onDisk, h.before, i, hi, hpts, by simp [hend]⟩
    | some chunk =>
      simp only [hs, hc, Option.some.injEq] at hstep
      rw [← hstep]
      obtain ⟨hlt, hget⟩ := List.getElem?_eq_some_iff.mp hc
      have hlt' : i < s.ledger.flushed.length := hlen ▸ hlt
      have hread := hreads.get hlt hlt'
      rw [List.get_eq_getElem, hget] at hread
      refine ⟨h.onDisk, h.before, ?_⟩
      dsimp only
      rw [scanChunk_eq hread, Progress]
      refine ⟨hlt', ?_⟩
      rw [hpts, ← inRange_append, List.take_succ_eq_append_getElem hlt', List.flatten_append,
        List.flatten_singleton]
      rfl
  | scanned pts =>
    rw [hs] at hp
    obtain ⟨i, hi, hpts, hgap⟩ := hp
    simp only [hs, Option.some.injEq] at hstep
    rw [← hstep]
    refine ⟨h.onDisk, h.before, ?_⟩
    have hacc : s.ledger.accepted = (s.ledger.flushed.take i).flatten ++
        (s.ledger.flushed.drop i).flatten ++ s.ledger.metric.entry.head.points := by
      rw [← List.flatten_append, List.take_append_drop]
      exact h.onDisk.conserved.conserved
    have honce := exactlyOnce_gap hacc h.before hgap
    rw [hpts]
    exact honce

theorem consistent_other {s : Watch V} (h : Consistent dataDir metric start stop s) {x : Section V}
    (hfresh : ∀ io, x = .flush io → ∀ first ∈ s.ledger.metric.entry.head.points.head?,
      flushName dataDir metric first ∉ filenames s.ledger.metric)
    (hadmits : ∀ io, x = .flush io → s.scan.beforeHead = true →
      FlushSucceeds dataDir metric io s.ledger.metric → ∀ p ∈ early s, ¬ InRange start stop p) :
    Consistent dataDir metric start stop { s with ledger := (s.ledger.run dataDir metric x).2 } :=
  ⟨onDisk_run h.onDisk hfresh, h.before.trans (grown_run s.ledger x).accepted,
    progress_other h hadmits⟩

theorem watched_consistent {bits : V → BitVec 64} {s : Watch V}
    (h : Watched bits dataDir metric start stop s) : Consistent dataDir metric start stop s := by
  refine Reach.invariant (Consistent dataDir metric start stop) ?_ ?_ h
  · rintro _ ⟨unset, rfl⟩
    exact ⟨onDisk_new dataDir metric unset, List.prefix_refl _, trivial⟩
  · rintro x s s' hs ⟨hadmits, hstep⟩
    cases x with
    | query => exact progress_query hs hstep
    | put point =>
      obtain rfl := Option.some.inj hstep
      exact @consistent_other V _ _ _ _ s hs (.put point) (fun io hx => by cases hx)
        fun io hx => by cases hx
    | flush io =>
      obtain ⟨⟨_, hcloses, hkeeps⟩, hearly⟩ := hadmits
      obtain rfl := Option.some.inj hstep
      rw [flushLedger_told dataDir metric hcloses]
      exact @consistent_other V _ _ _ _ s hs (.flush (told io))
        (fun _ hx => by cases hx; exact hkeeps.1 trivial) fun _ hx => by cases hx; exact hearly

/-- When the query is done it has every point of its range that was accepted before it began,
exactly once, and besides these only points that were accepted later, each at most once. -/
theorem query_exactly_once {bits : V → BitVec 64} {s : Watch V}
    (h : Watched bits dataDir metric start stop s) :
    s.scan ≠ .failed ∧ ∀ pts, s.scan = .collected pts →
      s.before <+: s.ledger.accepted ∧
        ∃ extra, extra.Sublist (s.ledger.accepted.drop s.before.length) ∧
          pts.Perm (inRange start stop (s.before ++ extra)) := by
  have hc := watched_consistent h
  have hp := hc.progress
  refine ⟨fun hs => ?_, fun pts hs => ?_⟩
  · rw [hs] at hp
    exact hp
  · rw [hs] at hp
    exact ⟨hc.before, hp⟩

def Watch.steps (dataDir metric : Text) (start stop : Int) (xs : List (Step V)) :
    Option (Watch V) :=
  xs.foldlM (Watch.step dataDir metric start stop) (Watch.start 0)

/-- The head is flushed while the query is in its loop. -/
theorem query_exactly_once_flush_in_loop : ∃ s : Watch Nat, s.scan = .collected [⟨5, 1⟩] ∧
    ∃ extra, extra.Sublist (s.ledger.accepted.drop s.before.length) ∧
      [⟨5, 1⟩].Perm (inRange 0 10 (s.before ++ extra)) := by
  obtain ⟨s, hs, hp⟩ := Option.bind_eq_some_iff.mp (show ((Watch.steps ['d'] ['m'] 0 10
    [.put ⟨5, 1⟩, .query, .flush .ok, .query, .query, .query]).bind
      fun s : Watch Nat => some s.scan) = some (.collected [⟨5, 1⟩]) by decide)
  have hreach : Watched (fun _ => 0#64) ['d'] ['m'] 0 10 s := .run (.start ⟨0, rfl⟩) _ (by decide) hs
  have hscan := Option.some.inj hp
  exact ⟨s, hscan, ((query_exactly_once hreach).2 _ hscan).2⟩

/-- The head is flushed between the loop and the head's lock. -/
theorem query_misses_flush : ¬ ∀ (dataDir metric : Text) (start stop : Int) (xs : List (Step Nat))
    (s : Watch Nat) (pts : List (Point Nat)), Watch.steps dataDir metric start stop xs = some s →
    s.scan = .collected pts →
    ∃ extra, extra.Sublist (s.ledger.accepted.drop s.before.length) ∧
      pts.Perm (inRange start stop (s.before ++ extra)) := by
  intro h
  obtain ⟨s, hs, hp⟩ := Option.bind_eq_some_iff.mp (show ((Watch.steps ['d'] ['m'] 0 10
    [.put ⟨5, 1⟩, .query, .query, .flush .ok, .query]).bind
      fun s : Watch Nat => some (s.scan, s.before)) = some (.collected [], [⟨5, 1⟩]) by decide)
  obtain ⟨hscan, hbefore⟩ := Prod.mk.inj (Option.some.inj hp)
  obtain ⟨extra, _, hperm⟩ := h ['d'] ['m'] 0 10 _ s [] hs hscan
  have hlen := hperm.length_eq
  rw [hbefore] at hlen
  simp [inRange, InRange] at hlen

end Tsdb.ScanOnce
