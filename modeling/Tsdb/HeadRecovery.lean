import Tsdb.Replay
import Tsdb.WriteAhead

namespace Tsdb.HeadRecovery

open CStrings Head Files Runs Replay LittleEndian WalBytes WriteAhead

/-- How the file operations of a request end: those of `chunkwrite`, of `wal_append`, and the
`remove` of `wal_truncate`, whose result is dropped. -/
structure Outcome where
  chunk : ChunkIO
  append : AppendIO
  remove : Bool
  deriving DecidableEq, Repr

/-- A metric, and whether every record was written whole since the head was empty. -/
structure Trail where
  metric : Logging
  whole : Bool

inductive Step where
  | put (o : Outcome) (point : Sample)
  | flush (o : Outcome)

def headFlush (dataDir metric : Text) (o : Outcome) (s : Logging) : Bool × Logging :=
  match s.entry.head.points with
  | [] => (true, s)
  | _ :: _ =>
    match Registry.flushHead dataDir metric o.chunk ⟨s.entry, s.dir⟩ with
    | (false, m) => (false, ⟨m.entry, m.dir, s.log⟩)
    | (true, m) => (true, ⟨m.entry, m.dir, if o.remove then none else s.log⟩)

def Whole (io : AppendIO) (s : Logging) : Prop :=
  (s.dir.present = true ∨ io.mkdir = true) ∧ io.fopen = true ∧ 8 ≤ io.first ∧ 8 ≤ io.second

instance (io : AppendIO) (s : Logging) : Decidable (Whole io s) :=
  inferInstanceAs (Decidable (_ ∧ _ ∧ _ ∧ _))

def Trail.put (o : Outcome) (point : Sample) (r : Trail) : Bool × Trail :=
  let (res, s) := putSection o.append point r.metric
  (res, ⟨s, if res then r.whole && Whole o.append r.metric else r.whole⟩)

def Trail.flush (dataDir metric : Text) (o : Outcome) (r : Trail) : Bool × Trail :=
  let (res, s) := headFlush dataDir metric o r.metric
  (res, ⟨s, s.entry.head.points.isEmpty || r.whole⟩)

def Trail.run (dataDir metric : Text) (r : Trail) : Step → Option Trail
  | .put o point =>
    match r.put o point with
    | (true, r) => some r
    | (false, r) =>
      if headCapacity ≤ r.metric.entry.head.size then
        some ((r.flush dataDir metric o).2.put o point).2
      else some r
  | .flush o => some (r.flush dataDir metric o).2

def Step.outcome : Step → Outcome
  | .put o _ => o
  | .flush o => o

/-- Timestamps are longs, the log can be removed, and the metric's directory is its own. -/
def Admits (metric : Text) (_ : Trail) (x : Step) : Prop :=
  EntryName metric ∧ x.outcome.remove = true ∧
    match x with
    | .put _ point => InLong point.ts
    | .flush _ => True

instance (metric : Text) (r : Trail) : ∀ x, Decidable (Admits metric r x)
  | .put o point => inferInstanceAs (Decidable
      (EntryName metric ∧ o.remove = true ∧ -2 ^ 63 ≤ point.ts ∧ point.ts < 2 ^ 63))
  | .flush o => inferInstanceAs (Decidable (EntryName metric ∧ o.remove = true ∧ True))

def Trail.start (unset : Int) : Trail := ⟨⟨⟨getNewHeadBlock unset, [], 4⟩, Dir.empty, none⟩, true⟩

def Recorded (dataDir metric : Text) : Trail → Prop :=
  Reach (fun r => ∃ unset, r = Trail.start unset)
    (Guarded (Admits metric) (Trail.run dataDir metric))

/-- A log of whole records is that of the head, and any other is too short for it. -/
structure Kept (r : Trail) : Prop where
  ordered : Ordered r.metric.entry.head
  long : ∀ p ∈ r.metric.entry.head.points, InLong p.ts
  whole : r.whole = true →
    r.metric.log.getD [] = r.metric.entry.head.points.flatMap recordBytes
  torn : r.whole = false →
    (r.metric.log.getD []).length < walRecordBytes * r.metric.entry.head.points.length

theorem kept_start (unset : Int) : Kept (Trail.start unset) :=
  ⟨ordered_new unset, fun _ hp => absurd hp List.not_mem_nil, fun _ => rfl, Bool.noConfusion⟩

theorem walAppend_entry (io : AppendIO) (point : Sample) (s : Logging) :
    (walAppend io point s).entry = s.entry := by
  unfold walAppend
  dsimp only
  split_ifs <;> rfl

/-- What is not a whole record is less than one. -/
theorem walAppend_torn {io : AppendIO} {point : Sample} {s : Logging} (h : ¬ Whole io s) :
    ((walAppend io point s).log.getD []).length <
      (s.log.getD []).length + walRecordBytes := by
  have hdir : (if io.mkdir then s.dir.mkdir else s.dir).present =
      (s.dir.present || io.mkdir) := by
    split
    case isTrue hmkdir => rw [hmkdir, Bool.or_true]; rfl
    case isFalse hmkdir => rw [Bool.not_eq_true _ |>.mp hmkdir, Bool.or_false]
  unfold walAppend
  dsimp only
  rw [hdir]
  split
  case isTrue => exact Nat.lt_add_of_pos_right (by decide)
  case isFalse hopened =>
    split
    case isTrue hfirst =>
      rw [Option.getD_some, List.length_append, List.length_take, wordBytes_length]
      unfold walRecordBytes
      omega
    case isFalse hfirst =>
      have hsecond : io.second < 8 := by
        by_contra hsecond
        rw [Bool.not_eq_true, Bool.not_eq_false', Bool.and_eq_true, Bool.or_eq_true] at hopened
        exact h ⟨hopened.1, hopened.2, not_lt.mp hfirst, not_lt.mp hsecond⟩
      rw [Option.getD_some, List.length_append, List.length_append, List.length_take,
        wordBytes_length, wordBytes_length]
      unfold walRecordBytes
      omega

theorem kept_put {r : Trail} (h : Kept r) (o : Outcome) {point : Sample} (hlong : InLong point.ts) :
    Kept (r.put o point).2 := by
  have hordered := ordered_put h.ordered point
  unfold Trail.put putSection
  rcases putValue_cases r.metric.entry.head point with ⟨_, _, he⟩ | ⟨_, he⟩
  · rw [he] at hordered ⊢
    dsimp only at hordered ⊢
    generalize hs : ({ r.metric with entry := { r.metric.entry with head :=
      ⟨r.metric.entry.head.points ++ [point], point.ts⟩ } } : Logging) = s
    have hpoints : s.entry.head.points = r.metric.entry.head.points ++ [point] := by rw [← hs]
    have hlog : s.log = r.metric.log := by rw [← hs]
    have hwhole : Whole o.append r.metric ↔ Whole o.append s := by rw [← hs]; rfl
    rw [if_pos rfl]
    refine ⟨?_, ?_, fun hall => ?_, fun hany => ?_⟩
    · rw [walAppend_entry, ← hs]
      exact hordered
    · rw [walAppend_entry, hpoints]
      exact List.forall_mem_append.mpr ⟨h.long, List.forall_mem_singleton.mpr hlong⟩
    · obtain ⟨hold, hnew⟩ := Bool.and_eq_true_iff.mp hall
      obtain ⟨hdir, hopen, hfirst, hsecond⟩ := hwhole.mp (of_decide_eq_true hnew)
      rw [walAppend_entry, hpoints, walAppend_written hdir hopen hfirst hsecond, hlog,
        Option.getD_some, h.whole hold]
      simp
    · rw [walAppend_entry, hpoints, List.length_append, List.length_singleton, Nat.mul_add]
      cases hold : r.whole with
      | false =>
        have hle := h.torn hold
        have hmore : ((walAppend o.append point s).log.getD []).length ≤
            (s.log.getD []).length + walRecordBytes := by
          by_cases hnew : Whole o.append s
          · obtain ⟨hdir, hopen, hfirst, hsecond⟩ := hnew
            rw [walAppend_written hdir hopen hfirst hsecond, Option.getD_some, List.length_append,
              recordBytes_length]
          · exact (walAppend_torn hnew).le
        rw [hlog] at hmore
        exact lt_of_le_of_lt hmore (Nat.add_lt_add_right hle _)
      | true =>
        have hnew : ¬ Whole o.append s := fun hnew => by
          rw [hold, decide_eq_true (hwhole.mpr hnew)] at hany
          cases hany
        have hmore := @walAppend_torn o.append point s hnew
        rw [hlog, h.whole hold, records_length] at hmore
        exact hmore
  · rw [he]
    exact h

/-- What comes of the chunk file shows in the head only where it shows in the result. -/
theorem flushHead_head {dataDir metric : Text} (io : ChunkIO)
    {m : Registry.MetricState (BitVec 64)} (hne : m.entry.head.points ≠ []) :
    ∃ m', (Registry.flushHead dataDir metric io m = (true, m') ∧ m'.entry.head = ⟨[], 0⟩) ∨
      (Registry.flushHead dataDir metric io m = (false, m') ∧ m'.entry = m.entry) := by
  unfold Registry.flushHead
  split
  · exact absurd ‹_› hne
  · dsimp only
    split
    · exact ⟨_, .inr ⟨rfl, rfl⟩⟩
    · exact ⟨_, .inl ⟨rfl, rfl⟩⟩

theorem headFlush_cases (dataDir metric : Text) {o : Outcome} (hremove : o.remove = true)
    {s : Logging} (hne : s.entry.head.points ≠ []) :
    ((headFlush dataDir metric o s).2.entry.head = ⟨[], 0⟩ ∧
        (headFlush dataDir metric o s).2.log = none) ∨
      ((headFlush dataDir metric o s).2.entry = s.entry ∧
        (headFlush dataDir metric o s).2.log = s.log) := by
  unfold headFlush
  split
  · exact absurd ‹_› hne
  · obtain ⟨m, ⟨he, hhead⟩ | ⟨he, hentry⟩⟩ :=
      @flushHead_head dataDir metric o.chunk ⟨s.entry, s.dir⟩ hne
    · rw [he]
      exact .inl ⟨hhead, if_pos hremove⟩
    · rw [he]
      exact .inr ⟨hentry, rfl⟩

theorem kept_flush {r : Trail} (h : Kept r) (dataDir metric : Text) {o : Outcome}
    (hremove : o.remove = true) : Kept (r.flush dataDir metric o).2 := by
  unfold Trail.flush
  dsimp only
  by_cases hnil : r.metric.entry.head.points = []
  · have hsame : headFlush dataDir metric o r.metric = (true, r.metric) := by
      unfold headFlush
      rw [hnil]
    have hall : r.whole = true := by
      by_contra hany
      have hlt := h.torn ((Bool.not_eq_true _).mp hany)
      rw [hnil] at hlt
      exact Nat.not_lt_zero _ hlt
    rw [hsame]
    refine ⟨h.ordered, h.long, fun _ => h.whole hall, fun hany => ?_⟩
    rw [hall, Bool.or_true] at hany
    cases hany
  · rcases headFlush_cases dataDir metric hremove hnil with ⟨hhead, hlog⟩ | ⟨hentry, hlog⟩
    · refine ⟨?_, ?_, fun _ => ?_, fun hany => ?_⟩
      · rw [hhead]
        exact ordered_new 0
      · rw [hhead]
        exact fun _ hp => absurd hp List.not_mem_nil
      · rw [hhead, hlog]
        rfl
      · rw [hhead] at hany
        cases hany
    · have hold : ((headFlush dataDir metric o r.metric).2.entry.head.points.isEmpty
          || r.whole) = r.whole := by
        rw [hentry, List.isEmpty_eq_false_iff.mpr hnil, Bool.false_or]
      rw [hold]
      refine ⟨?_, ?_, ?_, ?_⟩
      · rw [hentry]
        exact h.ordered
      · rw [hentry]
        exact h.long
      · rw [hentry, hlog]
        exact h.whole
      · rw [hentry, hlog]
        exact h.torn

theorem recorded_kept {dataDir metric : Text} {r : Trail} (h : Recorded dataDir metric r) :
    Kept r := by
  refine Reach.invariant Kept ?_ ?_ h
  · rintro _ ⟨unset, rfl⟩
    exact kept_start unset
  · rintro x r r' hr ⟨hadmits, hrun⟩
    cases x with
    | flush o =>
      obtain rfl := Option.some.inj hrun
      exact kept_flush hr dataDir metric hadmits.2.1
    | put o point =>
      have hput := kept_put hr o hadmits.2.2
      cases hres : r.put o point with
      | mk res r1 =>
        rw [hres] at hput
        rw [Trail.run, hres] at hrun
        cases res with
        | true =>
          obtain rfl := Option.some.inj hrun
          exact hput
        | false =>
          dsimp only at hput hrun
          split at hrun
          · obtain rfl := Option.some.inj hrun
            exact kept_put (kept_flush hput dataDir metric hadmits.2.1) o hadmits.2.2
          · obtain rfl := Option.some.inj hrun
            exact hput

theorem replay_short {log : Option (List Byte)} {unset : Int} {n : Nat}
    (h : (log.getD []).length < walRecordBytes * n) :
    (walReplayBytes log (getNewHeadBlock unset)).points.length < n := by
  cases log with
  | none => exact Nat.pos_of_ne_zero (by rintro rfl; exact Nat.not_lt_zero _ h)
  | some file =>
    obtain ⟨records, tail, hfile, htail, hlong⟩ := exists_records file
    obtain ⟨kept, hsub, hpoints⟩ := replay_appends records (getNewHeadBlock unset)
    rw [Option.getD_some, hfile, List.length_append, records_length] at h
    rw [hfile, walReplayBytes_eq hlong htail, hpoints]
    refine lt_of_le_of_lt hsub.length_le ?_
    unfold walRecordBytes at h
    omega

/-- Recovery gives the head back exactly when each of its records was written whole, its timestamps
increase strictly, and the first is above whatever the new block's `lastTimestamp` holds. -/
theorem replay_reproduces_iff {dataDir metric : Text} {r : Trail} (h : Recorded dataDir metric r)
    (unset : Int) :
    (walReplayBytes r.metric.log (getNewHeadBlock unset)).points = r.metric.entry.head.points ↔
      r.whole = true ∧ (unset :: r.metric.entry.head.points.map Point.ts).IsChain (· < ·) := by
  have hkept := recorded_kept h
  cases hwhole : r.whole with
  | false =>
    refine iff_of_false (fun hsame => ?_) fun h => Bool.false_ne_true h.1
    have hshort := @replay_short r.metric.log unset _ (hkept.torn hwhole)
    rw [hsame] at hshort
    exact absurd hshort (lt_irrefl _)
  | true =>
    have hloop := replay_loop r.metric.entry.head.points (getNewHeadBlock unset) (by
      rw [getNewHeadBlock, List.length_nil, Nat.zero_add]
      exact hkept.ordered.room)
    have hlog := hkept.whole hwhole
    have hbytes : walReplayBytes r.metric.log (getNewHeadBlock unset) =
        r.metric.entry.head.points.foldl Wal.replayRecord (getNewHeadBlock unset) := by
      cases hl : r.metric.log with
      | none =>
        rw [hl] at hlog
        have hnil := List.length_eq_zero_iff.mp (by
          simpa [records_length, walRecordBytes] using (congrArg List.length hlog).symm)
        rw [hnil]
        rfl
      | some file =>
        rw [hl, Option.getD_some] at hlog
        have := walReplayBytes_eq hkept.long (show ([] : List Byte).length < walRecordBytes by decide)
          (getNewHeadBlock unset)
        rwa [List.append_nil, ← hlog] at this
    rw [hbytes, and_iff_right rfl]
    exact hloop

private def twoPuts : List Step :=
  [.put ⟨.ok, ⟨true, true, 8, 8⟩, true⟩ ⟨5, 1⟩, .put ⟨.ok, ⟨false, true, 8, 8⟩, true⟩ ⟨9, 2⟩]

/-- Points at 5 and at 9 come back into a block whose memory was zero. -/
theorem replay_reproduces_iff_two_puts : ∃ r : Trail,
    twoPuts.foldlM (Trail.run ['d'] ['m']) (.start 7) = some r ∧
    (walReplayBytes r.metric.log (getNewHeadBlock 0)).points = [⟨5, 1⟩, ⟨9, 2⟩] := by
  obtain ⟨r, hr, hp⟩ := Option.map_eq_some_iff.mp (show
    (twoPuts.foldlM (Trail.run ['d'] ['m']) (.start 7)).map
      (fun r => (r.whole, r.metric.entry.head.points)) = some (true, [⟨5, 1⟩, ⟨9, 2⟩]) by decide)
  obtain ⟨hwhole, hpoints⟩ := Prod.mk.inj hp
  have hreach : Recorded ['d'] ['m'] r := .run (.start ⟨7, rfl⟩) twoPuts (by decide) hr
  refine ⟨r, hr, ?_⟩
  rw [← hpoints]
  exact (replay_reproduces_iff hreach 0).mpr ⟨hwhole, by rw [hpoints]; decide⟩

private def equalPuts : List Step :=
  [.put ⟨.ok, ⟨true, true, 8, 8⟩, true⟩ ⟨5, 1⟩, .put ⟨.ok, ⟨true, true, 8, 8⟩, true⟩ ⟨5, 2⟩]

/-- Two points at 5 are accepted, and one of them is skipped even when the memory was zero. -/
theorem replay_skips_equal : ¬ ∀ (dataDir metric : Text) (r : Trail) (unset : Int),
    Recorded dataDir metric r → r.whole = true →
    (walReplayBytes r.metric.log (getNewHeadBlock unset)).points = r.metric.entry.head.points := by
  intro h
  obtain ⟨r, hr, hp⟩ := Option.map_eq_some_iff.mp (show
    (equalPuts.foldlM (Trail.run ['d'] ['m']) (.start 7)).map
      (fun r => (r.whole, (walReplayBytes r.metric.log (getNewHeadBlock 0)).points,
        r.metric.entry.head.points)) = some (true, [⟨5, 1⟩], [⟨5, 1⟩, ⟨5, 2⟩]) by decide)
  obtain ⟨hwhole, hboth⟩ := Prod.mk.inj hp
  obtain ⟨hreplayed, hpoints⟩ := Prod.mk.inj hboth
  have hreach : Recorded ['d'] ['m'] r := .run (.start ⟨7, rfl⟩) equalPuts (by decide) hr
  have hsame := h ['d'] ['m'] r 0 hreach hwhole
  rw [hreplayed, hpoints] at hsame
  exact absurd hsame (by decide)

end Tsdb.HeadRecovery
