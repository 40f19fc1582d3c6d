import Tsdb.LoadOrder
import Tsdb.Retention
import Tsdb.TimeOrder

namespace Tsdb.Lifetime

open CStrings Head Files Wal Registry Sections Service Recovery Shutdown Retention TimeOrder Runs

variable {V : Type}

/-- One turn of a server with a retention thread: a request, an expiry pass, or an end of the
process, however it came, and the next start. -/
inductive Turn (V : Type) where
  | request (env : Env) (metric : Text) (order : Order V)
  | expire (cfg : RetentionConfig) (now : Int) (removes : Text → Nat → Bool)
  | restart (unset : Text → Int) (dirs : AList fun _ : Text => Dir V)

def orderMetric (dataDir metric : Text) (io : FlushIO) (m : MetricState V) :
    Order V → MetricState V
  | .put point => (putLocked dataDir metric io point m).2
  | .flush => (flushSection dataDir metric io m).2

/-- `none` is the null pointer of a `FLUSH` for an unknown metric. -/
def serveOrder (dataDir : Text) (env : Env) (metric : Text) (s : Store V) : Order V → Option (Store V)
  | .put point => (headPut dataDir env metric point s).map Prod.snd
  | .flush => (headFlush dataDir env metric s).map Prod.snd

def Turn.run (dataDir : Text) (s : Store V) : Turn V → Option (Store V)
  | .request env metric order => serveOrder dataDir env metric s order
  | .expire cfg now removes => some (runExpiry cfg now removes s)
  | .restart unset dirs => some (loadRegistry dataDir unset dirs)

/-- How the end of a process may leave the directory of a metric: as it is, in the middle of a
`headflush`, where `cut` allows that, or after the flush that `cleanupRegistry` makes. -/
inductive LeftBy (dataDir metric : Text) (cut : CrashPoint → Prop) (m : MetricState V) :
    Dir V → Prop where
  | idle : LeftBy dataDir metric cut m m.dir
  | stopped (point : CrashPoint) (h : cut point) :
    LeftBy dataDir metric cut m (crashFlush point dataDir metric m)
  | cleaned (io : FlushIO) : LeftBy dataDir metric cut m (flushSection dataDir metric io m).2.dir

def FoundBy (dataDir : Text) (cut : MetricState V → CrashPoint → Prop) (s : Store V) (k : Text)
    (found : Dir V) : Prop :=
  match hashFindStr k s with
  | some m => ∃ dir, LeftBy dataDir k (cut m) m dir ∧ Relisted dir found
  | none => Relisted (s.dirOf k) found

/-- A start finds the directories that the end of the process left, listed in some order. -/
def Possible (dataDir : Text) (s : Store V) : Turn V → Prop
  | .request _ _ _ => True
  | .expire _ _ _ => True
  | .restart _ dirs =>
    ∀ k, FoundBy dataDir (fun _ _ => True) s k ((dirs.lookup k).getD Dir.empty)

def Living (dataDir : Text) (guard : Store V → Turn V → Prop) : Store V → Prop :=
  Reach (fun s => s = Store.empty)
    (Guarded (fun s x => Possible dataDir s x ∧ guard s x) (Turn.run dataDir))

def writtenHead (dataDir metric : Text) (m : MetricState V) (first : Point V) : Dir V :=
  chunkWrite (fopenWb m.dir.mkdir (flushName dataDir metric first)) (flushName dataDir metric first)
    ⟨first.ts, (m.entry.head.points.getLastD first).ts, m.entry.head.points⟩

theorem read_writtenHead {dataDir metric : Text} {m : MetricState V} {first : Point V}
    {name : Text} {data : ChunkData V}
    (hr : chunkRead (writtenHead dataDir metric m first) name = some data) :
    (name = flushName dataDir metric first ∧
        data = ⟨first.ts, (m.entry.head.points.getLastD first).ts, m.entry.head.points⟩) ∨
      chunkRead m.dir name = some data := by
  unfold writtenHead at hr
  by_cases hn : name = flushName dataDir metric first
  · rw [hn, chunkRead_write_self] at hr
    exact .inl ⟨hn, (Option.some.inj hr).symm⟩
  · rw [chunkRead_write_ne _ hn, chunkRead_open_ne _ hn] at hr
    exact .inr hr

/-- What a crash in `headflush` can leave: nothing new or a file cut short, the file besides the
log, or the file alone. -/
theorem crashFlush_cases (point : CrashPoint) (dataDir metric : Text) (m : MetricState V) :
    crashFlush point dataDir metric m = m.dir ∨
      ∃ first ∈ m.entry.head.points.head?,
        FailedFlush (flushName dataDir metric first) m.dir.mkdir
            (crashFlush point dataDir metric m) ∨
          (point = .written ∨ point = .registered) ∧
            crashFlush point dataDir metric m = writtenHead dataDir metric m first ∨
          crashFlush point dataDir metric m =
            walTruncate (writtenHead dataDir metric m first) := by
  unfold crashFlush
  split
  · exact .inl rfl
  · rename_i first rest hp
    refine .inr ⟨first, by rw [hp]; rfl, ?_⟩
    have hlast : (m.entry.head.points.getLastD first).ts = ((first :: rest).getLast (by simp)).ts := by
      rw [hp, List.getLastD_eq_getLast?, List.getLast?_eq_some_getLast (List.cons_ne_nil first rest)]
      rfl
    have hdir : chunkWrite (fopenWb m.dir.mkdir (flushName dataDir metric first))
        (flushName dataDir metric first)
        ⟨first.ts, ((first :: rest).getLast (by simp)).ts, first :: rest⟩ =
        writtenHead dataDir metric m first := by
      rw [writtenHead, hlast, hp]
    unfold flushName at hdir ⊢
    dsimp only
    split
    · exact .inl (.inl rfl)
    · cases point with
      | beforeOpen => exact .inl (.inl rfl)
      | opened => exact .inl (.inr rfl)
      | written => exact .inr (.inl ⟨.inl rfl, hdir⟩)
      | registered => exact .inr (.inl ⟨.inr rfl, hdir⟩)
      | truncated => exact .inr (.inr (congrArg walTruncate hdir))

/-- However a process ends, at most files cut short are new, or the file of the head stands beside
the log or alone. -/
theorem left_cases {dataDir metric : Text} {cut : CrashPoint → Prop} {m : MetricState V}
    {dir : Dir V} (h : LeftBy dataDir metric cut m dir) :
    ((∀ name data, chunkRead dir name = some data → chunkRead m.dir name = some data) ∧
        dir.wal = m.dir.wal) ∨
      ∃ first ∈ m.entry.head.points.head?,
        (∃ point, cut point ∧ (point = .written ∨ point = .registered) ∧
          dir = writtenHead dataDir metric m first) ∨
        dir = walTruncate (writtenHead dataDir metric m first) := by
  cases h with
  | idle => exact .inl ⟨fun _ _ hr => hr, rfl⟩
  | stopped point hcut =>
    rcases crashFlush_cases point dataDir metric m with he | ⟨first, hf, hdir | ⟨hp, he⟩ | he⟩
    · rw [he]
      exact .inl ⟨fun _ _ hr => hr, rfl⟩
    · exact .inl ⟨fun _ _ hr => hdir.complete hr, hdir.wal⟩
    · exact .inr ⟨first, hf, .inl ⟨point, hcut, hp, he⟩⟩
    · exact .inr ⟨first, hf, .inr he⟩
  | cleaned io =>
    rcases flushSection_cases dataDir metric io m with
      ⟨_, he⟩ | ⟨first, hf, ⟨_, dir, hdir, he⟩ | ⟨_, _, he⟩⟩
    · rw [he]
      exact .inl ⟨fun _ _ hr => hr, rfl⟩
    · rw [he]
      exact .inl ⟨fun _ _ hr => hdir.complete hr, hdir.wal⟩
    · rw [he]
      exact .inr ⟨first, hf, .inr rfl⟩

theorem found_keeps {D : Dir V → Prop} {dataDir : Text} {cut : MetricState V → CrashPoint → Prop}
    {s : Store V} {k : Text} {found : Dir V} (h : FoundBy dataDir cut s k found)
    (hlist : ∀ dir, Relisted dir found → D dir → D found)
    (hleft : ∀ m dir, hashFindStr k s = some m → LeftBy dataDir k (cut m) m dir → D dir)
    (hdir : D (s.dirOf k)) : D found := by
  unfold FoundBy at h
  cases hf : hashFindStr k s with
  | some m =>
    rw [hf] at h
    obtain ⟨dir, hdir, hrelisted⟩ := h
    exact hlist dir hrelisted (hleft m dir hf hdir)
  | none =>
    rw [hf] at h
    exact hlist _ h hdir

theorem serveOrder_some {dataDir metric : Text} {env : Env} {order : Order V} {s s' : Store V}
    (h : serveOrder dataDir env metric s order = some s') :
    ∃ m ∈ getMetricFromHashTable env.unset metric order.isPut s,
      s' = s.set metric (orderMetric dataDir metric env.io m order) := by
  cases order with
  | put point =>
    unfold serveOrder headPut at h
    cases hm : getMetricFromHashTable env.unset metric true s with
    | none => simp [hm] at h
    | some m =>
      simp only [hm, Option.map_some, Option.some.injEq] at h
      exact ⟨m, hm, h.symm⟩
  | flush =>
    unfold serveOrder headFlush at h
    cases hm : getMetricFromHashTable env.unset metric false s with
    | none => simp [hm] at h
    | some m =>
      simp only [hm, Option.map_some, Option.some.injEq] at h
      exact ⟨m, hm, h.symm⟩

theorem putLocked_keeps (I : MetricState V → Prop) {dataDir metric : Text} {io : FlushIO}
    {point : Point V} {m : MetricState V} (hput : I (putSection point m).2)
    (hretry : headCapacity ≤ m.entry.head.size →
      I (putSection point (flushSection dataDir metric io m).2).2) :
    I (putLocked dataDir metric io point m).2 := by
  rw [putLocked_eq]
  by_cases hfull : headCapacity ≤ m.entry.head.size
  · rw [if_pos hfull]
    exact hretry hfull
  · rw [if_neg hfull]
    exact hput

/-- `D` of a directory, and `I` of the metric that lives in it, if one does. -/
structure Keeps (D : Text → Dir V → Prop) (I : Text → MetricState V → Prop) (s : Store V)
    (k : Text) : Prop where
  dir : D k (s.dirOf k)
  metric : ∀ m, hashFindStr k s = some m → I k m

section Invariant

variable {dataDir : Text} {guard : Store V → Turn V → Prop} {D : Text → Dir V → Prop}
  {I : Text → MetricState V → Prop}

theorem Keeps.get {s : Store V} {k : Text} (h : Keeps D I s k)
    (hnew : ∀ dir unset, D k dir → I k ⟨⟨getNewHeadBlock unset, [], 4⟩, dir⟩) {unset : Int}
    {flag : Bool} {m : MetricState V} (hm : m ∈ getMetricFromHashTable unset k flag s) : I k m := by
  obtain hf | ⟨_, -, rfl⟩ := getMetric_cases hm
  · exact h.metric _ hf
  · exact hnew _ unset h.dir

theorem Keeps.set {s : Store V} {n : Text} {m : MetricState V} (hdir : D n m.dir) (hm : I n m)
    (h : ∀ k, Keeps D I s k) (k : Text) : Keeps D I (s.set n m) k := by
  by_cases hk : k = n
  · subst hk
    refine ⟨by rwa [dirOf_set], fun m' hm' => ?_⟩
    rw [find_set] at hm'
    rwa [← Option.some.inj hm']
  · refine ⟨by rw [dirOf_set_ne s hk]; exact (h k).dir, fun m' hm' => ?_⟩
    rw [find_set_ne s hk] at hm'
    exact (h k).metric m' hm'

/-- What a directory keeps through every turn, and the metric that is loaded from it. -/
theorem living_invariant (hempty : ∀ k, D k Dir.empty) (hdir : ∀ k m, I k m → D k m.dir)
    (hnew : ∀ k dir unset, D k dir → I k ⟨⟨getNewHeadBlock unset, [], 4⟩, dir⟩)
    (horder : ∀ s env k order m, guard s (.request env k order) →
      m ∈ getMetricFromHashTable env.unset k order.isPut s → I k m →
      I k (orderMetric dataDir k env.io m order))
    (hexpire : ∀ k m cfg now removes, I k m → I k (expireMetric cfg now removes k m))
    (hload : ∀ s unset dirs k, guard s (.restart unset dirs) →
      Possible dataDir s (.restart unset dirs) → Keeps D I s k →
      D k ((dirs.lookup k).getD Dir.empty) ∧
        I k (loadMetric dataDir k (unset k) ((dirs.lookup k).getD Dir.empty)))
    {s : Store V} (h : Living dataDir guard s) (k : Text) : Keeps D I s k := by
  refine Reach.invariant (fun s => ∀ k, Keeps D I s k) ?_ ?_ h k
  · rintro _ rfl k
    exact ⟨hempty k, fun m hm => by cases hm⟩
  · rintro x s s' hs ⟨⟨hpossible, hguard⟩, hrun⟩ k
    cases x with
    | request env n order =>
      obtain ⟨m, hm, rfl⟩ := serveOrder_some hrun
      have hI := horder s env n order m hguard hm ((hs n).get (hnew n) hm)
      exact Keeps.set (hdir n _ hI) hI hs k
    | expire cfg now removes =>
      obtain rfl := Option.some.inj hrun
      cases hf : hashFindStr k s with
      | none =>
        obtain ⟨hfind, hsame⟩ := @find_runExpiry_none V cfg now removes s k hf
        refine ⟨by rw [hsame]; exact (hs k).dir, fun m hm => ?_⟩
        rw [hfind] at hm
        cases hm
      | some m =>
        have hfind := @find_runExpiry V cfg now removes s k m hf
        have hI := hexpire k m cfg now (removes k) ((hs k).metric m hf)
        refine ⟨by rw [← find_dir hfind]; exact hdir k _ hI, fun m' hm' => ?_⟩
        obtain rfl := Option.some.inj (hfind.symm.trans hm')
        exact hI
    | restart unset dirs =>
      obtain rfl := Option.some.inj hrun
      obtain ⟨hD, hI⟩ := hload s unset dirs k hguard hpossible (hs k)
      refine ⟨by rw [dirOf_loadRegistry]; exact hD, fun m hm => ?_⟩
      rw [find_loadRegistry_some hm]
      exact hI

end Invariant

theorem Living.requests {dataDir : Text} {guard : Store V → Turn V → Prop} {calls : List (Call V)}
    {s s' : Store V} (h : Living dataDir guard s)
    (hallowed : Allowed (fun s x => guard s (.request x.1 x.2.1 x.2.2))
      (fun s x => serveOrder dataDir x.1 x.2.1 s x.2.2) calls s)
    (hrun : calls.foldlM (fun s x => serveOrder dataDir x.1 x.2.1 s x.2.2) s = some s') :
    Living dataDir guard s' := by
  induction calls generalizing s with
  | nil =>
    obtain rfl := Option.some.inj hrun
    exact h
  | cons x calls ih =>
    rw [List.foldlM_cons] at hrun
    obtain ⟨s1, h1, hrun⟩ := Option.bind_eq_some_iff.mp hrun
    exact ih (.next (.request x.1 x.2.1 x.2.2) h ⟨⟨trivial, hallowed.1⟩, h1⟩) (hallowed.2 s1 h1) hrun

theorem found_same (dataDir : Text) (cut : MetricState V → CrashPoint → Prop) (s : Store V)
    (k : Text) : FoundBy dataDir cut s k ((s.dirs.lookup k).getD Dir.empty) := by
  unfold FoundBy
  cases hf : hashFindStr k s with
  | none => exact .refl _
  | some m => exact ⟨m.dir, .idle, by rw [find_dir hf]; exact .refl _⟩

theorem Living.again {dataDir : Text} {guard : Store V → Turn V → Prop} {s : Store V}
    (h : Living dataDir guard s) (unset : Text → Int) (hguard : guard s (.restart unset s.dirs)) :
    Living dataDir guard (loadRegistry dataDir unset s.dirs) :=
  .next (.restart unset s.dirs) h ⟨⟨found_same dataDir _ s, hguard⟩, rfl⟩

theorem Living.expired {dataDir : Text} {guard : Store V → Turn V → Prop} {s : Store V}
    (h : Living dataDir guard s) (cfg : RetentionConfig) (now : Int) (removes : Text → Nat → Bool)
    (hguard : guard s (.expire cfg now removes)) :
    Living dataDir guard (runExpiry cfg now removes s) :=
  .next (.expire cfg now removes) h ⟨⟨trivial, hguard⟩, rfl⟩

end Tsdb.Lifetime
