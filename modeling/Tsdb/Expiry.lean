import Tsdb.Contents
import Tsdb.Origins
import Tsdb.Phases
import Tsdb.Reads

namespace Tsdb.Expiry

open CStrings Head Files Wal Registry Sections History Service Disk Query Aggregate Recovery
  Shutdown Downsample CoarseDirs Server Reads TimeOrder Retention Lifetime Contents Origins Phases
  Runs

variable {W : Type} {dataDir : Text}

/-- The number of requests so far, the points that were ever put to a metric or averaged under its
name, and for each metric the `PUT`s that a chunk held when it expired. -/
structure Past (W : Type) where
  clock : Nat
  made : Set (Text × Point (Tracked W))
  expired : Set (Text × Nat)

/-- A server whose values tell where they come from, and what its downsampling thread has at
hand. -/
structure Machine (W : Type) where
  store : Store (Tracked W)
  job : Option (Job (Tracked W))
  past : Past W

def Machine.start : Machine W := ⟨Store.empty, none, 0, ∅, ∅⟩

inductive Step (W : Type) where
  | request (env : Env) (metric : Text) (order : Order W)
  | expire (cfg : RetentionConfig) (now : Int) (removes : Text → Nat → Bool)
  | restart (unset : Text → Int) (dirs : AList fun _ : Text => Dir (Tracked W))
  | choose (now : Int) (metric : Text) (i : Nat)
  | read
  | write (io : FlushIO) (marks : Bool)

/-- The order, with its number on the value. -/
def track (n : Nat) : Order W → Order (Tracked W)
  | .put point => .put ⟨point.ts, ⟨point.value, {n}⟩⟩
  | .flush => .flush

def Past.request (past : Past W) (metric : Text) (order : Order W) : Past W :=
  { past with
    clock := past.clock + 1
    made := past.made ∪ {q | ∃ point, track past.clock order = .put point ∧ q = (metric, point)} }

/-- The `PUT`s that a chunk holds when it expires, with the metric of the chunk. -/
def expires (cfg : RetentionConfig) (now : Int) (s : Store (Tracked W)) : Set (Text × Nat) :=
  {t | ∃ m, hashFindStr t.1 s = some m ∧ ∃ chunk ∈ m.entry.chunks, Expires cfg now t.1 chunk ∧
    ∃ p ∈ chunkPoints m.dir chunk, t.2 ∈ p.value.origins}

section Runs

variable [Zero W] [Add W] [Div W] [NatCast W]

def Past.average (past : Past W) (job : Job (Tracked W)) : Past W :=
  { past with made := past.made ∪ {q | ∃ points ∈ job.points, ∃ p ∈ coarsePoints points,
    q = (downsampleCoarseDir job.metric, p)} }

/-- The downsampling thread does one thing at a time, and forgets it with the process. -/
def Step.run (dataDir : Text) (x : Machine W) : Step W → Option (Machine W)
  | .request env metric order =>
    (serveOrder dataDir env metric x.store (track x.past.clock order)).map fun s =>
      ⟨s, x.job, x.past.request metric order⟩
  | .expire cfg now removes => some ⟨runExpiry cfg now removes x.store, x.job,
      { x.past with expired := x.past.expired ∪ expires cfg now x.store }⟩
  | .restart unset dirs => some ⟨loadRegistry dataDir unset dirs, none, x.past⟩
  | .choose now metric i =>
    match x.job with
    | some _ => none
    | none =>
      let (s, job) := chooseChunk now metric i x.store
      some ⟨s, job, x.past⟩
  | .read =>
    match x.job with
    | some ⟨metric, chunk, none⟩ =>
      some ⟨x.store, decompressAll x.store ⟨metric, chunk, none⟩, x.past⟩
    | _ => none
  | .write io marks =>
    match x.job with
    | some ⟨metric, chunk, some points⟩ =>
      let job := ⟨metric, chunk, some points⟩
      some ⟨finishJob io marks x.store job, none, x.past.average job⟩
    | _ => none

def Possible (dataDir : Text) (x : Machine W) : Step W → Prop
  | .restart _ dirs =>
    ∀ k, FoundBy dataDir (fun _ _ => True) x.store k ((dirs.lookup k).getD Dir.empty)
  | _ => True

def Running (dataDir : Text) (guard : Machine W → Step W → Prop) : Machine W → Prop :=
  Reach (fun x => x = Machine.start)
    (Guarded (fun x e => Possible dataDir x e ∧ guard x e) (Step.run dataDir))

end Runs

/-- Downsampling leads from the one directory to the other: to the coarse directory, to the coarse
one of that if it is itself a metric, and so on. -/
def Feeds (d k : Text) : Prop := ∃ n, downsampleCoarseDir^[n] d = k

theorem feeds_self (k : Text) : Feeds k k := ⟨0, rfl⟩

theorem feeds_of_coarse {d k : Text} (h : Feeds (downsampleCoarseDir d) k) : Feeds d k := by
  obtain ⟨n, hn⟩ := h
  exact ⟨n + 1, hn⟩

theorem feeds_coarseDir (k : Text) : Feeds k (downsampleCoarseDir k) :=
  feeds_of_coarse (feeds_self _)

/-- Nothing but the chunk's own file holds this `PUT` where queries on the metric look, or from
where it may get there: no other chunk file, no log, no head, and not the downsampling thread. -/
structure OnlyIn (x : Machine W) (metric : Text) (chunk : ChunkMetadata) (t : Nat) : Prop where
  files : ∀ d, Feeds d (downsampleCoarseDir metric) →
    ∀ name data, chunkRead (x.store.dirOf d) name = some data →
      (d = metric → name ≠ chunk.filename) → ∀ p ∈ data.points, t ∉ p.value.origins
  log : ∀ d, Feeds d (downsampleCoarseDir metric) →
    ∀ p ∈ (x.store.dirOf d).wal.getD [], t ∉ p.value.origins
  head : ∀ d, Feeds d (downsampleCoarseDir metric) →
    ∀ m, hashFindStr d x.store = some m → ∀ p ∈ m.entry.head.points, t ∉ p.value.origins
  job : ∀ job ∈ x.job, Feeds job.metric (downsampleCoarseDir metric) →
    ∀ points ∈ job.points, ∀ p ∈ points, t ∉ p.value.origins

def OwnFile (dir : Dir W) (chunk other : ChunkMetadata) : Prop :=
  other.filename ≠ chunk.filename ∧ ∃ data, chunkRead dir other.filename = some data ∧
    data.startTs = other.startTs ∧ data.endTs = other.endTs

/-- A chunk expires only while its file is all there is of its points, and that file is removed. -/
def WithoutCopies (x : Machine W) : Step W → Prop
  | .expire cfg now removes => ∀ k m, hashFindStr k x.store = some m →
      ∀ i chunk, m.entry.chunks[i]? = some chunk → Expires cfg now k chunk →
        removes k i = true ∧
          (∀ other ∈ m.entry.chunks, ¬ Expires cfg now k other → OwnFile m.dir chunk other) ∧
          ∀ p ∈ chunkPoints m.dir chunk, ∀ t ∈ p.value.origins, OnlyIn x k chunk t
  | _ => True

section Rules

def May (past : Past W) (d : Text) (t : Nat) : Prop :=
  t < past.clock ∧ ∀ k, (k, t) ∈ past.expired → ¬ Feeds d (downsampleCoarseDir k)

variable {past past' : Past W} {d : Text}

theorem May.coarse {t : Nat} (h : May past d t) : May past (downsampleCoarseDir d) t :=
  ⟨h.1, fun k hk hfeeds => h.2 k hk (feeds_of_coarse hfeeds)⟩

def Fine (past : Past W) (d : Text) (p : Point (Tracked W)) : Prop :=
  (d, p) ∈ past.made ∧ From (May past d) p

def Dated (past : Past W) (d : Text) (ts : Int) : Prop :=
  ∃ p, (d, p) ∈ past.made ∧ p.ts = ts ∧ ∀ t ∈ p.value.origins, (d, t) ∉ past.expired

theorem Fine.dated {p : Point (Tracked W)} (h : Fine past d p) : Dated past d p.ts :=
  ⟨p, h.1, rfl, fun t ht hexp => (h.2 t ht).2 d hexp (feeds_coarseDir d)⟩

structure FineFile (past : Past W) (d : Text) (data : ChunkData (Tracked W)) : Prop where
  points : ∀ p ∈ data.points, Fine past d p
  start : ∃ p ∈ data.points, p.ts = data.startTs
  stop : ∃ p ∈ data.points, p.ts = data.endTs

theorem fineFile_of_ends {points : List (Point (Tracked W))} (h : ∀ p ∈ points, Fine past d p)
    {first last : Point (Tracked W)} (hf : first ∈ points) (hl : last ∈ points) :
    FineFile past d ⟨first.ts, last.ts, points⟩ :=
  ⟨h, ⟨first, hf, rfl⟩, ⟨last, hl, rfl⟩⟩

def fine (past : Past W) (d : Text) : Rule (Tracked W) where
  point := Fine past d
  data := FineFile past d
  entry startTs endTs := Dated past d startTs ∧ Dated past d endTs
  flushed points first hf h := by
    apply fineFile_of_ends h (List.mem_of_mem_head? hf)
    have hne : points ≠ [] := by
      rintro rfl
      cases hf
    rw [List.getLastD_eq_getLast?, List.getLast?_eq_some_getLast hne]
    exact List.getLast_mem hne
  listed data h := by
    obtain ⟨p, hp, hstart⟩ := h.start
    obtain ⟨q, hq, hstop⟩ := h.stop
    rw [← hstart, ← hstop]
    exact ⟨(h.points p hp).dated, (h.points q hq).dated⟩

theorem fine_weaker (hclock : past.clock ≤ past'.clock) (hmade : past.made ⊆ past'.made)
    (hexpired : past'.expired = past.expired) (d : Text) : (fine past' d).Weaker (fine past d) := by
  have hpoint (p : Point (Tracked W)) (h : Fine past d p) : Fine past' d p := by
    refine ⟨hmade h.1, h.2.imp fun t ht => ⟨ht.1.trans_le hclock, ?_⟩⟩
    rw [hexpired]
    exact ht.2
  have hdated (ts : Int) (h : Dated past d ts) : Dated past' d ts := by
    obtain ⟨p, hp, hts, hfree⟩ := h
    refine ⟨p, hmade hp, hts, ?_⟩
    rwa [hexpired]
  exact ⟨hpoint, fun data h => ⟨fun p hp => hpoint p (h.points p hp), h.start, h.stop⟩,
    fun startTs endTs h => ⟨hdated startTs h.1, hdated endTs h.2⟩⟩

end Rules

/-- What has expired is nowhere where a query on its metric, or a later step, can find it. -/
structure Forgets (x : Machine W) : Prop where
  past : ∀ t ∈ x.past.expired, t.2 < x.past.clock
  kept : ∀ d, Keeps (fun d => Holds (fine x.past d)) (fun d => HoldsOf (fine x.past d)) x.store d
  job : ∀ job ∈ x.job, ∀ points ∈ job.points, ∀ p ∈ points, From (May x.past job.metric) p

theorem forgets_start : Forgets (Machine.start : Machine W) :=
  ⟨fun _ h => absurd h (Set.notMem_empty _), fun _ => ⟨holds_empty, fun _ hm => (nomatch hm)⟩,
    fun _ h => (nomatch h)⟩

theorem keeps_weaken {past past' : Past W} {s : Store (Tracked W)} {d : Text}
    (h : Keeps (fun d => Holds (fine past d)) (fun d => HoldsOf (fine past d)) s d)
    (hle : (fine past' d).Weaker (fine past d)) :
    Keeps (fun d => Holds (fine past' d)) (fun d => HoldsOf (fine past' d)) s d :=
  ⟨h.dir.weaken hle, fun m hm => (h.metric m hm).weaken hle⟩

theorem forgets_request {x : Machine W} (h : Forgets x) {env : Env} {metric : Text}
    {order : Order W} {s : Store (Tracked W)}
    (hrun : serveOrder dataDir env metric x.store (track x.past.clock order) = some s) :
    Forgets ⟨s, x.job, x.past.request metric order⟩ := by
  have hle (d : Text) : (fine (x.past.request metric order) d).Weaker (fine x.past d) := by
    apply fine_weaker
    · exact Nat.le_succ _
    · exact Set.subset_union_left
    · rfl
  have hkept (d : Text) := keeps_weaken (h.kept d) (hle d)
  obtain ⟨m, hm, rfl⟩ := serveOrder_some hrun
  have hold := (hkept metric).get (fun _ unset hd => holdsOf_new hd unset) hm
  have hnew : HoldsOf (fine (x.past.request metric order) metric)
      (orderMetric dataDir metric env.io m (track x.past.clock order)) := by
    apply holdsOf_order hold
    intro point hpoint
    refine ⟨.inr ⟨point, hpoint, rfl⟩, fun t ht => ?_⟩
    cases order with
    | flush => cases hpoint
    | put given =>
      obtain rfl := Order.put.inj hpoint
      obtain rfl := Finset.mem_singleton.mp ht
      exact ⟨Nat.lt_succ_self _, fun k hk => absurd (h.past _ hk) (Nat.lt_irrefl _)⟩
  refine ⟨fun t ht => Nat.lt_succ_of_lt (h.past t ht), Keeps.set hnew.dir hnew hkept, ?_⟩
  intro job hjob points hpoints p hp
  exact (h.job job hjob points hpoints p hp).imp fun t ht => ⟨Nat.lt_succ_of_lt ht.1, ht.2⟩

theorem forgets_restart {x : Machine W} (h : Forgets x) {unset : Text → Int}
    {dirs : AList fun _ : Text => Dir (Tracked W)}
    (hfound : ∀ k, FoundBy dataDir (fun _ _ => True) x.store k ((dirs.lookup k).getD Dir.empty)) :
    Forgets ⟨loadRegistry dataDir unset dirs, none, x.past⟩ := by
  refine ⟨h.past, fun k => ?_, fun _ hjob => (nomatch hjob)⟩
  have hdir := holds_found (h.kept k).dir (h.kept k).metric (hfound k)
  refine ⟨by rw [dirOf_loadRegistry]; exact hdir, fun m hm => ?_⟩
  rw [find_loadRegistry_some hm]
  exact holdsOf_loaded hdir (unset k)

theorem keeps_setDir {c : Text → Rule (Tracked W)} {s : Store (Tracked W)}
    (h : ∀ k, Keeps (fun k => Holds (c k)) (fun k => HoldsOf (c k)) s k) {name : Text}
    {dir : Dir (Tracked W)} (hdir : Holds (c name) dir) (k : Text) :
    Keeps (fun k => Holds (c k)) (fun k => HoldsOf (c k)) (s.setDir name dir) k := by
  have hnew : Holds (c k) ((s.setDir name dir).dirOf k) := by
    by_cases hk : k = name
    · subst hk
      rwa [dirOf_setDir]
    · rw [dirOf_setDir_ne s hk]
      exact (h k).dir
  refine ⟨hnew, fun m hm => ?_⟩
  rw [find_setDir] at hm
  obtain ⟨old, hold, rfl⟩ := Option.map_eq_some_iff.mp hm
  have hold := (h k).metric old hold
  exact ⟨hnew, hold.ordered, hold.head, hold.chunks⟩

theorem forgets_choose {x : Machine W} (h : Forgets x) (now : Int) (metric : Text) (i : Nat) :
    Forgets ⟨(chooseChunk now metric i x.store).1, (chooseChunk now metric i x.store).2, x.past⟩ := by
  have hsame : Forgets ⟨x.store, none, x.past⟩ := ⟨h.past, h.kept, fun _ hjob => (nomatch hjob)⟩
  unfold chooseChunk
  split
  · exact hsame
  · split
    · exact hsame
    · dsimp only
      split
      · exact hsame
      · split
        · exact hsame
        · refine ⟨h.past, keeps_setDir h.kept ?_, fun job hjob points hpoints => ?_⟩
          · exact (h.kept _).dir.mono (fun _ _ hr => hr) rfl
          · obtain rfl := Option.some.inj hjob
            cases hpoints

theorem forgets_read {x : Machine W} (h : Forgets x) (job : Job (Tracked W)) :
    Forgets ⟨x.store, decompressAll x.store job, x.past⟩ := by
  refine ⟨h.past, h.kept, fun job' hjob points hpoints p hp => ?_⟩
  unfold decompressAll at hjob
  split at hjob
  · cases hjob
  · rename_i data hread
    split at hjob
    · cases hjob
    · obtain rfl := Option.some.inj hjob
      obtain rfl := Option.some.inj hpoints
      exact (((h.kept job.metric).dir.files _ data hread).points p hp).2

section Coarse

variable [Zero W] [Add W] [Div W] [NatCast W]

theorem writeCoarseChunk_holds {past : Past W} {d : Text} {dir : Dir (Tracked W)}
    (h : Holds (fine past d) dir) (io : FlushIO) (metric : Text) {points : List (Point (Tracked W))}
    (hpoints : ∀ p ∈ coarsePoints points, Fine past d p) :
    Holds (fine past d) (writeCoarseChunk io metric dir points) := by
  unfold writeCoarseChunk
  dsimp only
  split
  · rename_i first last hf hl
    rcases flushToChunk_cases io dir (coarseName metric (chunkId first.ts))
      ⟨first.ts, last.ts, coarsePoints points⟩ with ⟨_, dir', hfailed, he⟩ | ⟨_, _, he⟩
    · rw [he]
      exact h.mono (fun _ _ hr => hfailed.complete hr) hfailed.wal
    · rw [he]
      refine ⟨fun name data hr => ?_, h.log⟩
      by_cases hn : name = coarseName metric (chunkId first.ts)
      · rw [hn, chunkRead_write_self] at hr
        obtain rfl := Option.some.inj hr
        exact fineFile_of_ends hpoints (List.mem_of_mem_head? hf) (List.mem_of_mem_getLast? hl)
      · rw [chunkRead_write_ne _ hn, chunkRead_open_ne _ hn] at hr
        exact h.files name data hr
  · exact h

theorem forgets_write {x : Machine W} (h : Forgets x) {job : Job (Tracked W)}
    (hjob : job ∈ x.job) (io : FlushIO) (marks : Bool) :
    Forgets ⟨finishJob io marks x.store job, none, x.past.average job⟩ := by
  have hle (d : Text) : (fine (x.past.average job) d).Weaker (fine x.past d) := by
    apply fine_weaker
    · exact le_rfl
    · exact Set.subset_union_left
    · rfl
  have hkept (d : Text) := keeps_weaken (h.kept d) (hle d)
  refine ⟨h.past, ?_, fun _ hnone => (nomatch hnone)⟩
  unfold finishJob
  cases hpoints : job.points with
  | none => exact hkept
  | some points =>
    apply keeps_setDir hkept
    have hfrom : ∀ p ∈ coarsePoints points, From (May x.past (downsampleCoarseDir job.metric)) p :=
      coarsePoints_from fun p hp => (h.job job hjob points hpoints p hp).imp fun _ ht => ht.coarse
    have hall : ∀ p ∈ coarsePoints points,
        Fine (x.past.average job) (downsampleCoarseDir job.metric) p :=
      fun p hp => ⟨.inr ⟨points, hpoints, p, hp, rfl⟩, hfrom p hp⟩
    have hwritten := writeCoarseChunk_holds (hkept _).dir io job.metric hall
    cases marks with
    | true => exact hwritten.mono (fun _ _ hr => hr) rfl
    | false => exact hwritten

end Coarse

section Expire

variable {x : Machine W} {cfg : RetentionConfig} {now : Int} {removes : Text → Nat → Bool}

theorem runExpiry_dir (s : Store (Tracked W)) (k : Text) :
    (∀ name data, chunkRead ((runExpiry cfg now removes s).dirOf k) name = some data →
        chunkRead (s.dirOf k) name = some data) ∧
      ((runExpiry cfg now removes s).dirOf k).wal = (s.dirOf k).wal := by
  cases hm : hashFindStr k s with
  | none =>
    rw [(find_runExpiry_none hm).2]
    exact ⟨fun _ _ hr => hr, rfl⟩
  | some m =>
    obtain ⟨_, _, hsheds⟩ := expireMetric_sheds cfg now (removes k) k m
    rw [← find_dir (find_runExpiry hm), ← find_dir hm]
    exact ⟨hsheds.read, hsheds.wal⟩

theorem expires_removed (honly : WithoutCopies x (.expire cfg now removes)) {k : Text} {t : Nat}
    (ht : (k, t) ∈ expires cfg now x.store) :
    ∃ m chunk, hashFindStr k x.store = some m ∧ OnlyIn x k chunk t ∧
      (∀ other ∈ m.entry.chunks, ¬ Expires cfg now k other → OwnFile m.dir chunk other) ∧
      chunkRead ((runExpiry cfg now removes x.store).dirOf k) chunk.filename = none ∧
      ∃ p ∈ chunkPoints m.dir chunk, t ∈ p.value.origins := by
  obtain ⟨m, hm, chunk, hc, hexp, p, hp, htp⟩ := ht
  obtain ⟨i, hi⟩ := List.mem_iff_getElem?.mp hc
  obtain ⟨hremoved, hothers, hcopies⟩ := honly k m hm i chunk hi hexp
  refine ⟨m, chunk, hm, hcopies p hp t htp, hothers, ?_, p, hp, htp⟩
  rw [← find_dir (find_runExpiry hm)]
  exact (expireMetric_chunks cfg now (removes k) k m).2 i chunk hi hexp hremoved

abbrev Past.expire (past : Past W) (ts : Set (Text × Nat)) : Past W :=
  { past with expired := past.expired ∪ ts }

/-- A holder that the chunk's own file is not keeps nothing of what expires. -/
theorem may_expire (honly : WithoutCopies x (.expire cfg now removes)) {d : Text} {t : Nat}
    (hmay : May x.past d t)
    (hfree : ∀ k chunk, Feeds d (downsampleCoarseDir k) → OnlyIn x k chunk t →
      chunkRead ((runExpiry cfg now removes x.store).dirOf k) chunk.filename ≠ none) :
    May (x.past.expire (expires cfg now x.store)) d t := by
  refine ⟨hmay.1, fun k hk hfeeds => ?_⟩
  rcases hk with hold | hnew
  · exact hmay.2 k hold hfeeds
  · obtain ⟨m, chunk, _, hcopies, _, hremoved, _⟩ := expires_removed honly hnew
    exact hfree k chunk hfeeds hcopies hremoved

theorem holds_expire (h : Forgets x) (honly : WithoutCopies x (.expire cfg now removes))
    (d : Text) : Holds (fine (x.past.expire (expires cfg now x.store)) d)
      ((runExpiry cfg now removes x.store).dirOf d) := by
  obtain ⟨hread, hwal⟩ := @runExpiry_dir W cfg now removes x.store d
  refine ⟨fun name data hr => ?_, fun p hp => ?_⟩
  · have hold := (h.kept d).dir.files name data (hread name data hr)
    refine ⟨fun p hp => ⟨(hold.points p hp).1, fun t ht => ?_⟩, hold.start, hold.stop⟩
    apply may_expire honly ((hold.points p hp).2 t ht)
    intro k chunk hfeeds hcopies hremoved
    refine hcopies.files d hfeeds name data (hread name data hr) ?_ p hp ht
    rintro rfl rfl
    rw [hremoved] at hr
    cases hr
  · rw [hwal] at hp
    have hold := (h.kept d).dir.log p hp
    refine ⟨hold.1, fun t ht => may_expire honly (hold.2 t ht) ?_⟩
    exact fun k chunk hfeeds hcopies => absurd ht (hcopies.log d hfeeds p hp)

theorem dated_expire (h : Forgets x) (honly : WithoutCopies x (.expire cfg now removes))
    {d : Text} {m : MetricState (Tracked W)} (hm : hashFindStr d x.store = some m)
    {other : ChunkMetadata} (hother : other ∈ m.entry.chunks) (hstays : ¬ Expires cfg now d other) :
    Dated (x.past.expire (expires cfg now x.store)) d other.startTs ∧
      Dated (x.past.expire (expires cfg now x.store)) d other.endTs := by
  by_cases hnew : ∃ t, (d, t) ∈ expires cfg now x.store
  · obtain ⟨t, ht⟩ := hnew
    obtain ⟨m', chunk, hm', _, hothers, _⟩ := expires_removed honly ht
    obtain rfl := Option.some.inj (hm.symm.trans hm')
    obtain ⟨_, data, hread, hstart, hstop⟩ := hothers other hother hstays
    have hold := ((h.kept d).metric m hm).dir.files _ data hread
    have hdated (p : Point (Tracked W)) (hp : p ∈ data.points) :
        Dated (x.past.expire (expires cfg now x.store)) d p.ts := by
      refine ⟨p, (hold.points p hp).1, rfl, fun t' ht' hexp => hexp.elim ?_ fun hexp => ?_⟩
      · exact fun hexp => ((hold.points p hp).2 t' ht').2 d hexp (feeds_coarseDir d)
      · obtain ⟨m'', chunk', hm'', hcopies, hothers', _⟩ := expires_removed honly hexp
        obtain rfl := Option.some.inj (hm.symm.trans hm'')
        refine hcopies.files d (feeds_coarseDir d) other.filename data ?_ ?_ p hp ht'
        · rwa [← find_dir hm]
        · exact fun _ => (hothers' other hother hstays).1
    obtain ⟨p, hp, hpstart⟩ := hold.start
    obtain ⟨q, hq, hqstop⟩ := hold.stop
    rw [← hstart, ← hstop, ← hpstart, ← hqstop]
    exact ⟨hdated p hp, hdated q hq⟩
  · have hsame (ts : Int) (hdated : Dated x.past d ts) :
        Dated (x.past.expire (expires cfg now x.store)) d ts := by
      obtain ⟨p, hp, hts, hfree⟩ := hdated
      exact ⟨p, hp, hts, fun t ht hexp => hexp.elim (hfree t ht) fun hexp => hnew ⟨t, hexp⟩⟩
    obtain ⟨hstart, hstop⟩ := ((h.kept d).metric m hm).chunks other hother
    exact ⟨hsame _ hstart, hsame _ hstop⟩

theorem forgets_expire (h : Forgets x) (honly : WithoutCopies x (.expire cfg now removes)) :
    Forgets ⟨runExpiry cfg now removes x.store, x.job,
      x.past.expire (expires cfg now x.store)⟩ := by
  refine ⟨fun t ht => ht.elim (h.past t) fun hnew => ?_, fun d => ?_, ?_⟩
  · obtain ⟨m, chunk, hm, _, _, _, p, hp, htp⟩ := expires_removed honly hnew
    obtain ⟨data, hread, hp⟩ := mem_chunkPoints hp
    have hold := ((h.kept t.1).metric m hm).dir.files _ data hread
    exact ((hold.points p hp).2 t.2 htp).1
  · refine ⟨holds_expire h honly d, fun m' hm' => ?_⟩
    cases hm : hashFindStr d x.store with
    | none =>
      rw [(@find_runExpiry_none _ cfg now removes _ _ hm).1] at hm'
      cases hm'
    | some m =>
      obtain rfl := Option.some.inj ((@find_runExpiry _ cfg now removes _ _ _ hm).symm.trans hm')
      obtain ⟨_, _, hsheds⟩ := expireMetric_sheds cfg now (removes d) d m
      have hold := (h.kept d).metric m hm
      refine ⟨by rw [find_dir hm']; exact holds_expire h honly d, ?_, fun p hp => ?_, ?_⟩
      · rw [hsheds.head]
        exact hold.ordered
      · rw [hsheds.head] at hp
        refine ⟨(hold.head p hp).1, fun t ht => may_expire honly ((hold.head p hp).2 t ht) ?_⟩
        exact fun k chunk hfeeds hcopies => absurd ht (hcopies.head d hfeeds m hm p hp)
      · intro other hother
        rw [(expireMetric_chunks cfg now (removes d) d m).1] at hother
        obtain ⟨hother, hstays⟩ := List.mem_filter.mp hother
        exact dated_expire h honly hm hother (of_decide_eq_true hstays)
  · intro job hjob points hpoints p hp t ht
    apply may_expire honly (h.job job hjob points hpoints p hp t ht)
    exact fun k chunk hfeeds hcopies => absurd ht (hcopies.job job hjob hfeeds points hpoints p hp)

theorem withoutCopies_alone {metric : Text} {m : MetricState (Tracked W)} {chunk : ChunkMetadata}
    (hm : hashFindStr metric x.store = some m) (hmetrics : x.store.registry.keys = [metric])
    (hdirs : x.store.dirs.keys = [metric]) (hchunks : m.entry.chunks = [chunk])
    (hhead : m.entry.head.points = [])
    (hfiles : (x.store.dirOf metric).chunks.keys = [chunk.filename])
    (hwal : (x.store.dirOf metric).wal.getD [] = []) (hjob : x.job = none)
    (hremoves : ∀ i, removes metric i = true) : WithoutCopies x (.expire cfg now removes) := by
  have hempty (d : Text) (hd : d ≠ metric) : x.store.dirOf d = Dir.empty :=
    dirOf_of_keys hdirs hd
  have honly {d : Text} {m' : MetricState (Tracked W)} (hm' : hashFindStr d x.store = some m') :
      d = metric ∧ m' = m := by
    obtain rfl := eq_of_keys hmetrics (mem_of_find hm')
    exact ⟨rfl, Option.some.inj (hm'.symm.trans hm)⟩
  intro k m' hm' i other hi hexp
  obtain ⟨rfl, rfl⟩ := honly hm'
  rw [hchunks] at hi ⊢
  obtain rfl := List.mem_singleton.mp (List.mem_of_getElem? hi)
  refine ⟨hremoves i, fun other hother hstays => ?_, fun p _ t _ => ⟨?_, ?_, ?_, ?_⟩⟩
  · rw [List.mem_singleton.mp hother] at hstays
    exact absurd hexp hstays
  · intro d _ name _ hr hname
    by_cases hd : d = k
    · subst hd
      have hkey := chunkRead_key hr
      rw [hfiles, List.mem_singleton] at hkey
      exact absurd hkey (hname rfl)
    · rw [hempty d hd] at hr
      cases hr
  · intro d _ p hp
    by_cases hd : d = k
    · subst hd
      rw [hwal] at hp
      exact absurd hp List.not_mem_nil
    · rw [hempty d hd] at hp
      exact absurd hp List.not_mem_nil
  · intro d _ m' hm' p hp
    obtain ⟨rfl, rfl⟩ := honly hm'
    rw [hhead] at hp
    exact absurd hp List.not_mem_nil
  · intro job hx
    rw [hjob] at hx
    cases hx

end Expire

theorem running_forgets [Zero W] [Add W] [Div W] [NatCast W] {x : Machine W}
    (h : Running dataDir WithoutCopies x) : Forgets x := by
  refine Reach.invariant Forgets ?_ ?_ h
  · rintro _ rfl
    exact forgets_start
  · rintro e x x' hx ⟨⟨hpossible, honly⟩, hrun⟩
    cases e with
    | request env metric order =>
      obtain ⟨s, hs, rfl⟩ := Option.map_eq_some_iff.mp hrun
      exact forgets_request hx hs
    | expire cfg now removes =>
      obtain rfl := Option.some.inj hrun
      exact forgets_expire hx honly
    | restart unset dirs =>
      obtain rfl := Option.some.inj hrun
      exact forgets_restart hx hpossible
    | choose now metric i =>
      dsimp only [Step.run] at hrun
      split at hrun
      · cases hrun
      · obtain rfl := Option.some.inj hrun
        exact forgets_choose hx now metric i
    | read =>
      dsimp only [Step.run] at hrun
      split at hrun
      · obtain rfl := Option.some.inj hrun
        exact forgets_read hx _
      · cases hrun
    | write io marks =>
      dsimp only [Step.run] at hrun
      split at hrun
      · rename_i hjob
        obtain rfl := Option.some.inj hrun
        exact forgets_write hx hjob io marks
      · cases hrun

end Tsdb.Expiry
