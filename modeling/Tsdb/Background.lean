import Tsdb.Isolation
import Tsdb.Phases
import Tsdb.Retention

namespace Tsdb.Background

open CStrings Head Files Registry Sections Query Aggregate Downsample Server Service CoarseDirs
  Folds Phases Retention OwnFiles Isolation

variable {V : Type} {dataDir : Text}

section Expiry

theorem SameFiles.remove {metric : Text} {dir dir' : Dir V} (h : SameFiles dataDir metric dir dir')
    (name : Text) : SameFiles dataDir metric (removeFile dir name) (removeFile dir' name) := by
  refine ⟨h.wal, fun ts => ?_⟩
  by_cases hname : chunkName dataDir metric (chunkId ts) = name
  · rw [hname, chunkRead_remove_self, chunkRead_remove_self]
  · rw [chunkRead_remove_ne _ hname, chunkRead_remove_ne _ hname]
    exact h.read ts

theorem expireChunk_same {metric : Text} {m m' : MetricState V} (h : SameMetric dataDir metric m m')
    (removed : Bool) (i : Nat) (chunk : ChunkMetadata) :
    SameMetric dataDir metric (expireChunk removed m i chunk) (expireChunk removed m' i chunk) := by
  unfold expireChunk
  rw [h.entry]
  cases removed with
  | false => exact ⟨rfl, h.files⟩
  | true => exact ⟨rfl, SameFiles.remove h.files chunk.filename⟩

theorem expireChunk_present (removed : Bool) (m : MetricState V) (i : Nat)
    (chunk : ChunkMetadata) : (expireChunk removed m i chunk).dir.present = m.dir.present := by
  cases removed <;> rfl

theorem expireLoop_same {metric : Text} {m m' : MetricState V} (h : SameMetric dataDir metric m m')
    (cutoff : Int) (removes : Nat → Bool) (i : Nat) :
    SameMetric dataDir metric (expireLoop cutoff removes i m) (expireLoop cutoff removes i m') := by
  induction i generalizing m m' with
  | zero => exact h
  | succ i ih =>
    unfold expireLoop
    rw [← h.entry]
    cases m.entry.chunks[i]? with
    | none => exact ih h
    | some chunk =>
      dsimp only
      split
      · exact ih (expireChunk_same h (removes i) i chunk)
      · exact ih h

theorem expireMetric_present (cfg : RetentionConfig) (now : Int) (removes : Nat → Bool)
    (metric : Text) (m : MetricState V) :
    (expireMetric cfg now removes metric m).dir.present = m.dir.present := by
  have hloop (cutoff : Int) (i : Nat) :
      (expireLoop cutoff removes i m).dir.present = m.dir.present := by
    induction i generalizing m with
    | zero => rfl
    | succ i ih =>
      unfold expireLoop
      split
      · exact ih m
      · split
        · rw [ih, expireChunk_present]
        · exact ih m
  unfold expireMetric
  dsimp only
  split
  · rfl
  · exact hloop _ _

theorem expireMetric_same {metric : Text} {m m' : MetricState V}
    (h : SameMetric dataDir metric m m')
    (cfg : RetentionConfig) (now : Int) (removes : Nat → Bool) :
    SameMetric dataDir metric (expireMetric cfg now removes metric m)
      (expireMetric cfg now removes metric m') := by
  unfold expireMetric
  dsimp only
  rw [← h.entry]
  split
  · exact h
  · exact expireLoop_same h _ removes _

theorem named_expire {metric : Text} {m : MetricState V} (h : Named dataDir metric m.entry)
    (cfg : RetentionConfig) (now : Int) (removes : Nat → Bool) :
    Named dataDir metric (expireMetric cfg now removes metric m).entry := by
  obtain ⟨cutoff, hchunks, _⟩ := expireMetric_sheds cfg now removes metric m
  intro chunk hc
  rw [hchunks] at hc
  exact h chunk (List.mem_of_mem_filter hc)

end Expiry

section Presence

variable {metric : Text} {m m' : MetricState V}

structure Covers (dataDir metric : Text) (m m' : MetricState V) : Prop
    extends SameMetric dataDir metric m m' where
  present : m'.dir.present = true → m.dir.present = true

theorem chunkwrite_present (io : ChunkIO) (dir : Dir V) (name : Text) (data : ChunkData V) :
    (chunkwrite io dir name data).2.present = dir.present := by
  unfold chunkwrite
  split
  · rfl
  · cases io <;> rfl

theorem flushHead_present (io : ChunkIO) {first : Point V} {rest : List (Point V)}
    (hp : m.entry.head.points = first :: rest) :
    (flushHead dataDir metric io m).2.dir.present = true := by
  have hpresent : (chunkwrite io m.dir.mkdir (chunkName dataDir metric (chunkId first.ts))
      ⟨first.ts, ((first :: rest).getLast (by simp)).ts, first :: rest⟩).2.present = true :=
    chunkwrite_present io _ _ _
  unfold flushHead
  rw [hp]
  dsimp only
  split
  all_goals
    rename_i he
    rw [he] at hpresent
    exact hpresent

theorem Covers.flush (h : Covers dataDir metric m m') (io : ChunkIO) :
    Covers dataDir metric (flushHead dataDir metric io m).2 (flushHead dataDir metric io m').2 := by
  refine ⟨flushHead_same h.toSameMetric io, ?_⟩
  cases hp : m.entry.head.points with
  | nil =>
    have hp' := hp
    rw [h.entry] at hp'
    unfold flushHead
    rw [hp, hp']
    exact h.present
  | cons first rest => exact fun _ => flushHead_present io hp

theorem Covers.putSection (h : Covers dataDir metric m m') (point : Point V) :
    Covers dataDir metric (putSection point m).2 (putSection point m').2 := by
  refine ⟨(putSection_same h.toSameMetric point).2, ?_⟩
  unfold Registry.putSection
  rw [← h.entry]
  generalize putValue m.entry.head point = out
  obtain ⟨res, head⟩ := out
  cases res with
  | true => exact fun _ => rfl
  | false => exact h.present

theorem Covers.put (h : Covers dataDir metric m m') (io : ChunkIO) (point : Point V) :
    Covers dataDir metric (putHead dataDir metric io point m).2
      (putHead dataDir metric io point m').2 := by
  rw [putHead_eq, putHead_eq, ← h.entry]
  split
  · exact (h.flush io).putSection point
  · exact h.putSection point

theorem Covers.expire (h : Covers dataDir metric m m') (cfg : RetentionConfig) (now : Int)
    (removes : Nat → Bool) : Covers dataDir metric (expireMetric cfg now removes metric m)
      (expireMetric cfg now removes metric m') := by
  refine ⟨expireMetric_same h.toSameMetric cfg now removes, ?_⟩
  rw [expireMetric_present, expireMetric_present]
  exact h.present

end Presence

/-- Two stores with the same registry, whose directories differ in no file that the metric of that
name opens itself; in the second, directories may be missing. -/
structure Unseen (dataDir : Text) (s s' : Store V) : Prop where
  registry : s.registry = s'.registry
  files : ∀ k, SameFiles dataDir k (s.dirOf k) (s'.dirOf k)
  present : ∀ k, (s'.dirOf k).present = true → (s.dirOf k).present = true
  named : ∀ k, ∀ entry ∈ s.registry.lookup k, Named dataDir k entry

theorem unseen_empty (dataDir : Text) : Unseen dataDir (Store.empty : Store V) Store.empty :=
  ⟨rfl, fun k => .refl dataDir k _, fun _ => id, fun _ _ h => nomatch h⟩

theorem Unseen.find {s s' : Store V} (h : Unseen dataDir s s') (k : Text) :
    hashFindStr k s = none ∧ hashFindStr k s' = none ∨ ∃ m m', hashFindStr k s = some m ∧
      hashFindStr k s' = some m' ∧ Covers dataDir k m m' ∧ Named dataDir k m.entry := by
  unfold hashFindStr
  rw [← h.registry]
  cases hl : s.registry.lookup k with
  | none => exact .inl ⟨rfl, rfl⟩
  | some entry =>
    exact .inr ⟨_, _, rfl, rfl, ⟨⟨rfl, h.files k⟩, h.present k⟩, h.named k entry hl⟩

theorem Unseen.get {s s' : Store V} (h : Unseen dataDir s s') (unset : Int) (k : Text)
    (flag : Bool) :
    getMetricFromHashTable unset k flag s = none ∧ getMetricFromHashTable unset k flag s' = none ∨
      ∃ m m', getMetricFromHashTable unset k flag s = some m ∧
        getMetricFromHashTable unset k flag s' = some m' ∧ Covers dataDir k m m' ∧
        Named dataDir k m.entry := by
  unfold getMetricFromHashTable
  rcases h.find k with ⟨hf, hf'⟩ | ⟨m, m', hf, hf', hsame, hnamed⟩
  · rw [hf, hf']
    cases flag with
    | false => exact .inl ⟨rfl, rfl⟩
    | true =>
      exact .inr ⟨_, _, rfl, rfl, ⟨⟨rfl, h.files k⟩, h.present k⟩,
        fun _ hc => absurd hc List.not_mem_nil⟩
  · rw [hf, hf']
    exact .inr ⟨m, m', rfl, rfl, hsame, hnamed⟩

theorem Unseen.set {s s' : Store V} (h : Unseen dataDir s s') {k : Text} {m m' : MetricState V}
    (hsame : Covers dataDir k m m') (hnamed : Named dataDir k m.entry) :
    Unseen dataDir (s.set k m) (s'.set k m') := by
  refine ⟨?_, fun n => ?_, fun n => ?_, fun n entry hl => ?_⟩
  · unfold Store.set
    rw [h.registry, hsame.entry]
  · by_cases hn : n = k
    · rw [hn, dirOf_set, dirOf_set]
      exact hsame.files
    · rw [dirOf_set_ne s hn, dirOf_set_ne s' hn]
      exact h.files n
  · by_cases hn : n = k
    · rw [hn, dirOf_set, dirOf_set]
      exact hsame.present
    · rw [dirOf_set_ne s hn, dirOf_set_ne s' hn]
      exact h.present n
  · by_cases hn : n = k
    · subst hn
      rw [Store.set, AList.lookup_insert] at hl
      obtain rfl := Option.some.inj hl
      exact hnamed
    · rw [Store.set, AList.lookup_insert_ne hn] at hl
      exact h.named n entry hl

/-- A directory changes in one store, but in no file that its metric opens itself. -/
theorem Unseen.setDir_left {s s' : Store V} (h : Unseen dataDir s s') {name : Text} {dir : Dir V}
    (hfiles : SameFiles dataDir name dir (s.dirOf name))
    (hpresent : (s.dirOf name).present = true → dir.present = true) :
    Unseen dataDir (s.setDir name dir) s' := by
  refine ⟨h.registry, fun n => ?_, fun n hn' => ?_, h.named⟩
  · by_cases hn : n = name
    · subst hn
      rw [dirOf_setDir]
      have hold := h.files n
      exact ⟨hfiles.wal.trans hold.wal, fun ts => (hfiles.read ts).trans (hold.read ts)⟩
    · rw [dirOf_setDir_ne s hn]
      exact h.files n
  · by_cases hn : n = name
    · subst hn
      rw [dirOf_setDir]
      exact hpresent (h.present n hn')
    · rw [dirOf_setDir_ne s hn]
      exact h.present n hn'

theorem Unseen.expire {s s' : Store V} (h : Unseen dataDir s s') (cfg : RetentionConfig) (now : Int)
    (removes : Text → Nat → Bool) :
    Unseen dataDir (runExpiry cfg now removes s) (runExpiry cfg now removes s') := by
  unfold runExpiry
  rw [← h.registry]
  apply List.foldl_rel h
  intro k _ s s' hs
  unfold expireEntry
  rcases hs.find k with ⟨hf, hf'⟩ | ⟨m, m', hf, hf', hsame, hnamed⟩
  · rw [hf, hf']
    exact hs
  · rw [hf, hf']
    exact hs.set (hsame.expire cfg now (removes k))
      (named_expire hnamed cfg now (removes k))

theorem Unseen.choose {s s' : Store V} (h : Unseen dataDir s s') (now : Int) (metric : Text)
    (i : Nat) : Unseen dataDir (chooseChunk now metric i s).1 s' := by
  unfold chooseChunk
  split
  · exact h
  split
  · exact h
  dsimp only
  split
  · exact h
  split
  · exact h
  · exact h.setDir_left ⟨rfl, fun _ => rfl⟩ fun _ => rfl

section Phases

variable [Zero V] [Add V] [Div V] [NatCast V]

theorem sameFiles_writeCoarse (io : FlushIO) (metric : Text) (coarseDir : Dir V)
    (points : List (Point V)) :
    SameFiles dataDir (downsampleCoarseDir metric) (writeCoarseChunk io metric coarseDir points)
      coarseDir := by
  have hne (id : Nat) (ts : Int) :=
    (coarseName_ne_chunkName dataDir metric id (chunkId ts)).symm
  unfold writeCoarseChunk
  dsimp only
  split
  · rename_i first last _ _
    rcases flushToChunk_cases io coarseDir (coarseName metric (chunkId first.ts))
      ⟨first.ts, last.ts, coarsePoints points⟩ with ⟨_, dir', hdir, he⟩ | ⟨_, _, he⟩
    · rw [he]
      exact ⟨hdir.wal, fun ts => hdir.frame (hne _ ts)⟩
    · rw [he]
      refine ⟨rfl, fun ts => ?_⟩
      exact (chunkRead_write_ne _ (hne _ ts) _).trans (chunkRead_open_ne _ (hne _ ts))
  · exact .refl _ _ _

theorem writeCoarse_present (io : FlushIO) (metric : Text) (coarseDir : Dir V)
    (points : List (Point V)) :
    (writeCoarseChunk io metric coarseDir points).present = coarseDir.present := by
  unfold writeCoarseChunk
  dsimp only
  split
  · exact chunkwrite_present io.chunk coarseDir _ _
  · rfl

theorem Unseen.finish {s s' : Store V} (h : Unseen dataDir s s') (io : FlushIO) (marks : Bool)
    (job : Job V) : Unseen dataDir (finishJob io marks s job) s' := by
  unfold finishJob
  split
  · exact h
  · rename_i points _
    have hsame := @sameFiles_writeCoarse V dataDir _ _ _ _ io job.metric
      (s.dirOf (downsampleCoarseDir job.metric)) points
    have hpresent := writeCoarse_present io job.metric (s.dirOf (downsampleCoarseDir job.metric))
      points
    cases marks with
    | false => exact h.setDir_left hsame hpresent.ge
    | true => exact h.setDir_left ⟨hsame.wal, hsame.read⟩ hpresent.ge

end Phases

section Queries

variable {s s' : Store V}

/-- `Head_AGG` finds the metric, and the directory of its coarse files for such a query. -/
def FromCoarse (registryDir : Text) (s : Store V) (request : Request V) : Prop :=
  request.type = .agg ∧ (hashFindStr request.metric s).isSome = true ∧ registryDir ≠ [] ∧
    downsampleShouldUse s request.metric request.startTimeStamp request.endTimeStamp
      request.bucketSeconds = true

instance (registryDir : Text) (s : Store V) (request : Request V) :
    Decidable (FromCoarse registryDir s request) := inferInstanceAs (Decidable (_ ∧ _ ∧ _ ∧ _))

theorem Unseen.shouldUse (h : Unseen dataDir s s') {metric : Text} {start stop bucketSeconds : Int}
    (huse : downsampleShouldUse s' metric start stop bucketSeconds = true) :
    downsampleShouldUse s metric start stop bucketSeconds = true := by
  unfold downsampleShouldUse at huse ⊢
  simp only [Bool.and_eq_true] at huse ⊢
  exact ⟨huse.1, h.present _ huse.2⟩

theorem Unseen.headGet (h : Unseen dataDir s s') (fmt : V → Text) (start stop : Int)
    (metric : Text) : headGet fmt start stop metric s = headGet fmt start stop metric s' := by
  unfold Query.headGet
  rcases h.find metric with ⟨hf, hf'⟩ | ⟨m, m', hf, hf', hsame, hnamed⟩
  · rw [hf, hf']
  · rw [hf, hf']
    dsimp only
    rw [getMetric_same hsame.toSameMetric hnamed]

theorem Unseen.headStats (h : Unseen dataDir s s') (metric : Text) :
    headStats metric s = headStats metric s' := by
  unfold Server.headStats
  rcases h.find metric with ⟨hf, hf'⟩ | ⟨m, m', hf, hf', hsame, _⟩
  · rw [hf, hf']
  · rw [hf, hf']
    dsimp only
    rw [hsame.entry]

theorem Unseen.headPut (h : Unseen dataDir s s') (env : Env) (metric : Text) (point : Point V) :
    headPut dataDir env metric point s = none ∧ headPut dataDir env metric point s' = none ∨
      ∃ res res' t t', headPut dataDir env metric point s = some (res, t) ∧
        headPut dataDir env metric point s' = some (res', t') ∧ Unseen dataDir t t' := by
  unfold Registry.headPut
  rcases h.get env.unset metric true with ⟨hm, hm'⟩ | ⟨m, m', hm, hm', hsame, hnamed⟩
  · rw [hm, hm']
    exact .inl ⟨rfl, rfl⟩
  · rw [hm, hm']
    exact .inr ⟨_, _, _, _, rfl, rfl, h.set (hsame.put env.io.chunk point)
      (named_putHead hnamed env.io.chunk point)⟩

theorem Unseen.headFlush (h : Unseen dataDir s s') (env : Env) (metric : Text) :
    headFlush dataDir env metric s = none ∧ headFlush dataDir env metric s' = none ∨
      ∃ res res' t t', headFlush dataDir env metric s = some (res, t) ∧
        headFlush dataDir env metric s' = some (res', t') ∧ Unseen dataDir t t' := by
  unfold Registry.headFlush
  rcases h.get env.unset metric false with ⟨hm, hm'⟩ | ⟨m, m', hm, hm', hsame, hnamed⟩
  · rw [hm, hm']
    exact .inl ⟨rfl, rfl⟩
  · rw [hm, hm']
    exact .inr ⟨_, _, _, _, rfl, rfl, h.set (hsame.flush env.io.chunk)
      (named_flush hnamed env.io.chunk)⟩

end Queries

section Requests

variable [Zero V] [Add V] [Div V] [NatCast V] [LT V] [DecidableLT V] {s s' : Store V}

theorem Unseen.headAgg (h : Unseen dataDir s s') {registryDir metric : Text}
    {start stop bucketSeconds : Int}
    (hraw : (hashFindStr metric s).isSome = true → registryDir ≠ [] →
      downsampleShouldUse s metric start stop bucketSeconds = false) (func : Text) :
    headAgg registryDir metric start stop bucketSeconds func s =
      headAgg registryDir metric start stop bucketSeconds func s' := by
  unfold Downsample.headAgg
  rcases h.find metric with ⟨hf, hf'⟩ | ⟨m, m', hf, hf', hsame, hnamed⟩
  · rw [hf, hf']
  · have hnot : ¬ (registryDir ≠ [] ∧
        downsampleShouldUse s metric start stop bucketSeconds = true) := by
      rintro ⟨hdir, huse⟩
      rw [hraw (by rw [hf]; rfl) hdir] at huse
      cases huse
    have hnot' : ¬ (registryDir ≠ [] ∧
        downsampleShouldUse s' metric start stop bucketSeconds = true) :=
      fun huse => hnot ⟨huse.1, h.shouldUse huse.2⟩
    rw [hf, hf']
    dsimp only
    unfold aggCollect
    rw [if_neg hnot, if_neg hnot', collectRaw_same hsame.toSameMetric hnamed, hsame.entry]

theorem Unseen.request (h : Unseen dataDir s s') (fmts : Formats V) (registryDir : Text) (env : Env)
    (request : Request V) :
    processRequest fmts registryDir dataDir env request s = none ∧
        processRequest fmts registryDir dataDir env request s' = none ∨
      ∃ r r' t t', processRequest fmts registryDir dataDir env request s = some (r, t) ∧
        processRequest fmts registryDir dataDir env request s' = some (r', t') ∧
        Unseen dataDir t t' ∧ (¬ FromCoarse registryDir s request → r = r') := by
  unfold processRequest
  cases htype : request.type with
  | put =>
    unfold handlePut
    rcases h.headPut env request.metric ⟨request.timestamp, request.value⟩ with
      ⟨hp, hp'⟩ | ⟨res, res', t, t', hp, hp', ht⟩
    · exact .inl ⟨by rw [hp]; rfl, by rw [hp']; rfl⟩
    · exact .inr ⟨_, _, t, t', by rw [hp]; rfl, by rw [hp']; rfl, ht, fun _ => rfl⟩
  | flush =>
    unfold handleFlush
    rcases h.headFlush env request.metric with ⟨hp, hp'⟩ | ⟨res, res', t, t', hp, hp', ht⟩
    · exact .inl ⟨by rw [hp]; rfl, by rw [hp']; rfl⟩
    · exact .inr ⟨_, _, t, t', by rw [hp]; rfl, by rw [hp']; rfl, ht, fun _ => rfl⟩
  | quit => exact .inr ⟨_, _, s, s', rfl, rfl, h, fun _ => rfl⟩
  | get =>
    unfold handleGet
    rw [h.headGet]
    cases Query.headGet fmts.two request.startTimeStamp request.endTimeStamp request.metric s' with
    | none => exact .inl ⟨rfl, rfl⟩
    | some result => exact .inr ⟨_, _, s, s', rfl, rfl, h, fun _ => rfl⟩
  | stats =>
    rw [h.headStats]
    exact .inr ⟨_, _, s, s', rfl, rfl, h, fun _ => rfl⟩
  | agg =>
    refine .inr ⟨_, _, s, s', rfl, rfl, h, fun hraw => ?_⟩
    unfold handleAgg
    rw [h.headAgg fun hfound hdir => Bool.not_eq_true _ ▸ fun huse =>
      hraw ⟨htype, hfound, hdir, huse⟩]

/-- A request with its answer. `coarse` tells whether that came from coarse data. -/
structure Answered (V : Type) where
  request : Request V
  response : Response
  coarse : Bool

/-- A server with its background threads, and the answers it has given. `job` is what the
downsampling thread has at hand while it does not hold the lock of the registry. -/
structure State (V : Type) where
  store : Store V
  job : Option (Job V)
  answers : List (Answered V)

def State.start : State V := ⟨Store.empty, none, []⟩

inductive Event (V : Type) where
  | request (env : Env) (request : Request V)
  | expire (cfg : RetentionConfig) (now : Int) (removes : Text → Nat → Bool)
  | choose (now : Int) (metric : Text) (i : Nat)
  | decompress
  | finish (io : FlushIO) (marks : Bool)

/-- `none` is a crash, or a phase of the thread that is not its next one. -/
def State.run (fmts : Formats V) (registryDir dataDir : Text) (s : State V) :
    Event V → Option (State V)
  | .request env request =>
    (processRequest fmts registryDir dataDir env request s.store).map fun (response, store) =>
      { s with
        store := store
        answers := s.answers ++
          [⟨request, response, decide (FromCoarse registryDir s.store request)⟩] }
  | .expire cfg now removes => some { s with store := runExpiry cfg now removes s.store }
  | .choose now metric i =>
    if s.job.isSome then none
    else
      let (store, job) := chooseChunk now metric i s.store
      some { s with store := store, job := job }
  | .decompress => s.job.map fun job => { s with job := decompressAll s.store job }
  | .finish io marks =>
    s.job.map fun job => { s with store := finishJob io marks s.store job, job := none }

def Event.foreground : Event V → Bool
  | .request _ _ | .expire _ _ _ => true
  | .choose _ _ _ | .decompress | .finish _ _ => false

/-- The answer to a request is the same, unless the first one came from coarse data. -/
def SameAnswer (x y : Answered V) : Prop :=
  x.request = y.request ∧ (x.coarse = false → x.response = y.response)

structure Agree (dataDir : Text) (s s' : State V) : Prop where
  store : Unseen dataDir s.store s'.store
  answers : List.Forall₂ SameAnswer s.answers s'.answers

theorem agree_request {fmts : Formats V} {registryDir : Text} {s s' t : State V}
    (h : Agree dataDir s s') {env : Env} {request : Request V}
    (hrun : s.run fmts registryDir dataDir (.request env request) = some t) :
    ∃ t', s'.run fmts registryDir dataDir (.request env request) = some t' ∧
      Agree dataDir t t' := by
  obtain ⟨⟨response, store⟩, hprocess, rfl⟩ := Option.map_eq_some_iff.mp hrun
  rcases h.store.request fmts registryDir env request with
    ⟨hnone, _⟩ | ⟨r, r', u, u', hr, hr', hu, hraw⟩
  · exact nomatch hnone.symm.trans hprocess
  · obtain ⟨rfl, rfl⟩ := Prod.mk.inj (Option.some.inj (hr.symm.trans hprocess))
    refine ⟨_, by rw [State.run, hr']; rfl, hu, ?_⟩
    exact List.rel_append h.answers
      (.cons ⟨rfl, fun hcoarse => hraw (of_decide_eq_false hcoarse)⟩ .nil)

theorem agree_foreground {fmts : Formats V} {registryDir : Text} {s s' t : State V} {e : Event V}
    (he : e.foreground = true) (h : Agree dataDir s s')
    (hrun : s.run fmts registryDir dataDir e = some t) :
    ∃ t', s'.run fmts registryDir dataDir e = some t' ∧ Agree dataDir t t' := by
  cases e with
  | request env request => exact agree_request h hrun
  | expire cfg now removes =>
    obtain rfl := Option.some.inj hrun
    exact ⟨_, rfl, h.store.expire cfg now removes, h.answers⟩
  | choose | decompress | finish => cases he

theorem agree_background {fmts : Formats V} {registryDir : Text} {s s' t : State V} {e : Event V}
    (he : e.foreground = false) (h : Agree dataDir s s')
    (hrun : s.run fmts registryDir dataDir e = some t) : Agree dataDir t s' := by
  cases e with
  | request | expire => cases he
  | choose now metric i =>
    obtain ⟨_, hrun⟩ := Option.ite_none_left_eq_some.mp hrun
    obtain rfl := Option.some.inj hrun
    exact ⟨h.store.choose now metric i, h.answers⟩
  | decompress =>
    obtain ⟨job, _, rfl⟩ := Option.map_eq_some_iff.mp hrun
    exact ⟨h.store, h.answers⟩
  | finish io marks =>
    obtain ⟨job, _, rfl⟩ := Option.map_eq_some_iff.mp hrun
    exact ⟨h.store.finish io marks job, h.answers⟩

private def aggRequest : Request Nat := ⟨.agg, ['m'], 0, 0, 0, 4000, 60, "sum".toList⟩

private def phaseEvents : List (Event Nat) :=
  [.request ⟨0, .ok⟩ ⟨.put, ['m'], 5, 3, 0, 0, 0, []⟩,
    .request ⟨0, .ok⟩ ⟨.flush, ['m'], 0, 0, 0, 0, 0, []⟩, .request ⟨0, .ok⟩ aggRequest,
    .choose 9999 ['m'] 0, .request ⟨0, .ok⟩ ⟨.put, ['m'], 7, 4, 0, 0, 0, []⟩, .decompress,
    .request ⟨0, .ok⟩ aggRequest,
    .finish .ok true, .request ⟨0, .ok⟩ aggRequest]

end Requests

end Tsdb.Background
