import Tsdb.ListRoom
import Tsdb.Replies

namespace Tsdb.NotFound

open CStrings Head Files Registry Disk Query GetAnswer GetSize Aggregate Downsample Checked WalBytes
  BucketRange Server Service Outcomes ListRoom Replies Runs

variable {V : Type}

/-- A request, what `malloc` and the file operations do for it, and what the files below the data
directory hold once it is served. -/
structure Arrival (V : Type) where
  request : Request V
  unset : Int
  io : ChunkIO
  dirs : AList fun _ : Text => Dir V

section Arithmetic

variable [Zero V] [Add V] [Div V] [NatCast V] [LT V] [DecidableLT V]

/-- `ProcessRequest`. It is `none` where the request gets no reply: it reads through the null
pointer of a missing entry, writes behind the end of an allocation, or overflows an `int` or a
`long`. -/
def answer (fmts : Formats V) (registryDir dataDir : Text) (s : Store V) (x : Arrival V) :
    Option (Response × Store V) :=
  match x.request.type with
  | .put => (handleOrder dataDir x.unset x.io x.request.metric
      (.put ⟨x.request.timestamp, x.request.value⟩) s).map fun (_, s) => (⟨true, none⟩, s)
  | .quit => some (⟨false, none⟩, s)
  | .get =>
    match hashFindStr x.request.metric s with
    | none => some (⟨true, none⟩, s)
    | some m => (getInt fmts.two x.request.startTimeStamp x.request.endTimeStamp m).map
        fun (result, _) => (⟨true, some result⟩, s)
  | .stats => some (⟨true, some (headStats x.request.metric s)⟩, s)
  | .flush => (handleOrder dataDir x.unset x.io x.request.metric .flush s).map
      fun (_, s) => (⟨true, none⟩, s)
  | .agg => (handleAggInt fmts registryDir x.request s).map fun result => (⟨true, some result⟩, s)

/-- The state that the next request meets. The registry is what this one left; the files may have
any contents, as metrics can share a directory and the codec does not keep every point. -/
def serve (fmts : Formats V) (registryDir dataDir : Text) (s : Store V) (x : Arrival V) :
    Option (Store V) :=
  (answer fmts registryDir dataDir s x).map fun (_, s') => ⟨s'.registry, x.dirs⟩

def NotFoundOutcome (fmts : Formats V) (registryDir dataDir : Text) (s : Store V) (x : Arrival V) :
    Prop :=
  match x.request.type with
  | .get => answer fmts registryDir dataDir s x = some (⟨true, none⟩, s)
  | .stats => answer fmts registryDir dataDir s x =
      some (⟨true, some (("Metric not found: ".toList ++ x.request.metric ++ ['\n']).take 63)⟩, s)
  | .agg => answer fmts registryDir dataDir s x =
      some (⟨true, some (
        if x.request.bucketSeconds ≤ 0 then "ERR invalid bucket_seconds\n".toList
        else if x.request.endTimeStamp ≤ x.request.startTimeStamp then
          "ERR invalid range or bucket\n".toList
        else "(0 buckets)\n".toList)⟩, s)
  | .flush => handleOrder dataDir x.unset x.io x.request.metric .flush s = some (false, s)
  | .put => True
  | .quit => True

/-- The request reaches a reply, and a missing metric is told from others. -/
structure Survives (fmts : Formats V) (registryDir dataDir : Text) (s : Store V) (x : Arrival V) :
    Prop where
  reply : ∃ out, answer fmts registryDir dataDir s x = some out
  notFound : hashFindStr x.request.metric s = none →
    NotFoundOutcome fmts registryDir dataDir s x

end Arithmetic

/-- A `FLUSH` is of a metric that exists, a flush finds less than 2 ^ 14 chunks, the rows and the
summary of `GET` fit the buffers of `GET_value`, and the arithmetic of `AGG` stays in a `long`. -/
def Safe (fmts : Formats V) (registryDir dataDir : Text) (s : Store V) (x : Arrival V) : Prop :=
  match x.request.type with
  | .put => ∀ m ∈ getMetricFromHashTable x.unset x.request.metric true s,
      HasRoom dataDir x.request.metric x.io
        (.put ⟨x.request.timestamp, x.request.value⟩ : Order V) m
  | .flush => ∃ m, hashFindStr x.request.metric s = some m ∧
      HasRoom dataDir x.request.metric x.io (.flush : Order V) m
  | .get => ∀ m, hashFindStr x.request.metric s = some m → Roomy fmts.two
      (inRange x.request.startTimeStamp x.request.endTimeStamp m.entry.head.points)
  | .agg => QueryInside registryDir x.request.metric x.request.startTimeStamp
      x.request.endTimeStamp x.request.bucketSeconds x.request.func s
  | .stats => True
  | .quit => True

/-- The answer of a query is not too long to be counted. -/
def Few (fmts : Formats V) (registryDir : Text) (s : Store V) (request : Request V) : Prop :=
  ∀ m, hashFindStr request.metric s = some m →
    match request.type with
    | .get => ShortRows fmts.two request.startTimeStamp request.endTimeStamp m
    | .agg => FewLines request.startTimeStamp request.bucketSeconds
        (AggBuffer.pointsInRange registryDir request.metric request.startTimeStamp
          request.endTimeStamp request.bucketSeconds s m)
    | _ => True

/-- What is read from a request or from a file is of type `long`, and it is not too much. -/
structure Admits (fmts : Formats V) (registryDir : Text) (s : Store V) (x : Arrival V) : Prop where
  start : InBits 63 x.request.startTimeStamp
  files : ∀ m, hashFindStr x.request.metric s = some m →
    ∀ p ∈ m.entry.chunks.flatMap (chunkPoints m.dir), InLong p.ts
  few : Few fmts registryDir s x.request

variable {fmts : Formats V} {registryDir dataDir : Text} {s : Store V}

theorem admits_unknown {x : Arrival V} (hstart : InBits 63 x.request.startTimeStamp)
    (hnone : hashFindStr x.request.metric s = none) : Admits fmts registryDir s x := by
  refine ⟨hstart, fun m hm => ?_, fun m hm => ?_⟩
  all_goals
    rw [hnone] at hm
    cases hm

section Arithmetic

variable [Zero V] [Add V] [Div V] [NatCast V] [LT V] [DecidableLT V]

theorem serve_sized {x : Arrival V} {s' : Store V} (h : Sized s)
    (hrun : serve fmts registryDir dataDir s x = some s') : Sized s' := by
  obtain ⟨⟨response, s1⟩, hout, rfl⟩ := Option.map_eq_some_iff.mp hrun
  suffices hsame : Sized s1 from hsame
  unfold answer at hout
  split at hout
  · obtain ⟨out, horder, he⟩ := Option.map_eq_some_iff.mp hout
    obtain ⟨_, rfl⟩ := Prod.mk.inj he
    exact handleOrder_sized h horder
  · obtain ⟨_, rfl⟩ := Prod.mk.inj (Option.some.inj hout)
    exact h
  · split at hout
    · obtain ⟨_, rfl⟩ := Prod.mk.inj (Option.some.inj hout)
      exact h
    · obtain ⟨out, _, he⟩ := Option.map_eq_some_iff.mp hout
      obtain ⟨_, rfl⟩ := Prod.mk.inj he
      exact h
  · obtain ⟨_, rfl⟩ := Prod.mk.inj (Option.some.inj hout)
    exact h
  · obtain ⟨out, horder, he⟩ := Option.map_eq_some_iff.mp hout
    obtain ⟨_, rfl⟩ := Prod.mk.inj he
    exact handleOrder_sized h horder
  · obtain ⟨out, _, he⟩ := Option.map_eq_some_iff.mp hout
    obtain ⟨_, rfl⟩ := Prod.mk.inj he
    exact h

theorem map_some_iff {A B : Type} {o : Option A} (f : A → B) :
    (∃ b, o.map f = some b) ↔ ∃ a, o = some a := by
  constructor
  · rintro ⟨b, hb⟩
    obtain ⟨a, ha, _⟩ := Option.map_eq_some_iff.mp hb
    exact ⟨a, ha⟩
  · rintro ⟨a, ha⟩
    exact ⟨_, Option.map_eq_some_iff.mpr ⟨a, ha, rfl⟩⟩

theorem reply_iff (hfmt : ∀ v, (fmts.two v).length ≤ 313) (h : Sized s) {x : Arrival V}
    (hadmits : Admits fmts registryDir s x) :
    (∃ out, answer fmts registryDir dataDir s x = some out) ↔
      Safe fmts registryDir dataDir s x := by
  obtain ⟨hstart, hfiles, hfew⟩ := hadmits
  unfold Few at hfew
  unfold answer Safe
  cases htype : x.request.type with
  | quit => exact iff_of_true ⟨_, rfl⟩ trivial
  | stats => exact iff_of_true ⟨_, rfl⟩ trivial
  | put =>
    dsimp only
    rw [map_some_iff, handleOrder_iff h]
    constructor
    · rintro ⟨m, hm, hroom⟩ m' hm'
      rwa [Option.mem_unique hm' hm]
    · intro hroom
      obtain ⟨m, hm⟩ : ∃ m, getMetricFromHashTable x.unset x.request.metric true s = some m := by
        unfold getMetricFromHashTable
        cases hashFindStr x.request.metric s <;> exact ⟨_, rfl⟩
      exact ⟨m, hm, hroom m hm⟩
  | flush =>
    have hget : getMetricFromHashTable x.unset x.request.metric false s =
        hashFindStr x.request.metric s := by
      unfold getMetricFromHashTable
      cases hashFindStr x.request.metric s <;> rfl
    dsimp only
    rw [map_some_iff, handleOrder_iff h]
    change (∃ m ∈ getMetricFromHashTable x.unset x.request.metric false s, _) ↔ _
    rw [hget]
    rfl
  | get =>
    rw [htype] at hfew
    dsimp only at hfew ⊢
    cases hm : hashFindStr x.request.metric s with
    | none => exact iff_of_true ⟨_, rfl⟩ fun m h => by cases h
    | some m =>
      simp only [Option.some.injEq, forall_eq']
      rw [map_some_iff, getInt_iff (fun p hp => row_length (hfiles m hm p hp) (hfmt p.value))
        (hfew m hm)]
  | agg =>
    rw [htype] at hfew
    dsimp only at hfew ⊢
    rw [map_some_iff, handleAggInt]
    by_cases hbucket : x.request.bucketSeconds ≤ 0
    · rw [if_pos hbucket]
      exact iff_of_true ⟨_, rfl⟩ fun _ hpos => absurd hpos (not_lt.mpr hbucket)
    · rw [if_neg hbucket, ← headAggLong_iff x.request.func s hstart]
      have hout := headAggOut_eq x.request.func fmts.six hfew
      constructor
      · rintro ⟨out, hout⟩
        obtain ⟨answer, hanswer, _⟩ := Option.bind_eq_some_iff.mp hout
        exact ⟨answer, hanswer⟩
      · rintro ⟨answer, hanswer⟩
        exact ⟨_, Option.bind_eq_some_iff.mpr ⟨answer, hanswer, hout⟩⟩

/-- The reply is the one of `processRequest`, where `fclose` has what it was given. -/
theorem answer_process {x : Arrival V} {out : Response × Store V}
    (hfew : Few fmts registryDir s x.request) (hclose : x.io ≠ .closeFails)
    (h : answer fmts registryDir dataDir s x = some out) :
    processRequest fmts registryDir dataDir ⟨x.unset, told x.io⟩ x.request s = some out := by
  have htold : (told x.io).chunk = x.io := by
    cases hio : x.io with
    | closeFails => exact absurd hio hclose
    | ok | openFails | writeFails => rfl
  have hlisted {m m' m'' : MetricState V} (hm : listed m m' = some m'') : m'' = m' := by
    unfold listed at hm
    split at hm
    · cases hm
    · exact (Option.some.inj hm).symm
  unfold answer at h
  unfold processRequest
  unfold Few at hfew
  cases htype : x.request.type with
  | quit | stats =>
    rw [htype] at h
    exact h
  | put =>
    rw [htype] at h
    obtain ⟨_, hout, rfl⟩ := Option.map_eq_some_iff.mp h
    obtain ⟨m, hm, hout⟩ := Option.bind_eq_some_iff.mp hout
    obtain ⟨m', hm', rfl⟩ := Option.map_eq_some_iff.mp hout
    rw [hlisted hm']
    simp only [handlePut, headPut, show getMetricFromHashTable x.unset x.request.metric true s = some m
      from hm, putLocked, htold, Option.map_some]
    rfl
  | flush =>
    rw [htype] at h
    obtain ⟨_, hout, rfl⟩ := Option.map_eq_some_iff.mp h
    obtain ⟨m, hm, hout⟩ := Option.bind_eq_some_iff.mp hout
    obtain ⟨m', hm', rfl⟩ := Option.map_eq_some_iff.mp hout
    rw [hlisted hm']
    simp only [handleFlush, headFlush, show getMetricFromHashTable x.unset x.request.metric false s =
      some m from hm, flushSection, htold, Option.map_some]
    rfl
  | get =>
    rw [htype] at h
    dsimp only [handleGet, headGet] at h ⊢
    cases hm : hashFindStr x.request.metric s with
    | none =>
      rw [hm] at h
      exact h
    | some m =>
      rw [hm] at h
      obtain ⟨text, htext, rfl⟩ := Option.map_eq_some_iff.mp h
      dsimp only
      rw [getInt_eq htext]
      rfl
  | agg =>
    rw [htype] at h hfew
    obtain ⟨text, htext, rfl⟩ := Option.map_eq_some_iff.mp h
    dsimp only
    unfold handleAggInt at htext
    unfold handleAgg
    by_cases hbucket : x.request.bucketSeconds ≤ 0
    · rw [if_pos hbucket] at htext ⊢
      rw [← Option.some.inj htext]
    · rw [if_neg hbucket] at htext ⊢
      obtain ⟨_, _, htext⟩ := Option.bind_eq_some_iff.mp htext
      rw [headAggOut_eq x.request.func fmts.six hfew] at htext
      rw [← Option.some.inj htext]

theorem notFound_outcome {x : Arrival V} (hnone : hashFindStr x.request.metric s = none)
    (hflush : x.request.type ≠ .flush) : NotFoundOutcome fmts registryDir dataDir s x := by
  unfold NotFoundOutcome answer
  cases htype : x.request.type with
  | put => trivial
  | quit => trivial
  | flush => exact absurd htype hflush
  | get => rw [hnone]
  | stats =>
    dsimp only
    rw [headStats, hnone]
  | agg =>
    dsimp only
    unfold handleAggInt headAggLong AggBuffer.headAggOut
    by_cases hbucket : x.request.bucketSeconds ≤ 0
    · rw [if_pos hbucket, if_pos hbucket]
      rfl
    · by_cases hrange : x.request.endTimeStamp ≤ x.request.startTimeStamp
      · rw [if_neg hbucket, if_pos (.inr hrange), if_pos (.inr hrange), if_neg hbucket,
          if_pos hrange]
        rfl
      · rw [if_neg hbucket, if_neg (by omega), if_neg (by omega), if_neg hbucket, if_neg hrange,
          hnone]
        rfl

/-- In every run of requests, each one survives exactly while each one is safe. -/
theorem survives_iff {xs : List (Arrival V)} (hfmt : ∀ v, (fmts.two v).length ≤ 313)
    (hadmits : Allowed (Admits fmts registryDir) (serve fmts registryDir dataDir) xs Store.empty) :
    Allowed (Survives fmts registryDir dataDir) (serve fmts registryDir dataDir) xs Store.empty ↔
      Allowed (Safe fmts registryDir dataDir) (serve fmts registryDir dataDir) xs Store.empty := by
  have hempty : Sized (Store.empty : Store V) := fun _ _ h => by cases h
  refine allowed_iff (fun s x s' hs _ _ hrun => serve_sized hs hrun) (fun s x hs hx => ?_) hempty
    hadmits
  rw [← reply_iff hfmt hs hx]
  refine ⟨Survives.reply, fun hreply => ⟨hreply, fun hnone => notFound_outcome hnone ?_⟩⟩
  intro hflush
  obtain ⟨m, hm, _⟩ : ∃ m, hashFindStr x.request.metric s = some m ∧ _ := by
    have hsafe := (reply_iff hfmt hs hx).mp hreply
    unfold Safe at hsafe
    rwa [hflush] at hsafe
  rw [hnone] at hm
  cases hm

end Arithmetic

private def printed : Formats Nat := ⟨wholeFmt, wholeFmt⟩

private def putFive : Arrival Nat := ⟨⟨.put, ['m'], 5, 1, 0, 0, 0, []⟩, 7, .ok, ∅⟩

private def getTen : Arrival Nat := ⟨⟨.get, ['m'], 0, 0, 0, 10, 0, []⟩, 7, .ok, ∅⟩

private def afterFive : Store Nat := ⟨Store.empty.registry.insert ['m'] ⟨⟨[⟨5, 1⟩], 5⟩, [], 4⟩, ∅⟩

theorem survives_iff_two_requests :
    Allowed (Survives printed ['d'] ['d']) (serve printed ['d'] ['d']) [putFive, getTen]
      Store.empty := by
  have hserve : serve printed ['d'] ['d'] Store.empty putFive = some afterFive := rfl
  have hfind : hashFindStr ['m'] afterFive = some ⟨⟨⟨[⟨5, 1⟩], 5⟩, [], 4⟩, Dir.empty⟩ := rfl
  have hadmits : Allowed (Admits printed ['d']) (serve printed ['d'] ['d']) [putFive, getTen]
      Store.empty := by
    refine ⟨admits_unknown (by decide) rfl, fun s hs => ⟨⟨by decide, fun m hm => ?_,
      fun m hm => ?_⟩, fun _ _ => trivial⟩⟩
    all_goals
      obtain rfl := Option.mem_unique hs hserve
      obtain rfl := Option.mem_unique hm hfind
    · exact fun p hp => absurd hp List.not_mem_nil
    · exact ⟨fun _ hc => absurd hc List.not_mem_nil, by decide⟩
  have hsafe : Allowed (Safe printed ['d'] ['d']) (serve printed ['d'] ['d']) [putFive, getTen]
      Store.empty := by
    refine ⟨fun m hm => ?_, fun s hs => ⟨fun m hm => ?_, fun _ _ => trivial⟩⟩
    · obtain rfl := Option.mem_unique hm (show _ = some (⟨⟨⟨[], 7⟩, [], 4⟩, Dir.empty⟩ :
        MetricState Nat) from rfl)
      exact fun _ _ => show 0 < 2 ^ 14 by decide
    · obtain rfl := Option.mem_unique hs hserve
      obtain rfl := Option.mem_unique hm hfind
      refine ⟨by decide, fun k hk => ?_⟩
      have hpow : 1 ≤ 2 ^ k := Nat.one_le_two_pow
      have hlen : (List.flatMap (row wholeFmt) [⟨5, 1⟩]).length + (pointsLine 1).length = 18 := by
        decide
      change _ ∧ 128 * 2 ^ k ≤ (List.flatMap (row wholeFmt) [⟨5, 1⟩]).length +
        (pointsLine 1).length at hk
      omega
  exact (survives_iff wholeFmt_length hadmits).mpr hsafe

/-- `FLUSH` of a metric nobody has written to. -/
theorem flush_unknown_crashes : ¬ ∀ (fmts : Formats Nat) (registryDir dataDir : Text)
    (xs : List (Arrival Nat)), (∀ v, (fmts.two v).length ≤ 313) →
    Allowed (Admits fmts registryDir) (serve fmts registryDir dataDir) xs Store.empty →
    Allowed (Survives fmts registryDir dataDir) (serve fmts registryDir dataDir) xs
      Store.empty := by
  intro h
  have hadmits : Allowed (Admits printed ['d']) (serve printed ['d'] ['d'])
      [⟨⟨.flush, ['m'], 0, 0, 0, 0, 0, []⟩, 7, .ok, ∅⟩] Store.empty :=
    ⟨admits_unknown (by decide) rfl, fun _ _ => trivial⟩
  obtain ⟨⟨⟨out, hout⟩, _⟩, _⟩ := h printed ['d'] ['d'] _ wholeFmt_length hadmits
  cases hout

end Tsdb.NotFound
