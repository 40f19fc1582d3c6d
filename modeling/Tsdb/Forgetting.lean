import Tsdb.Expiry

namespace Tsdb.Forgetting

open CStrings Head Files Registry Disk Query Aggregate Downsample Server Reads Retention Origins
  Expiry Runs

variable {W : Type} {dataDir : Text}

/-- A timestamp of a point that was made without the `PUT`, or the `-1` for none. -/
def FreeDate (past : Past W) (metric : Text) (t : Nat) (ts : Int) : Prop :=
  ts = -1 ∨ ∃ p, (metric, p) ∈ past.made ∧ p.ts = ts ∧ t ∉ p.value.origins

/-- No query on the metric finds the `PUT`. `GET` prints no value made with it, no point that
`Head_AGG` gathers for its buckets is, and the timestamps `STATS` shows are those of others. -/
structure Unseen (registryDir metric : Text) (x : Machine W) (m : MetricState (Tracked W))
    (t : Nat) : Prop where
  stored : ∀ p ∈ storedPoints m, t ∉ p.value.origins
  get : ∀ (fmt fmt' : Tracked W → Text) start stop,
    (∀ v, t ∉ v.origins → fmt v = fmt' v) →
      headGet fmt start stop metric x.store = headGet fmt' start stop metric x.store
  agg : ∀ start stop bucketSeconds points,
    aggCollect registryDir metric start stop bucketSeconds x.store m = some points →
      ∀ p ∈ points, t ∉ p.value.origins
  stats : ∃ first last, headStats metric x.store = countLines metric m ++
      (timestampLine "first".toList first ++ timestampLine "last".toList last) ∧
    FreeDate x.past metric t first ∧ FreeDate x.past metric t last

/-- As long as a chunk expires only while its file is all there is of its points, what has expired
is not seen any more by any query on the metric, whatever happens later. -/
theorem expired_unseen [Zero W] [Add W] [Div W] [NatCast W] {x : Machine W}
    (h : Running dataDir WithoutCopies x) {metric : Text} {t : Nat}
    (ht : (metric, t) ∈ x.past.expired) {m : MetricState (Tracked W)}
    (hm : hashFindStr metric x.store = some m) (registryDir : Text) :
    Unseen registryDir metric x m t := by
  have hforgets := running_forgets h
  have hmetric := (hforgets.kept metric).metric m hm
  have hstored : ∀ p ∈ storedPoints m, t ∉ p.value.origins := by
    intro p hp htp
    rcases List.mem_append.mp hp with hp | hp
    · obtain ⟨chunk, _, hp⟩ := List.mem_flatMap.mp hp
      obtain ⟨data, hread, hp⟩ := mem_chunkPoints hp
      have hfine := (hmetric.dir.files _ data hread).points p hp
      exact (hfine.2 t htp).2 metric ht (feeds_coarseDir metric)
    · exact ((hmetric.head p hp).2 t htp).2 metric ht (feeds_coarseDir metric)
  have hhead (p : Point (Tracked W)) (hp : p ∈ m.entry.head.points) :
      FreeDate x.past metric t p.ts :=
    .inr ⟨p, (hmetric.head p hp).1, rfl, hstored p (List.mem_append_right _ hp)⟩
  have hfree {ts : Int} (hdated : Dated x.past metric ts) : FreeDate x.past metric t ts := by
    obtain ⟨p, hp, hts, hnone⟩ := hdated
    exact .inr ⟨p, hp, hts, fun htp => hnone t htp ht⟩
  refine ⟨hstored, fun fmt fmt' start stop hsame => ?_,
    fun start stop bucketSeconds points hcollect p hp htp => ?_,
    overallFirst m, overallLast m, headStats_eq hm, ?_, ?_⟩
  · exact headGet_congr hm fun p hp => hsame p.value (hstored p hp)
  · rcases mem_aggCollect hcollect hp with ⟨name, data, hread, hp⟩ | hp
    · have hcoarse := (hforgets.kept (downsampleCoarseDir metric)).dir.files name data hread
      exact ((hcoarse.points p hp).2 t htp).2 metric ht (feeds_self _)
    · exact hstored p hp htp
  · rcases overallFirst_cases m with he | ⟨chunk, hc, he⟩ | ⟨p, hp, he⟩
    · exact .inl he
    · rw [he]
      exact hfree (hmetric.chunks chunk hc).1
    · rw [he]
      exact hhead p hp
  · rcases overallLast_cases m with he | ⟨chunk, hc, he⟩ | ⟨hne, he⟩
    · exact .inl he
    · rw [he]
      exact hfree (hmetric.chunks chunk hc).2
    · rw [he, hmetric.ordered.newest _ (List.getLast?_eq_some_getLast hne)]
      exact hhead _ (List.getLast_mem hne)

/-- A chunk that was never averaged has expired, and the metric has gone on. -/
theorem expired_unseen_raw : ∃ (x : Machine Int) (m : MetricState (Tracked Int)),
    hashFindStr ['m'] x.store = some m ∧ (['m'], 0) ∈ x.past.expired ∧ storedPoints m ≠ [] ∧
      Unseen ['d'] ['m'] x m 0 := by
  have hrun : ∃ x x' : Machine Int, ([.request ⟨0, .ok⟩ ['m'] (.put ⟨5, 7⟩),
        .request ⟨0, .ok⟩ ['m'] .flush] :
          List (Step Int)).foldlM (Step.run ['d']) Machine.start = some x ∧
      ([.expire [⟨['m'], 10⟩] 10000 (fun _ _ => true),
        .request ⟨0, .ok⟩ ['m'] (.put ⟨9999, 8⟩)] :
          List (Step Int)).foldlM (Step.run ['d']) x = some x' ∧
      x.job = none ∧ x.store.registry.keys = [['m']] ∧ x.store.dirs.keys = [['m']] ∧
      (x.store.dirOf ['m']).chunks.keys = [chunkName ['d'] ['m'] 5] ∧
      (x.store.dirOf ['m']).wal.getD [] = [] ∧
      (hashFindStr ['m'] x.store).map (fun m => (m.entry.chunks, m.entry.head.points.length)) =
        some ([⟨5, 5, chunkName ['d'] ['m'] 5⟩], 0) ∧
      (['m'], 0) ∈ x'.past.expired ∧
      (hashFindStr ['m'] x'.store).map (fun m => decide (storedPoints m ≠ [])) = some true := by
    refine ⟨_, _, rfl, rfl, rfl, ?_, ?_, ?_, ?_, ?_, ?_, ?_⟩
    · decide +kernel
    · decide +kernel
    · decide +kernel
    · decide +kernel
    · decide +kernel
    · exact .inr ⟨_, rfl, _, List.mem_cons_self, by decide +kernel, _, List.mem_cons_self,
        by decide +kernel⟩
    · decide +kernel
  obtain ⟨x, x', hx, hx', hjob, hmetrics, hdirs, hfiles, hwal, hentry, hexpired, hshown⟩ := hrun
  obtain ⟨m, hm, hentry⟩ := Option.map_eq_some_iff.mp hentry
  obtain ⟨hchunks, hhead⟩ := Prod.mk.inj hentry
  have honly : WithoutCopies x (.expire [⟨['m'], 10⟩] 10000 fun _ _ => true) :=
    withoutCopies_alone hm hmetrics hdirs hchunks (List.length_eq_zero_iff.mp hhead) hfiles hwal
      hjob fun _ => rfl
  have hstart : Running ['d'] WithoutCopies (Machine.start : Machine Int) := .start rfl
  have hbefore : Running ['d'] WithoutCopies x := by
    apply hstart.run _ _ hx
    exact ⟨⟨trivial, trivial⟩, fun _ _ => ⟨⟨trivial, trivial⟩, fun _ _ => trivial⟩⟩
  have hafter : Running ['d'] WithoutCopies x' := by
    apply hbefore.run _ _ hx'
    exact ⟨⟨trivial, honly⟩, fun _ _ => ⟨⟨trivial, trivial⟩, fun _ _ => trivial⟩⟩
  obtain ⟨m', hm', hshown⟩ := Option.map_eq_some_iff.mp hshown
  exact ⟨x', m', hm', hexpired, of_decide_eq_true hshown, expired_unseen hafter hexpired hm' ['d']⟩

/-- The average of a chunk is still there when the chunk has expired. -/
theorem average_outlives_chunk :
    ¬ ∀ (dataDir registryDir metric : Text) (x : Machine Int) (t : Nat)
      (m : MetricState (Tracked Int)), Running dataDir (fun _ _ => True) x →
        (metric, t) ∈ x.past.expired → hashFindStr metric x.store = some m →
          Unseen registryDir metric x m t := by
  intro hall
  have hrun : ∃ x : Machine Int, ([.request ⟨0, .ok⟩ ['m'] (.put ⟨0, 7⟩),
      .request ⟨0, .ok⟩ ['m'] .flush, .choose 10000 ['m'] 0, .read, .write .ok true] :
        List (Step Int)).foldlM (Step.run ['d']) Machine.start = some x ∧
      (hashFindStr ['m'] x.store).map (fun m => decide (∃ chunk ∈ m.entry.chunks,
        Expires [⟨['m'], 10⟩] 10000 ['m'] chunk ∧
          ∃ p ∈ chunkPoints m.dir chunk, 0 ∈ p.value.origins)) = some true ∧
      (hashFindStr ['m'] (runExpiry [⟨['m'], 10⟩] 10000 (fun _ _ => true) x.store)).map (fun m =>
        (aggCollect ['d'] ['m'] 0 3600 60
          (runExpiry [⟨['m'], 10⟩] 10000 (fun _ _ => true) x.store) m).map fun points =>
            decide (∃ p ∈ points, 0 ∈ p.value.origins)) = some (some true) := by
    refine ⟨_, rfl, ?_, ?_⟩
    · decide +kernel
    · decide +kernel
  obtain ⟨x, hx, hexpires, hgathers⟩ := hrun
  obtain ⟨m, hm, hexp⟩ := Option.map_eq_some_iff.mp hexpires
  obtain ⟨m', hm', hgathers⟩ := Option.map_eq_some_iff.mp hgathers
  obtain ⟨points, hcollect, hmade⟩ := Option.map_eq_some_iff.mp hgathers
  obtain ⟨p, hp, htp⟩ := of_decide_eq_true hmade
  have hstart : Running ['d'] (fun _ _ => True) (Machine.start : Machine Int) := .start rfl
  have hbefore : Running ['d'] (fun _ _ => True) x := by
    apply hstart.run _ _ hx
    exact ⟨⟨trivial, trivial⟩, fun _ _ => ⟨⟨trivial, trivial⟩, fun _ _ => ⟨⟨trivial, trivial⟩,
      fun _ _ => ⟨⟨trivial, trivial⟩, fun _ _ => ⟨⟨trivial, trivial⟩, fun _ _ => trivial⟩⟩⟩⟩⟩
  have hafter : Running ['d'] (fun _ _ => True)
      ⟨runExpiry [⟨['m'], 10⟩] 10000 (fun _ _ => true) x.store, x.job,
        x.past.expire (expires [⟨['m'], 10⟩] 10000 x.store)⟩ :=
    .next (.expire [⟨['m'], 10⟩] 10000 fun _ _ => true) hbefore ⟨⟨trivial, trivial⟩, rfl⟩
  have hunseen := hall ['d'] ['d'] ['m'] _ 0 m' hafter
    (.inr ⟨m, hm, of_decide_eq_true hexp⟩) hm'
  exact hunseen.agg 0 3600 60 points hcollect p hp htp

end Tsdb.Forgetting
