import Tsdb.Shelves

namespace Tsdb.Extents

open CStrings Head Files Wal Registry Sections History Service Disk Recovery Replay Loading Shutdown
  PutAnswer LoadOrder Retention Lifetime Shelves

variable {V : Type} {dataDir metric : Text}

def Leads (startTs endTs startTs' endTs' : Int) : Prop := startTs ≤ startTs' ∧ endTs ≤ endTs'

/-- The log may begin with the points of the range itself, left by a flush that was cut off before
it truncated the log; everything behind them is newer. -/
def Follows (startTs endTs : Int) (records : List (Point V)) : Prop :=
  ∃ own later, records = own ++ later ∧ own.length ≤ headCapacity ∧
    (∀ p ∈ own, startTs ≤ p.ts) ∧ (∀ last ∈ own.getLast?, endTs ≤ last.ts) ∧
    ∀ p ∈ later, endTs ≤ p.ts

theorem follows_nil (startTs endTs : Int) : Follows startTs endTs ([] : List (Point V)) :=
  ⟨[], [], rfl, Nat.zero_le _, by simp, by simp, by simp⟩

theorem Follows.put {startTs endTs : Int} {records : List (Point V)}
    (h : Follows startTs endTs records) {point : Point V} (hnew : endTs ≤ point.ts) :
    Follows startTs endTs (records ++ [point]) := by
  obtain ⟨own, later, rfl, hroom, hstart, hlast, hlater⟩ := h
  refine ⟨own, later ++ [point], by rw [List.append_assoc], hroom, hstart, hlast, fun p hp => ?_⟩
  rcases List.mem_append.mp hp with hp | hp
  · exact hlater p hp
  · rwa [List.mem_singleton.mp hp]

theorem follows_head {head : HeadBlock V} (h : Ordered head) {first : Point V}
    (hf : first ∈ head.points.head?) : Follows first.ts head.lastTimestamp head.points := by
  have hdesc := describes_head h hf []
  refine ⟨head.points, [], (List.append_nil _).symm, h.room, fun p hp => ?_, fun last hl => ?_,
    by simp⟩
  · exact hdesc.least.2 ⟨p, hp, rfl⟩
  · exact (h.newest last hl).le

/-- The head that a replay gives reaches at least to the end of what the log follows. -/
theorem Follows.replay {startTs endTs : Int} (hrange : startTs ≤ endTs) {records : List (Point V)}
    (h : Follows startTs endTs records) (unset : Int) :
    (∀ p ∈ (records.foldl replayRecord (getNewHeadBlock unset)).points, startTs ≤ p.ts) ∧
      ((records.foldl replayRecord (getNewHeadBlock unset)).points ≠ [] →
        endTs ≤ (records.foldl replayRecord (getNewHeadBlock unset)).lastTimestamp) := by
  obtain ⟨own, later, rfl, hroom, hstart, hlast, hlater⟩ := h
  refine ⟨fun p hp => ?_, ?_⟩
  · obtain ⟨kept, hkept, he⟩ := replay_appends (own ++ later) (getNewHeadBlock unset : HeadBlock V)
    rw [he] at hp
    rcases List.mem_append.mp (hkept.subset hp) with hp | hp
    · exact hstart p hp
    · exact hrange.trans (hlater p hp)
  · -- after its own points the replay has reached the end, or it has kept none of them
    have hown : (own.foldl replayRecord (getNewHeadBlock unset)).points ≠ [] →
        endTs ≤ (own.foldl replayRecord (getNewHeadBlock unset)).lastTimestamp := by
      rcases List.eq_nil_or_concat own with rfl | ⟨init, last, rfl⟩
      · exact fun hne => absurd rfl hne
      · intro _
        have hend : endTs ≤ last.ts := hlast last (by simp)
        rw [List.concat_eq_append, List.length_append, List.length_singleton] at hroom
        obtain ⟨kept, hkept, he⟩ := replay_appends init (getNewHeadBlock unset : HeadBlock V)
        have hspace : (init.foldl replayRecord (getNewHeadBlock unset)).points.length <
            headCapacity := by
          have := hkept.length_le
          rw [he]
          simp only [getNewHeadBlock, List.nil_append]
          omega
        rw [List.concat_eq_append, List.foldl_append, List.foldl_cons, List.foldl_nil]
        by_cases hold : last.ts ≤ (init.foldl replayRecord (getNewHeadBlock unset)).lastTimestamp
        · rw [replayRecord_old hold]
          exact hend.trans hold
        · rw [replayRecord_new (by omega) hspace]
          exact hend
    rw [List.foldl_append]
    apply Folds.foldl_keeps (P := fun head : HeadBlock V => head.points ≠ [] →
      endTs ≤ head.lastTimestamp)
    · intro head p hp hhead
      unfold replayRecord
      split
      · exact hhead
      · rcases putValue_cases head p with ⟨_, _, he⟩ | ⟨_, he⟩
        · rw [he]
          exact fun _ => hlater p hp
        · rw [he]
          exact hhead
    · exact hown

/-- The files of a metric, one leading the other, and all of them followed by the log. -/
structure Spans (dataDir metric : Text) (dir : Dir V) : Prop where
  filed : Filed dataDir metric dir
  follows : ∀ name data, chunkRead dir name = some data →
    Follows data.startTs data.endTs (dir.wal.getD [])
  nested : ∀ name data name' data', chunkRead dir name = some data →
    chunkRead dir name' = some data' →
    Leads data.startTs data.endTs data'.startTs data'.endTs ∨
      Leads data'.startTs data'.endTs data.startTs data.endTs

structure Extent (dataDir metric : Text) (m : MetricState V) : Prop where
  shelved : Shelved dataDir metric m
  spans : Spans dataDir metric m.dir
  start : ∀ name data, chunkRead m.dir name = some data →
    ∀ p ∈ m.entry.head.points, data.startTs ≤ p.ts
  reach : ∀ name data, chunkRead m.dir name = some data → m.entry.head.points ≠ [] →
    data.endTs ≤ m.entry.head.lastTimestamp
  chunks : m.entry.chunks.Pairwise fun c c' => Leads c.startTs c.endTs c'.startTs c'.endTs

theorem spans_empty : Spans dataDir metric (Dir.empty : Dir V) :=
  ⟨filed_empty, fun _ _ h => (nomatch h), fun _ _ _ _ h => (nomatch h)⟩

theorem Spans.mono {dir dir' : Dir V} (h : Spans dataDir metric dir)
    (hread : ∀ name data, chunkRead dir' name = some data → chunkRead dir name = some data)
    (hwal : dir'.wal.getD [] = dir.wal.getD []) : Spans dataDir metric dir' := by
  refine ⟨h.filed.mono hread, fun name data hr => ?_, fun name data name' data' hr hr' => ?_⟩
  · rw [hwal]
    exact h.follows name data (hread name data hr)
  · exact h.nested name data name' data' (hread name data hr) (hread name' data' hr')

theorem extent_new {dir : Dir V} (h : Spans dataDir metric dir) (unset : Int) :
    Extent dataDir metric ⟨⟨getNewHeadBlock unset, [], 4⟩, dir⟩ :=
  ⟨shelved_new h.filed unset, h, fun _ _ _ _ hp => absurd hp List.not_mem_nil,
    fun _ _ _ hne => absurd rfl hne, .nil⟩

theorem Filed.range {dir : Dir V} (h : Filed dataDir metric dir) {name : Text} {data : ChunkData V}
    (hr : chunkRead dir name = some data) : data.startTs ≤ data.endTs := by
  obtain ⟨_, hdesc⟩ := h name data hr
  exact hdesc.least.2 hdesc.greatest.1

theorem extent_put {m : MetricState V} (h : Extent dataDir metric m) {point : Point V}
    (hstart : m.entry.head.points = [] → ∀ name data, chunkRead m.dir name = some data →
      data.endTs ≤ point.ts) : Extent dataDir metric (putSection point m).2 := by
  have hshelved := shelved_put h.shelved point
  rcases putSection_cases point m with ⟨hacc, he⟩ | ⟨_, he⟩
  · rw [he] at hshelved ⊢
    have hnew (name : Text) (data : ChunkData V) (hr : chunkRead m.dir name = some data) :
        data.endTs ≤ point.ts := by
      by_cases hnil : m.entry.head.points = []
      · exact hstart hnil name data hr
      · exact (h.reach name data hr hnil).trans (hacc.1 (List.length_pos_iff.mpr hnil))
    refine ⟨hshelved, ⟨h.spans.filed, fun name data hr => ?_, h.spans.nested⟩,
      fun name data hr p hp => ?_, fun name data hr _ => hnew name data hr, h.chunks⟩
    · exact (h.spans.follows name data hr).put (hnew name data hr)
    · rcases List.mem_append.mp hp with hp | hp
      · exact h.start name data hr p hp
      · rw [List.mem_singleton.mp hp]
        exact (Filed.range h.spans.filed hr).trans (hnew name data hr)
  · rw [he]
    exact h

theorem read_written {m : MetricState V} (hordered : Ordered m.entry.head) {first : Point V}
    (hf : first ∈ m.entry.head.points.head?) {name : Text} {data : ChunkData V}
    (hr : chunkRead (writtenHead dataDir metric m first) name = some data) :
    (data.startTs = first.ts ∧ data.endTs = m.entry.head.lastTimestamp) ∨
      chunkRead m.dir name = some data := by
  rcases read_writtenHead hr with ⟨_, rfl⟩ | hold
  · exact .inl ⟨rfl, getLastD_ts hordered hf⟩
  · exact .inr hold

theorem leads_head {m : MetricState V} (h : Extent dataDir metric m) {first : Point V}
    (hf : first ∈ m.entry.head.points.head?) {name : Text} {data : ChunkData V}
    (hr : chunkRead m.dir name = some data) :
    Leads data.startTs data.endTs first.ts m.entry.head.lastTimestamp := by
  have hmem := List.mem_of_mem_head? hf
  exact ⟨h.start name data hr first hmem, h.reach name data hr (List.ne_nil_of_mem hmem)⟩

theorem spans_written {m : MetricState V} (h : Extent dataDir metric m) {first : Point V}
    (hf : first ∈ m.entry.head.points.head?) {dir : Dir V}
    (hread : ∀ name, chunkRead dir name = chunkRead (writtenHead dataDir metric m first) name)
    (hwal : dir.wal.getD [] = [] ∨ dir.wal.getD [] = m.dir.wal.getD [] ∧
      m.dir.wal.getD [] = m.entry.head.points) : Spans dataDir metric dir := by
  have hordered := h.shelved.ordered
  refine ⟨(filed_written h.spans.filed hordered hf).mono fun name data hr => by rwa [← hread],
    fun name data hr => ?_, fun name data name' data' hr hr' => ?_⟩
  · rw [hread] at hr
    rcases hwal with hnone | ⟨hsame, hhead⟩
    · rw [hnone]
      exact follows_nil _ _
    · rcases read_written hordered hf hr with ⟨hs, he⟩ | hold
      · rw [hsame, hhead, hs, he]
        exact follows_head hordered hf
      · rw [hsame]
        exact h.spans.follows name data hold
  · rw [hread] at hr hr'
    rcases read_written hordered hf hr with ⟨hs, he⟩ | hold
    · rcases read_written hordered hf hr' with ⟨hs', he'⟩ | hold'
      · rw [hs, he, hs', he']
        exact .inl ⟨le_rfl, le_rfl⟩
      · rw [hs, he]
        exact .inr (leads_head h hf hold')
    · rcases read_written hordered hf hr' with ⟨hs', he'⟩ | hold'
      · rw [hs', he']
        exact .inl (leads_head h hf hold)
      · exact h.spans.nested name data name' data' hold hold'

theorem extent_flush {m : MetricState V} (h : Extent dataDir metric m) {io : FlushIO}
    (hfresh : ∀ first ∈ m.entry.head.points.head?,
      flushName dataDir metric first ∉ filenames m) :
    Extent dataDir metric (flushSection dataDir metric io m).2 := by
  have hshelved := shelved_flush h.shelved io hfresh
  rcases flushSection_cases dataDir metric io m with
    ⟨_, he⟩ | ⟨first, hf, ⟨_, dir, hdir, he⟩ | ⟨_, _, he⟩⟩
  · rw [he]
    exact h
  · rw [he] at hshelved ⊢
    have hread (name : Text) (data : ChunkData V) (hr : chunkRead dir name = some data) :
        chunkRead m.dir name = some data := hdir.complete hr
    exact ⟨hshelved, h.spans.mono hread (congrArg (Option.getD · []) hdir.wal),
      fun name data hr => h.start name data (hread name data hr),
      fun name data hr => h.reach name data (hread name data hr), h.chunks⟩
  · rw [he] at hshelved ⊢
    refine ⟨hshelved, spans_written h hf (fun _ => rfl) (.inl rfl),
      fun _ _ _ _ hp => absurd hp List.not_mem_nil, fun _ _ _ hne => absurd rfl hne, ?_⟩
    apply List.pairwise_append.mpr ⟨h.chunks, List.pairwise_singleton _ _, _⟩
    intro c hc c' hc'
    rw [List.mem_singleton.mp hc']
    exact leads_head h hf (h.shelved.reads hc).1

theorem extent_putLocked {m : MetricState V} (h : Extent dataDir metric m) {io : FlushIO}
    {point : Point V} (hfresh : opensFresh dataDir metric io (.put point) m)
    (hstart : StartsHead dataDir metric io m →
      (∀ name data, chunkRead m.dir name = some data → data.endTs ≤ point.ts) ∧
        ∀ q ∈ m.entry.head.points, q.ts ≤ point.ts) :
    Extent dataDir metric (putLocked dataDir metric io point m).2 := by
  apply putLocked_keeps (Extent dataDir metric)
  · exact extent_put h fun hnil => (hstart (.inl hnil)).1
  · intro hfull
    apply extent_put (extent_flush h (hfresh hfull))
    intro hnil
    by_cases hs : FlushSucceeds dataDir metric io m
    · obtain ⟨hfiles, hpoints⟩ := hstart (.inr ⟨hfull, hs⟩)
      intro name data hr
      rcases flushSection_cases dataDir metric io m with
        ⟨_, he⟩ | ⟨first, hf, ⟨_, dir, hdir, he⟩ | ⟨_, _, he⟩⟩
      · rw [he] at hr
        exact hfiles name data hr
      · rw [he] at hr
        exact hfiles name data (hdir.complete hr)
      · rw [he] at hr
        rcases read_written h.shelved.ordered hf hr with ⟨_, hend⟩ | hold
        · have hne := List.ne_nil_of_mem (List.mem_of_mem_head? hf)
          rw [hend, h.shelved.ordered.newest _ (List.getLast?_eq_some_getLast hne)]
          exact hpoints _ (List.getLast_mem hne)
        · exact hfiles name data hold
    · rw [flushSection_keeps hs] at hnil
      rw [HeadBlock.size, hnil] at hfull
      exact absurd hfull (by simp [headCapacity])

theorem extent_expire {m : MetricState V} (h : Extent dataDir metric m) (cfg : RetentionConfig)
    (now : Int) (removes : Nat → Bool) :
    Extent dataDir metric (expireMetric cfg now removes metric m) := by
  have hshelved := shelved_expire h.shelved cfg now removes
  obtain ⟨cutoff, hchunks, hsheds⟩ := expireMetric_sheds cfg now removes metric m
  refine ⟨hshelved, h.spans.mono hsheds.read (by rw [hsheds.wal]), fun name data hr => ?_,
    fun name data hr => ?_, ?_⟩
  · rw [hsheds.head]
    exact h.start name data (hsheds.read name data hr)
  · rw [hsheds.head]
    exact h.reach name data (hsheds.read name data hr)
  · rw [hchunks]
    exact h.chunks.filter _

/-- A flush may be cut off between its chunk and the truncation of the log only where the log has
nothing but the points of the head. -/
def CutOk (m : MetricState V) (point : CrashPoint) : Prop :=
  point = .written ∨ point = .registered → m.dir.wal.getD [] = m.entry.head.points

theorem spans_left {m : MetricState V} (h : Extent dataDir metric m) {dir : Dir V}
    (hleft : LeftBy dataDir metric (CutOk m) m dir) : Spans dataDir metric dir := by
  rcases left_cases hleft with ⟨hread, hwal⟩ | ⟨first, hf, ⟨point, hcut, hp, rfl⟩ | rfl⟩
  · exact h.spans.mono hread (congrArg (Option.getD · []) hwal)
  · exact spans_written h hf (fun _ => rfl) (.inr ⟨rfl, hcut hp⟩)
  · exact spans_written h hf (fun _ => rfl) (.inl rfl)

theorem spans_found {s : Store V} {k : Text} (h : Keeps (Spans dataDir) (Extent dataDir) s k)
    {found : Dir V} (hfound : FoundBy dataDir CutOk s k found) : Spans dataDir k found := by
  apply found_keeps hfound
  · exact fun dir hlist hspans =>
      hspans.mono (fun name data hr => by rwa [hlist.read]) (by rw [hlist.wal])
  · exact fun m dir hm => spans_left (h.metric m hm)
  · exact h.dir

theorem extent_loaded {dir : Dir V} (h : Spans dataDir metric dir) (hsorted : InTimeOrder dir)
    (unset : Int) : Extent dataDir metric (loadMetric dataDir metric unset dir) := by
  have hreplay (name : Text) (data : ChunkData V) (hr : chunkRead dir name = some data) :=
    (h.follows name data hr).replay (Filed.range h.filed hr) unset
  refine ⟨shelved_loaded h.filed unset, h, fun name data hr => ?_, fun name data hr => ?_, ?_⟩
  · rw [loadMetric_head, CrashFiles.walReplay_eq]
    exact (hreplay name data hr).1
  · rw [loadMetric_head, CrashFiles.walReplay_eq]
    exact (hreplay name data hr).2
  · rw [loadMetric_chunks, loadedChunks, List.pairwise_filterMap]
    apply List.Pairwise.filter
    apply List.Pairwise.imp₂ _ hsorted dir.chunks.keys_nodup
    intro name name' hstart hne c hc c' hc'
    obtain ⟨data, hr, rfl⟩ := Option.map_eq_some_iff.mp hc
    obtain ⟨data', hr', rfl⟩ := Option.map_eq_some_iff.mp hc'
    have hle := hstart data hr data' hr'
    rcases h.nested name data name' data' hr hr' with hlead | hlead
    · exact hlead
    · -- two files that start together would have one name
      refine absurd ?_ hne
      rw [(h.filed name data hr).1, (h.filed name' data' hr').1, le_antisymm hle hlead.1]

end Tsdb.Extents
