import Tsdb.Disk
import Tsdb.PutAnswer

namespace Tsdb.ChunkOrder

open CStrings Head Files Wal Registry Sections History Service Disk PutAnswer

variable {V : Type} {dataDir metric : Text}

/-- A range of points that were all accepted before those in the log. -/
structure Early (startTs endTs : Int) (dir : Dir V) (accepted : List (Point V)) : Prop where
  range : startTs ≤ endTs
  accepted : ∃ q ∈ accepted, endTs ≤ q.ts
  logged : ∀ p ∈ dir.wal.getD [], endTs ≤ p.ts

/-- The files of a metric in time order, next to everything it has accepted. -/
structure DirOrder (dataDir metric : Text) (dir : Dir V) (accepted : List (Point V)) : Prop where
  sorted : accepted.Pairwise (fun p q => p.ts ≤ q.ts)
  logged : dir.wal.getD [] <:+ accepted
  files : ∀ name data, chunkRead dir name = some data →
    name = chunkName dataDir metric (chunkId data.startTs) ∧
      Early data.startTs data.endTs dir accepted
  apart : ∀ name data name' data', chunkRead dir name = some data →
    chunkRead dir name' = some data' → name ≠ name' →
    data.endTs ≤ data'.startTs ∨ data'.endTs ≤ data.startTs

/-- The metric itself: while the head can check a point, it knows the newest timestamp. -/
structure MetricOrder (dataDir metric : Text) (m : MetricState V) (accepted : List (Point V)) :
    Prop where
  dir : DirOrder dataDir metric m.dir accepted
  head : Ordered m.entry.head
  points : m.entry.head.points.Sublist (m.dir.wal.getD [])
  newest : m.entry.head.points ≠ [] → m.entry.head.size < headCapacity →
    ∀ q ∈ accepted, q.ts ≤ m.entry.head.lastTimestamp
  chunks : m.entry.chunks.Pairwise (fun c c' => c.endTs ≤ c'.startTs)
  early : ∀ c ∈ m.entry.chunks, Early c.startTs c.endTs m.dir accepted

theorem metricOrder_new {dir : Dir V} {accepted : List (Point V)}
    (h : DirOrder dataDir metric dir accepted) (unset : Int) :
    MetricOrder dataDir metric ⟨⟨getNewHeadBlock unset, [], 4⟩, dir⟩ accepted :=
  ⟨h, ordered_new unset, List.nil_sublist _, fun hne => absurd rfl hne, .nil,
    fun _ hc => absurd hc List.not_mem_nil⟩

theorem Early.put {startTs endTs : Int} {dir : Dir V} {accepted : List (Point V)}
    (h : Early startTs endTs dir accepted) {point : Point V}
    (hnew : ∀ q ∈ accepted, q.ts ≤ point.ts) :
    Early startTs endTs (walAppend dir point) (accepted ++ [point]) := by
  obtain ⟨q, hq, hle⟩ := h.accepted
  refine ⟨h.range, ⟨q, List.mem_append_left _ hq, hle⟩, fun p hp => ?_⟩
  rcases List.mem_append.mp hp with hp | hp
  · exact h.logged p hp
  · rw [List.mem_singleton.mp hp]
    exact hle.trans (hnew q hq)

theorem DirOrder.put {dir : Dir V} {accepted : List (Point V)}
    (h : DirOrder dataDir metric dir accepted) {point : Point V}
    (hnew : ∀ q ∈ accepted, q.ts ≤ point.ts) :
    DirOrder dataDir metric (walAppend dir point) (accepted ++ [point]) := by
  refine ⟨?_, ?_, fun name data hread => ?_, h.apart⟩
  · apply List.pairwise_append.mpr ⟨h.sorted, List.pairwise_singleton _ _, _⟩
    intro q hq p hp
    rw [List.mem_singleton.mp hp]
    exact hnew q hq
  · obtain ⟨before, hb⟩ := h.logged
    exact ⟨before, by rw [← hb, List.append_assoc]; rfl⟩
  · obtain ⟨hname, hearly⟩ := h.files name data hread
    exact ⟨hname, hearly.put hnew⟩

/-- A point that meets an empty head has to be checked by somebody else. -/
theorem metricOrder_put {m : MetricState V} {accepted : List (Point V)}
    (h : MetricOrder dataDir metric m accepted) {point : Point V}
    (hstart : m.entry.head.points = [] → ∀ q ∈ accepted, q.ts ≤ point.ts) :
    MetricOrder dataDir metric (putSection point m).2
      (if (putSection point m).1 then accepted ++ [point] else accepted) := by
  rcases putSection_cases point m with ⟨hacc, he⟩ | ⟨_, he⟩
  · have hnew : ∀ q ∈ accepted, q.ts ≤ point.ts := by
      by_cases hnil : m.entry.head.points = []
      · exact hstart hnil
      · intro q hq
        exact (h.newest hnil hacc.2 q hq).trans (hacc.1 (List.length_pos_iff.mpr hnil))
    rw [he]
    refine ⟨h.dir.put hnew, ?_, ?_, fun _ _ q hq => ?_, h.chunks, fun c hc => (h.early c hc).put hnew⟩
    · have hordered := ordered_put h.head point
      rcases putValue_cases m.entry.head point with ⟨_, _, hv⟩ | ⟨hrej, _⟩
      · rwa [hv] at hordered
      · unfold Accepts at hacc
        omega
    · exact h.points.append (List.Sublist.refl _)
    · rcases List.mem_append.mp hq with hq | hq
      · exact hnew q hq
      · rw [List.mem_singleton.mp hq]
        exact le_rfl
  · rw [he]
    exact h

theorem Early.keep {startTs endTs : Int} {dir dir' : Dir V} {accepted : List (Point V)}
    (h : Early startTs endTs dir accepted) (hwal : dir'.wal.getD [] ⊆ dir.wal.getD []) :
    Early startTs endTs dir' accepted :=
  ⟨h.range, h.accepted, fun p hp => h.logged p (hwal hp)⟩

theorem metricOrder_failed {m : MetricState V} {accepted : List (Point V)}
    (h : MetricOrder dataDir metric m accepted) {name : Text} {dir : Dir V}
    (hdir : FailedFlush name m.dir.mkdir dir) :
    MetricOrder dataDir metric ⟨m.entry, dir⟩ accepted := by
  have hwal : dir.wal = m.dir.wal := hdir.wal
  have hkeep {startTs endTs : Int} (hearly : Early startTs endTs m.dir accepted) :
      Early startTs endTs dir accepted := hearly.keep (by rw [hwal]; exact fun _ => id)
  refine ⟨⟨h.dir.sorted, ?_, fun name data hread => ?_, fun name data name' data' hr hr' => ?_⟩,
    h.head, ?_, h.newest, h.chunks, fun c hc => hkeep (h.early c hc)⟩
  · rw [hwal]
    exact h.dir.logged
  · obtain ⟨hname, hearly⟩ := h.dir.files name data (hdir.complete hread)
    exact ⟨hname, hkeep hearly⟩
  · exact h.dir.apart name data name' data' (hdir.complete hr) (hdir.complete hr')
  · rw [hwal]
    exact h.points

theorem early_moved {m : MetricState V} {accepted : List (Point V)}
    (h : MetricOrder dataDir metric m accepted) {first : Point V}
    (hf : first ∈ m.entry.head.points.head?) :
    Early first.ts m.entry.head.lastTimestamp
      (moved (flushName dataDir metric first) first m).dir accepted := by
  have hmem := List.mem_of_mem_head? hf
  have hne := List.ne_nil_of_mem hmem
  refine ⟨h.head.le_last hmem, ⟨m.entry.head.points.getLast hne, ?_, ?_⟩, fun p hp => ?_⟩
  · exact h.dir.logged.subset (h.points.subset (List.getLast_mem hne))
  · exact (h.head.newest _ (List.getLast?_eq_some_getLast hne)).le
  · cases hp

theorem read_moved {m : MetricState V} {first : Point V} (hordered : Ordered m.entry.head)
    (hf : first ∈ m.entry.head.points.head?) {name : Text} {data : ChunkData V}
    (hr : chunkRead (moved (flushName dataDir metric first) first m).dir name = some data) :
    (name = flushName dataDir metric first ∧ data.startTs = first.ts ∧
      data.endTs = m.entry.head.lastTimestamp) ∨
    (name ≠ flushName dataDir metric first ∧ chunkRead m.dir name = some data) := by
  by_cases hn : name = flushName dataDir metric first
  · subst hn
    have hself : chunkRead (moved (flushName dataDir metric first) first m).dir
        (flushName dataDir metric first) = some _ := chunkRead_write_self _ _ _
    rw [hself] at hr
    obtain rfl := Option.some.inj hr
    exact .inl ⟨rfl, rfl, getLastD_ts hordered hf⟩
  · rw [chunkRead_moved_ne hn] at hr
    exact .inr ⟨hn, hr⟩

/-- The points of the head are newer than all that is on disk, so their chunk comes last, whatever
of it has got into the file. -/
theorem metricOrder_emptied {m : MetricState V} {accepted : List (Point V)}
    (h : MetricOrder dataDir metric m accepted) {first : Point V}
    (hf : first ∈ m.entry.head.points.head?) {dir : Dir V} (hwal : dir.wal.getD [] = [])
    (hreads : ∀ name data, chunkRead dir name = some data →
      (name = flushName dataDir metric first ∧ data.startTs = first.ts ∧
        data.endTs = m.entry.head.lastTimestamp) ∨
      (name ≠ flushName dataDir metric first ∧ chunkRead m.dir name = some data)) :
    MetricOrder dataDir metric ⟨(moved (flushName dataDir metric first) first m).entry, dir⟩
      accepted := by
  have hlogged := h.points.subset (List.mem_of_mem_head? hf)
  have hkeep {startTs endTs : Int} {dir' : Dir V} (hearly : Early startTs endTs dir' accepted) :
      Early startTs endTs dir accepted := hearly.keep (by rw [hwal]; exact List.nil_subset _)
  have hnew := hkeep (early_moved h hf)
  refine ⟨⟨h.dir.sorted, by rw [hwal]; exact List.nil_suffix, ?_, ?_⟩, ordered_new 0,
    List.nil_sublist _, fun hne => absurd rfl hne, ?_, ?_⟩
  · intro name data hr
    rcases hreads name data hr with ⟨hname, hstart, hend⟩ | ⟨_, hold⟩
    · rw [hstart, hend]
      exact ⟨hname, hnew⟩
    · obtain ⟨hname, hearly⟩ := h.dir.files name data hold
      exact ⟨hname, hkeep hearly⟩
  · intro name data name' data' hr hr' hnames
    rcases hreads name data hr with ⟨hname, hstart, hend⟩ | ⟨_, hold⟩
    · rcases hreads name' data' hr' with ⟨hname', _, _⟩ | ⟨_, hold'⟩
      · exact absurd (hname.trans hname'.symm) hnames
      · rw [hstart]
        exact .inr ((h.dir.files name' data' hold').2.logged first hlogged)
    · rcases hreads name' data' hr' with ⟨_, hstart, _⟩ | ⟨_, hold'⟩
      · rw [hstart]
        exact .inl ((h.dir.files name data hold).2.logged first hlogged)
      · exact h.dir.apart name data name' data' hold hold' hnames
  · apply List.pairwise_append.mpr ⟨h.chunks, List.pairwise_singleton _ _, _⟩
    intro c hc c' hc'
    rw [List.mem_singleton.mp hc']
    exact (h.early c hc).logged first hlogged
  · intro c hc
    rcases List.mem_append.mp hc with hc | hc
    · exact hkeep (h.early c hc)
    · rw [List.mem_singleton.mp hc]
      exact hnew

theorem metricOrder_flush {m : MetricState V} {accepted : List (Point V)}
    (h : MetricOrder dataDir metric m accepted) (io : FlushIO) :
    MetricOrder dataDir metric (flushSection dataDir metric io m).2 accepted := by
  rcases flushSection_cases dataDir metric io m with
    ⟨_, he⟩ | ⟨first, hf, ⟨_, dir, hdir, he⟩ | ⟨_, _, he⟩⟩
  · rw [he]
    exact h
  · rw [he]
    exact metricOrder_failed h hdir
  · rw [he]
    exact metricOrder_emptied h hf rfl fun name data hr => read_moved h.head hf hr

/-- The chunk whose `fclose` failed is in the list, with nothing in its file. -/
theorem metricOrder_unclosed {m : MetricState V} {accepted : List (Point V)}
    (h : MetricOrder dataDir metric m accepted) :
    MetricOrder dataDir metric (flushHead dataDir metric .closeFails m).2 accepted := by
  unfold flushHead chunkwrite
  split
  · exact h
  · rename_i first rest hp
    have hf : first ∈ m.entry.head.points.head? := by
      rw [hp]
      rfl
    dsimp only
    split
    case h_1 hfail =>
      split at hfail
      case isTrue =>
        obtain ⟨_, rfl⟩ := Prod.mk.inj hfail
        exact @metricOrder_failed V dataDir metric m accepted h
          (flushName dataDir metric first) _ (.inl rfl)
      case isFalse => cases hfail
    case h_2 hsaid =>
      split at hsaid
      case isTrue => cases hsaid
      case isFalse =>
        obtain ⟨_, rfl⟩ := Prod.mk.inj hsaid
        refine metricOrder_emptied h hf rfl fun name data hr => .inr ?_
        by_cases hn : name = flushName dataDir metric first
        · subst hn
          simp [chunkRead, walTruncate, fopenWb, flushName] at hr
        · exact ⟨hn, (chunkRead_open_ne _ hn).symm.trans hr⟩

theorem metricOrder_flushHead {m : MetricState V} {accepted : List (Point V)}
    (h : MetricOrder dataDir metric m accepted) (io : ChunkIO) :
    MetricOrder dataDir metric (flushHead dataDir metric io m).2 accepted := by
  cases io with
  | ok => exact metricOrder_flush h .ok
  | openFails => exact metricOrder_flush h .openFails
  | writeFails => exact metricOrder_flush h .writeFails
  | closeFails => exact metricOrder_unclosed h

end Tsdb.ChunkOrder
