import Tsdb.Reads
import Tsdb.Shelves

namespace Tsdb.Keeping

open CStrings Head Files Wal Registry Sections History Service Disk ChunkNames Recovery Replay
  Loading Shutdown LoadOrder Retention Lifetime Runs Reads

variable {V : Type} {dataDir metric : Text}

/-- A directory next to everything its metric has accepted. The log is the newest part of that,
and a file that starts where the log does holds nothing else. -/
structure DirKept (dataDir metric : Text) (dir : Dir V) (accepted : List (Point V)) : Prop where
  rising : accepted.Pairwise fun p q => p.ts < q.ts
  times : ∀ p ∈ accepted, 0 ≤ p.ts ∧ p.ts < 2 ^ 32
  known : accepted ≠ [] → Loadable dataDir metric ∧ dir.present = true
  logged : dir.wal.getD [] <:+ accepted
  room : (dir.wal.getD []).length ≤ headCapacity
  files : ∀ name data, chunkRead dir name = some data →
    name = chunkName dataDir metric (chunkId data.startTs) ∧
      (∃ p ∈ accepted, p.ts = data.startTs) ∧ data.points ⊆ accepted ∧
      ∀ p ∈ data.points, data.startTs ≤ p.ts ∧ p.ts ≤ data.endTs
  again : ∀ name data, chunkRead dir name = some data → ∀ first ∈ (dir.wal.getD []).head?,
    first.ts = data.startTs → data.points ⊆ dir.wal.getD []

/-- The metric itself: its head is what is logged, and what is not in the head is in the file of
an entry whose range it is in, unless it is outdated. -/
structure MetricKept (dataDir metric : Text) (gone : Point V → Prop) (m : MetricState V)
    (accepted : List (Point V)) : Prop where
  dir : DirKept dataDir metric m.dir accepted
  head : Ordered m.entry.head
  log : m.dir.wal.getD [] = m.entry.head.points
  covered : ∀ p ∈ accepted, p ∈ m.entry.head.points ∨ gone p ∨
    ∃ chunk ∈ m.entry.chunks, p ∈ chunkPoints m.dir chunk ∧
      chunk.startTs ≤ p.ts ∧ p.ts ≤ chunk.endTs

variable {gone : Point V → Prop} {accepted : List (Point V)}

theorem dirKept_empty : DirKept dataDir metric (Dir.empty : Dir V) [] :=
  ⟨.nil, fun _ h => absurd h List.not_mem_nil, fun h => absurd rfl h, List.nil_suffix,
    Nat.zero_le _, fun _ _ h => (nomatch h), fun _ _ h => (nomatch h)⟩

theorem metricKept_new {dir : Dir V} (h : DirKept dataDir metric dir []) (unset : Int) :
    MetricKept dataDir metric gone ⟨⟨getNewHeadBlock unset, [], 4⟩, dir⟩ [] :=
  ⟨h, ordered_new unset, List.suffix_nil.mp h.logged, fun _ hp => absurd hp List.not_mem_nil⟩

theorem DirKept.put {dir : Dir V} (h : DirKept dataDir metric dir accepted) {point : Point V}
    (hload : Loadable dataDir metric) (htime : 0 ≤ point.ts ∧ point.ts < 2 ^ 32)
    (hnew : ∀ q ∈ accepted, q.ts < point.ts)
    (hroom : (dir.wal.getD []).length < headCapacity) :
    DirKept dataDir metric (walAppend dir point) (accepted ++ [point]) := by
  have hmore : accepted ⊆ accepted ++ [point] := List.subset_append_left _ _
  have hwal : (walAppend dir point).wal.getD [] = dir.wal.getD [] ++ [point] := rfl
  refine ⟨?_, ?_, fun _ => ⟨hload, rfl⟩, ?_, ?_, fun name data hr => ?_, fun name data hr => ?_⟩
  · apply List.pairwise_append.mpr ⟨h.rising, List.pairwise_singleton _ _, _⟩
    intro q hq p hp
    rw [List.mem_singleton.mp hp]
    exact hnew q hq
  · exact List.forall_mem_append.mpr ⟨h.times, List.forall_mem_singleton.mpr htime⟩
  · obtain ⟨before, hb⟩ := h.logged
    exact ⟨before, by rw [hwal, ← hb, List.append_assoc]⟩
  · rw [hwal, List.length_append, List.length_singleton]
    omega
  · obtain ⟨hname, ⟨p, hp, hstart⟩, hpoints, hend⟩ := h.files name data hr
    exact ⟨hname, ⟨p, hmore hp, hstart⟩, List.Subset.trans hpoints hmore, hend⟩
  · intro first hf hstart
    rw [hwal] at hf ⊢
    cases hlog : dir.wal.getD [] with
    | nil =>
      -- the log starts with the new point, which no file can start with
      rw [hlog] at hf
      obtain rfl := Option.some.inj hf
      obtain ⟨_, ⟨p, hp, hp'⟩, _⟩ := h.files name data hr
      have hlt := hnew p hp
      omega
    | cons q rest =>
      have hsub := h.again name data hr first (by rw [hlog] at hf ⊢; exact hf) hstart
      rw [hlog] at hsub
      exact List.Subset.trans hsub (List.subset_append_left _ _)

theorem metricKept_put {m : MetricState V} (h : MetricKept dataDir metric gone m accepted)
    {point : Point V} (hload : Loadable dataDir metric) (htime : 0 ≤ point.ts ∧ point.ts < 2 ^ 32)
    (hnew : ∀ q ∈ accepted, q.ts < point.ts) :
    MetricKept dataDir metric gone (putSection point m).2
      (if (putSection point m).1 then accepted ++ [point] else accepted) := by
  rcases putSection_cases point m with ⟨hacc, he⟩ | ⟨_, he⟩
  · rw [he]
    have hroom : (m.dir.wal.getD []).length < headCapacity := by
      rw [h.log]
      exact hacc.2
    refine ⟨h.dir.put hload htime hnew hroom, Shelves.ordered_stored h.head hacc,
      congrArg (· ++ [point]) h.log, fun p hp => ?_⟩
    rcases List.mem_append.mp hp with hp | hp
    · rcases h.covered p hp with hhead | hrest
      · exact .inl (List.mem_append_left _ hhead)
      · exact .inr hrest
    · exact .inl (List.mem_append_right _ hp)
  · rw [he]
    exact h

/-- A file under the name that a flush would open holds only what is logged. -/
theorem DirKept.same_name {dir : Dir V} (h : DirKept dataDir metric dir accepted) {first : Point V}
    (hf : first ∈ (dir.wal.getD []).head?) {data : ChunkData V}
    (hr : chunkRead dir (flushName dataDir metric first) = some data) :
    data.points ⊆ dir.wal.getD [] := by
  have hmem := h.logged.subset (List.mem_of_mem_head? hf)
  obtain ⟨hload, _⟩ := h.known (List.ne_nil_of_mem hmem)
  obtain ⟨hname, ⟨p, hp, hstart⟩, _⟩ := h.files _ data hr
  have hid := chunkName_injective hload.fits hname
  have hfirst := h.times first hmem
  have hrange := h.times p hp
  rw [← hstart] at hid
  unfold chunkId at hid
  exact h.again _ data hr first hf (by omega)

theorem DirKept.less {dir dir' : Dir V} (h : DirKept dataDir metric dir accepted)
    (hpresent : dir.present = true → dir'.present = true) (hwal : dir'.wal = dir.wal)
    (hread : ∀ name data, chunkRead dir' name = some data → chunkRead dir name = some data) :
    DirKept dataDir metric dir' accepted := by
  refine ⟨h.rising, h.times, fun hne => ?_, ?_, ?_, fun name data hr => ?_, fun name data hr => ?_⟩
  · exact ⟨(h.known hne).1, hpresent (h.known hne).2⟩
  · rw [hwal]
    exact h.logged
  · rw [hwal]
    exact h.room
  · exact h.files name data (hread name data hr)
  · rw [hwal]
    exact h.again name data (hread name data hr)

theorem DirKept.truncated {dir : Dir V} (h : DirKept dataDir metric dir accepted) :
    DirKept dataDir metric (walTruncate dir) accepted :=
  ⟨h.rising, h.times, h.known, List.nil_suffix, Nat.zero_le _, h.files,
    fun _ _ _ _ hf => (nomatch hf)⟩

theorem dirKept_failed {m : MetricState V} (h : DirKept dataDir metric m.dir accepted)
    {name : Text} {dir : Dir V} (hdir : FailedFlush name m.dir.mkdir dir) :
    DirKept dataDir metric dir accepted :=
  h.less (fun _ => hdir.present) hdir.wal fun _ _ hr => hdir.complete hr

theorem first_le {head : HeadBlock V} (h : Ordered head) {first p : Point V}
    (hf : first ∈ head.points.head?) (hp : p ∈ head.points) : first.ts ≤ p.ts :=
  (describes_head h hf []).least.2 ⟨p, hp, rfl⟩

theorem dirKept_written {m : MetricState V} (h : MetricKept dataDir metric gone m accepted)
    {first : Point V} (hf : first ∈ m.entry.head.points.head?) :
    DirKept dataDir metric (writtenHead dataDir metric m first) accepted := by
  have hlog : (writtenHead dataDir metric m first).wal.getD [] = m.entry.head.points := h.log
  have hhead : m.entry.head.points ⊆ accepted := by
    rw [← h.log]
    exact h.dir.logged.subset
  refine ⟨h.dir.rising, h.dir.times, fun hne => ⟨(h.dir.known hne).1, rfl⟩, h.dir.logged,
    h.dir.room, fun name data hr => ?_, fun name data hr first' hf' hstart => ?_⟩
  · rcases read_writtenHead hr with ⟨hname, rfl⟩ | hold
    · refine ⟨hname, ⟨first, hhead (List.mem_of_mem_head? hf), rfl⟩, hhead, fun p hp => ?_⟩
      rw [getLastD_ts h.head hf]
      exact ⟨first_le h.head hf hp, h.head.le_last hp⟩
    · exact h.dir.files name data hold
  · rcases read_writtenHead hr with ⟨_, rfl⟩ | hold
    · rw [hlog]
      exact List.Subset.refl _
    · exact h.dir.again name data hold first' hf' hstart

theorem mem_chunkPoints_frame {m : MetricState V} (h : MetricKept dataDir metric gone m accepted)
    {first : Point V} (hf : first ∈ m.entry.head.points.head?) {dir : Dir V}
    (hframe : ∀ other, other ≠ flushName dataDir metric first →
      chunkRead dir other = chunkRead m.dir other)
    {chunk : ChunkMetadata} {p : Point V} (hp : p ∈ chunkPoints m.dir chunk) :
    p ∈ m.entry.head.points ∨ p ∈ chunkPoints dir chunk := by
  by_cases hname : chunk.filename = flushName dataDir metric first
  · obtain ⟨data, hread, hdata⟩ := mem_chunkPoints hp
    rw [hname] at hread
    rw [← h.log] at hf ⊢
    exact .inl (h.dir.same_name hf hread hdata)
  · right
    rwa [chunkPoints, hframe _ hname]

theorem metricKept_failed {m : MetricState V} (h : MetricKept dataDir metric gone m accepted)
    {first : Point V} (hf : first ∈ m.entry.head.points.head?) {dir : Dir V}
    (hdir : FailedFlush (flushName dataDir metric first) m.dir.mkdir dir) :
    MetricKept dataDir metric gone ⟨m.entry, dir⟩ accepted := by
  refine ⟨dirKept_failed h.dir hdir, h.head, ?_, fun p hp => ?_⟩
  · rw [hdir.wal]
    exact h.log
  · rcases h.covered p hp with hhead | hgone | ⟨chunk, hchunk, hfile, hend⟩
    · exact .inl hhead
    · exact .inr (.inl hgone)
    · rcases mem_chunkPoints_frame h hf (fun other ho => hdir.frame ho) hfile with hhead | hfile
      · exact .inl hhead
      · exact .inr (.inr ⟨chunk, hchunk, hfile, hend⟩)

/-- The head becomes a file with an entry of its own, also where it takes an older file's place. -/
theorem metricKept_moved {m : MetricState V} (h : MetricKept dataDir metric gone m accepted)
    {first : Point V} (hf : first ∈ m.entry.head.points.head?) :
    MetricKept dataDir metric gone (moved (flushName dataDir metric first) first m) accepted := by
  have hself : chunkPoints (moved (flushName dataDir metric first) first m).dir
      ⟨first.ts, m.entry.head.lastTimestamp, flushName dataDir metric first⟩ =
        m.entry.head.points := by
    have hread : chunkRead (moved (flushName dataDir metric first) first m).dir
        (flushName dataDir metric first) = some _ := chunkRead_write_self _ _ _
    simp only [chunkPoints, hread]
    rfl
  have hnew {p : Point V} (hp : p ∈ m.entry.head.points) :
      ∃ chunk ∈ (moved (flushName dataDir metric first) first m).entry.chunks,
        p ∈ chunkPoints (moved (flushName dataDir metric first) first m).dir chunk ∧
          chunk.startTs ≤ p.ts ∧ p.ts ≤ chunk.endTs := by
    refine ⟨_, List.mem_append_right _ (List.mem_singleton_self _), ?_, first_le h.head hf hp,
      h.head.le_last hp⟩
    rwa [hself]
  refine ⟨(dirKept_written h hf).truncated, ordered_new 0, rfl, fun p hp => .inr ?_⟩
  rcases h.covered p hp with hhead | hgone | ⟨chunk, hchunk, hfile, hend⟩
  · exact .inr (hnew hhead)
  · exact .inl hgone
  · rcases mem_chunkPoints_frame h hf (fun other ho => chunkRead_moved_ne ho first m) hfile with
      hhead | hfile
    · exact .inr (hnew hhead)
    · exact .inr ⟨chunk, List.mem_append_left _ hchunk, hfile, hend⟩

theorem metricKept_flush {m : MetricState V} (h : MetricKept dataDir metric gone m accepted)
    (io : FlushIO) :
    MetricKept dataDir metric gone (flushSection dataDir metric io m).2 accepted := by
  rcases flushSection_cases dataDir metric io m with
    ⟨_, he⟩ | ⟨first, hf, ⟨_, dir, hdir, he⟩ | ⟨_, _, he⟩⟩
  · rw [he]
    exact h
  · rw [he]
    exact metricKept_failed h hf hdir
  · rw [he]
    exact metricKept_moved h hf

theorem metricKept_order {l : Ledger V}
    (h : MetricKept dataDir metric gone l.metric l.accepted) {io : FlushIO} {order : Order V}
    (hguard : ∀ point, order = .put point → Loadable dataDir metric ∧
      (0 ≤ point.ts ∧ point.ts < 2 ^ 32) ∧ ∀ q ∈ l.accepted, q.ts < point.ts) :
    MetricKept dataDir metric gone (order.run dataDir metric io l).2.metric
      (order.run dataDir metric io l).2.accepted := by
  cases order with
  | put point =>
    obtain ⟨hload, htime, hnew⟩ := hguard point rfl
    apply putLocked_invariant fun l => MetricKept dataDir metric gone l.metric l.accepted
    · exact metricKept_put h hload htime hnew
    · exact fun _ => metricKept_put (metricKept_flush h io) hload htime hnew
  | flush => exact metricKept_flush h io

theorem metricKept_expire {m : MetricState V} (h : MetricKept dataDir metric gone m accepted)
    (hdistinct : (filenames m).Nodup) {gone' : Point V → Prop} (cfg : RetentionConfig) (now : Int)
    (removes : Nat → Bool) (hgone : ∀ p, gone p → gone' p)
    (hnow : ∀ p : Point V, 0 < retentionGet cfg metric ∧ p.ts < now - retentionGet cfg metric →
      gone' p) :
    MetricKept dataDir metric gone' (expireMetric cfg now removes metric m) accepted := by
  obtain ⟨cutoff, hchunks, hsheds⟩ := expireMetric_sheds cfg now removes metric m
  refine ⟨h.dir.less (fun hp => hsheds.present.trans hp) hsheds.wal hsheds.read, ?_, ?_,
    fun p hp => ?_⟩
  · rw [hsheds.head]
    exact h.head
  · rw [hsheds.wal, hsheds.head]
    exact h.log
  · rcases h.covered p hp with hhead | hold | ⟨chunk, hchunk, hfile, hend⟩
    · rw [hsheds.head]
      exact .inl hhead
    · exact .inr (.inl (hgone p hold))
    · by_cases hexp : Expires cfg now metric chunk
      · exact .inr (.inl (hnow p ⟨hexp.1, by have := hexp.2; have := hend.2; omega⟩))
      · have hstays : chunk ∈ (expireMetric cfg now removes metric m).entry.chunks := by
          rw [(expireMetric_chunks cfg now removes metric m).1]
          exact List.mem_filter.mpr ⟨hchunk, decide_eq_true hexp⟩
        refine .inr (.inr ⟨chunk, hstays, ?_, hend⟩)
        rw [hchunks] at hstays
        have hkept := of_decide_eq_true (List.mem_filter.mp hstays).2
        rwa [chunkPoints, hsheds.frame chunk.filename fun other ho hother he => by
          obtain rfl := List.inj_on_of_nodup_map hdistinct ho hchunk he
          omega]

/-- What a start can rely on: a directory, and every point in its log or in one of its files. -/
structure DirCovers (dataDir metric : Text) (gone : Point V → Prop) (dir : Dir V)
    (accepted : List (Point V)) : Prop where
  kept : DirKept dataDir metric dir accepted
  covered : ∀ p ∈ accepted, p ∈ dir.wal.getD [] ∨ gone p ∨
    ∃ name data, chunkRead dir name = some data ∧ p ∈ data.points

theorem DirCovers.of_metric {m : MetricState V} {dir : Dir V}
    (h : MetricKept dataDir metric gone m accepted) (hkept : DirKept dataDir metric dir accepted)
    (hlog : ∀ p ∈ m.entry.head.points, p ∈ dir.wal.getD [] ∨
      ∃ name data, chunkRead dir name = some data ∧ p ∈ data.points)
    (hfile : ∀ chunk p, p ∈ chunkPoints m.dir chunk →
      p ∈ m.entry.head.points ∨ p ∈ chunkPoints dir chunk) :
    DirCovers dataDir metric gone dir accepted := by
  have hhead {p : Point V} (hp : p ∈ m.entry.head.points) : p ∈ dir.wal.getD [] ∨ gone p ∨
      ∃ name data, chunkRead dir name = some data ∧ p ∈ data.points := by
    rcases hlog p hp with hwal | hread
    · exact .inl hwal
    · exact .inr (.inr hread)
  refine ⟨hkept, fun p hp => ?_⟩
  rcases h.covered p hp with hp | hold | ⟨chunk, _, hchunk, _⟩
  · exact hhead hp
  · exact .inr (.inl hold)
  · rcases hfile chunk p hchunk with hp | hp
    · exact hhead hp
    · obtain ⟨data, hread, hdata⟩ := mem_chunkPoints hp
      exact .inr (.inr ⟨_, data, hread, hdata⟩)

/-- However a process ends, it leaves the directory alone or has come this far with the file of the
head. -/
theorem left_ways {cut : CrashPoint → Prop} {m : MetricState V} {dir : Dir V}
    (h : LeftBy dataDir metric cut m dir) :
    dir = m.dir ∨ ∃ first ∈ m.entry.head.points.head?,
      FailedFlush (flushName dataDir metric first) m.dir.mkdir dir ∨
        dir = writtenHead dataDir metric m first ∨
        dir = walTruncate (writtenHead dataDir metric m first) := by
  cases h with
  | idle => exact .inl rfl
  | stopped point _ =>
    rcases crashFlush_cases point dataDir metric m with he | ⟨first, hf, hdir | ⟨_, he⟩ | he⟩
    · exact .inl he
    · exact .inr ⟨first, hf, .inl hdir⟩
    · exact .inr ⟨first, hf, .inr (.inl he)⟩
    · exact .inr ⟨first, hf, .inr (.inr he)⟩
  | cleaned io =>
    rcases flushSection_cases dataDir metric io m with
      ⟨_, he⟩ | ⟨first, hf, ⟨_, dir, hdir, he⟩ | ⟨_, _, he⟩⟩
    · rw [he]
      exact .inl rfl
    · rw [he]
      exact .inr ⟨first, hf, .inl hdir⟩
    · rw [he]
      exact .inr ⟨first, hf, .inr (.inr rfl)⟩

theorem covers_left {m : MetricState V} (h : MetricKept dataDir metric gone m accepted)
    {cut : CrashPoint → Prop} {dir : Dir V} (hleft : LeftBy dataDir metric cut m dir) :
    DirCovers dataDir metric gone dir accepted := by
  have hframe {first : Point V} (other : Text) (ho : other ≠ flushName dataDir metric first) :
      chunkRead (writtenHead dataDir metric m first) other = chunkRead m.dir other :=
    (chunkRead_write_ne _ ho _).trans (chunkRead_open_ne m.dir.mkdir ho)
  have hlogged {p : Point V} (hp : p ∈ m.entry.head.points) : p ∈ m.dir.wal.getD [] := by
    rwa [h.log]
  rcases left_ways hleft with rfl | ⟨first, hf, hdir | rfl | rfl⟩
  · exact .of_metric h h.dir (fun p hp => .inl (hlogged hp)) fun _ _ hp => .inr hp
  · apply DirCovers.of_metric h (dirKept_failed h.dir hdir)
    · intro p hp
      rw [hdir.wal]
      exact .inl (hlogged hp)
    · exact fun chunk p hp => mem_chunkPoints_frame h hf (fun other ho => hdir.frame ho) hp
  · apply DirCovers.of_metric h (dirKept_written h hf)
    · exact fun p hp => .inl (hlogged hp)
    · exact fun chunk p hp => mem_chunkPoints_frame h hf hframe hp
  · apply DirCovers.of_metric h (dirKept_written h hf).truncated
    · intro p hp
      -- the log is gone, and the new file holds what was in it
      exact .inr ⟨_, _, chunkRead_write_self _ _ _, hp⟩
    · exact fun chunk p hp => mem_chunkPoints_frame h hf hframe hp

theorem DirCovers.relist {dir found : Dir V} (h : DirCovers dataDir metric gone dir accepted)
    (hlist : Relisted dir found) : DirCovers dataDir metric gone found accepted := by
  refine ⟨h.kept.less (fun hp => hlist.present ▸ hp) hlist.wal.symm fun name data hr => ?_,
    fun p hp => ?_⟩
  · rwa [hlist.read]
  · rw [← hlist.wal]
    rcases h.covered p hp with hlog | hgone | ⟨name, data, hread, hdata⟩
    · exact .inl hlog
    · exact .inr (.inl hgone)
    · rw [hlist.read] at hread
      exact .inr (.inr ⟨name, data, hread, hdata⟩)

theorem metricKept_loaded {dir : Dir V} (h : DirCovers dataDir metric gone dir accepted)
    {unset : Int} (hunset : ∀ p ∈ dir.wal.getD [], unset < p.ts) :
    MetricKept dataDir metric gone (loadMetric dataDir metric unset dir) accepted := by
  have hhead : (loadMetric dataDir metric unset dir).entry.head =
      (dir.wal.getD []).foldl replayRecord (getNewHeadBlock unset) :=
    (loadMetric_head dir unset).trans (CrashFiles.walReplay_eq dir _)
  have hrising : (unset :: (dir.wal.getD []).map Point.ts).IsChain (· < ·) := by
    apply List.Pairwise.isChain
    refine List.pairwise_cons.mpr ⟨fun t ht => ?_, ?_⟩
    · obtain ⟨p, hp, rfl⟩ := List.mem_map.mp ht
      exact hunset p hp
    · exact List.pairwise_map.mpr (h.kept.rising.sublist h.kept.logged.sublist)
  have hpoints : (loadMetric dataDir metric unset dir).entry.head.points = dir.wal.getD [] := by
    rw [hhead]
    exact (replay_loop _ (getNewHeadBlock unset) (by simpa [getNewHeadBlock] using h.kept.room)).mpr
      hrising
  refine ⟨h.kept, ?_, hpoints.symm, fun p hp => ?_⟩
  · rw [hhead]
    exact replay_ordered _ (ordered_new unset)
  · rw [hpoints]
    rcases h.covered p hp with hlog | hgone | ⟨name, data, hread, hdata⟩
    · exact .inl hlog
    · exact .inr (.inl hgone)
    · obtain ⟨hname, _, _, hend⟩ := h.kept.files name data hread
      obtain ⟨hload, _⟩ := h.kept.known (List.ne_nil_of_mem hp)
      have hloaded : loadedName dataDir metric name = name := by
        rw [hname]
        exact loadedName_eq _
      have hchunk : ".chunk".toList <:+: name := by
        rw [hname]
        exact chunkName_isChunk hload.fits _
      have hentry : ⟨data.startTs, data.endTs, name⟩ ∈
          (loadMetric dataDir metric unset dir).entry.chunks := by
        rw [loadMetric_chunks]
        refine List.mem_filterMap.mpr ⟨name, ?_, by rw [hread, Option.map_some, hloaded]⟩
        exact List.mem_filter.mpr ⟨chunkRead_key hread, decide_eq_true hchunk⟩
      refine .inr (.inr ⟨_, hentry, ?_, hend p hdata⟩)
      rw [chunkPoints, show chunkRead (loadMetric dataDir metric unset dir).dir name = some data
        from hread]
      exact hdata

end Tsdb.Keeping
