import Tsdb.Shelves

namespace Tsdb.Contents

open CStrings Head Files Wal Registry Sections Service Recovery Replay Loading Shutdown LoadOrder
  Retention Lifetime Shelves

variable {V : Type} {dataDir metric : Text}

/-- What the points, the chunk files and the chunk entries of a metric have to be like, so that
flushing points gives such a file, and listing a file such an entry. -/
structure Rule (V : Type) where
  point : Point V → Prop
  data : ChunkData V → Prop
  entry : Int → Int → Prop
  flushed : ∀ points first, first ∈ points.head? → (∀ p ∈ points, point p) →
    data ⟨first.ts, (points.getLastD first).ts, points⟩
  listed : ∀ d, data d → entry d.startTs d.endTs

variable {c c' : Rule V}

structure Holds (c : Rule V) (dir : Dir V) : Prop where
  files : ∀ name data, chunkRead dir name = some data → c.data data
  log : ∀ p ∈ dir.wal.getD [], c.point p

structure HoldsOf (c : Rule V) (m : MetricState V) : Prop where
  dir : Holds c m.dir
  ordered : Ordered m.entry.head
  head : ∀ p ∈ m.entry.head.points, c.point p
  chunks : ∀ chunk ∈ m.entry.chunks, c.entry chunk.startTs chunk.endTs

theorem holds_empty : Holds c Dir.empty :=
  ⟨fun _ _ h => (nomatch h), fun _ h => absurd h List.not_mem_nil⟩

theorem Holds.mono {dir dir' : Dir V} (h : Holds c dir)
    (hread : ∀ name data, chunkRead dir' name = some data → chunkRead dir name = some data)
    (hwal : dir'.wal = dir.wal) : Holds c dir' := by
  refine ⟨fun name data hr => h.files name data (hread name data hr), ?_⟩
  rw [hwal]
  exact h.log

structure Rule.Weaker (c' c : Rule V) : Prop where
  point : ∀ p, c.point p → c'.point p
  data : ∀ d, c.data d → c'.data d
  entry : ∀ startTs endTs, c.entry startTs endTs → c'.entry startTs endTs

theorem Holds.weaken {dir : Dir V} (h : Holds c dir) (hle : c'.Weaker c) : Holds c' dir :=
  ⟨fun name data hr => hle.data data (h.files name data hr),
    fun p hp => hle.point p (h.log p hp)⟩

theorem HoldsOf.weaken {m : MetricState V} (h : HoldsOf c m) (hle : c'.Weaker c) : HoldsOf c' m :=
  ⟨h.dir.weaken hle, h.ordered, fun p hp => hle.point p (h.head p hp),
    fun chunk hc => hle.entry _ _ (h.chunks chunk hc)⟩

theorem holdsOf_new {dir : Dir V} (h : Holds c dir) (unset : Int) :
    HoldsOf c ⟨⟨getNewHeadBlock unset, [], 4⟩, dir⟩ :=
  ⟨h, ordered_new unset, fun _ hp => absurd hp List.not_mem_nil,
    fun _ hc => absurd hc List.not_mem_nil⟩

theorem holdsOf_put {m : MetricState V} (h : HoldsOf c m) {point : Point V}
    (hpoint : c.point point) : HoldsOf c (putSection point m).2 := by
  have hadd {points : List (Point V)} (hall : ∀ p ∈ points, c.point p) :
      ∀ p ∈ points ++ [point], c.point p :=
    List.forall_mem_append.mpr ⟨hall, List.forall_mem_singleton.mpr hpoint⟩
  rcases putSection_cases point m with ⟨hacc, he⟩ | ⟨_, he⟩
  · rw [he]
    exact ⟨⟨h.dir.files, hadd h.dir.log⟩, ordered_stored h.ordered hacc, hadd h.head, h.chunks⟩
  · rw [he]
    exact h

theorem holds_written {m : MetricState V} (h : HoldsOf c m) {first : Point V}
    (hf : first ∈ m.entry.head.points.head?) : Holds c (writtenHead dataDir metric m first) := by
  refine ⟨fun name data hr => ?_, h.dir.log⟩
  rcases read_writtenHead hr with ⟨_, rfl⟩ | hold
  · exact c.flushed _ first hf h.head
  · exact h.dir.files name data hold

theorem holds_truncated {m : MetricState V} (h : HoldsOf c m) {first : Point V}
    (hf : first ∈ m.entry.head.points.head?) :
    Holds c (walTruncate (writtenHead dataDir metric m first)) :=
  ⟨(holds_written h hf).files, fun _ hp => absurd hp List.not_mem_nil⟩

theorem holdsOf_entry {m : MetricState V} (h : HoldsOf c m) {first : Point V}
    (hf : first ∈ m.entry.head.points.head?) :
    c.entry first.ts m.entry.head.lastTimestamp := by
  have hne : m.entry.head.points ≠ [] := by
    rintro hnil
    rw [hnil] at hf
    cases hf
  have hlast := List.getLast?_eq_some_getLast hne
  have hend : (m.entry.head.points.getLastD first).ts = m.entry.head.lastTimestamp := by
    rw [List.getLastD_eq_getLast?, hlast, h.ordered.newest _ hlast]
    rfl
  rw [← hend]
  exact c.listed _ (c.flushed _ first hf h.head)

theorem holdsOf_flush {m : MetricState V} (h : HoldsOf c m) (io : FlushIO) :
    HoldsOf c (flushSection dataDir metric io m).2 := by
  rcases flushSection_cases dataDir metric io m with
    ⟨_, he⟩ | ⟨first, hf, ⟨_, dir, hdir, he⟩ | ⟨_, _, he⟩⟩
  · rw [he]
    exact h
  · rw [he]
    exact ⟨h.dir.mono (fun _ _ hr => hdir.complete hr) hdir.wal, h.ordered, h.head, h.chunks⟩
  · rw [he]
    refine ⟨holds_truncated h hf, ordered_new 0, fun _ hp => absurd hp List.not_mem_nil, ?_⟩
    exact List.forall_mem_append.mpr
      ⟨h.chunks, List.forall_mem_singleton.mpr (holdsOf_entry h hf)⟩

theorem holdsOf_order {m : MetricState V} (h : HoldsOf c m) (io : FlushIO) {order : Order V}
    (hpoint : ∀ point, order = .put point → c.point point) :
    HoldsOf c (orderMetric dataDir metric io m order) := by
  cases order with
  | put point =>
    exact putLocked_keeps (HoldsOf c) (holdsOf_put h (hpoint point rfl))
      fun _ => holdsOf_put (holdsOf_flush h io) (hpoint point rfl)
  | flush => exact holdsOf_flush h io

theorem holds_left {m : MetricState V} (h : HoldsOf c m) {cut : CrashPoint → Prop} {dir : Dir V}
    (hleft : LeftBy dataDir metric cut m dir) : Holds c dir := by
  rcases left_cases hleft with ⟨hread, hwal⟩ | ⟨first, hf, ⟨_, _, _, rfl⟩ | rfl⟩
  · exact h.dir.mono hread hwal
  · exact holds_written h hf
  · exact holds_truncated h hf

theorem holds_found {s : Store V} {k : Text} {cut : MetricState V → CrashPoint → Prop}
    (hdir : Holds c (s.dirOf k)) (hmetric : ∀ m, hashFindStr k s = some m → HoldsOf c m)
    {found : Dir V} (hfound : FoundBy dataDir cut s k found) : Holds c found := by
  apply found_keeps hfound
  · exact fun dir hlist hholds =>
      hholds.mono (fun name data hr => by rwa [hlist.read]) hlist.wal.symm
  · exact fun m dir hm => holds_left (hmetric m hm)
  · exact hdir

theorem holdsOf_loaded {dir : Dir V} (h : Holds c dir) (unset : Int) :
    HoldsOf c (loadMetric dataDir metric unset dir) := by
  refine ⟨h, ?_, fun p hp => ?_, fun chunk hc => ?_⟩
  · rw [loadMetric_head, CrashFiles.walReplay_eq]
    exact replay_ordered _ (ordered_new unset)
  · rw [loadMetric_head, CrashFiles.walReplay_eq] at hp
    obtain ⟨kept, hkept, he⟩ :=
      replay_appends (dir.wal.getD []) (getNewHeadBlock unset : HeadBlock V)
    rw [he] at hp
    exact h.log p (hkept.subset hp)
  · rw [loadMetric_chunks] at hc
    obtain ⟨name, _, hc⟩ := List.mem_filterMap.mp hc
    obtain ⟨data, hread, rfl⟩ := Option.map_eq_some_iff.mp hc
    exact c.listed data (h.files name data hread)

end Tsdb.Contents
