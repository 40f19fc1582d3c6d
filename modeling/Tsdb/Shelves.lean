import Tsdb.Lifetime

namespace Tsdb.Shelves

open CStrings Head Files Wal Registry Sections History Service Disk Recovery Replay Loading Shutdown
  Folds LoadOrder Retention Lifetime

variable {V : Type} {dataDir metric : Text}

/-- Every complete chunk file of a metric is named after its start and holds what it says. -/
def Filed (dataDir metric : Text) (dir : Dir V) : Prop :=
  ∀ name data, chunkRead dir name = some data →
    name = chunkName dataDir metric (chunkId data.startTs) ∧
      Describes ⟨data.startTs, data.endTs, name⟩ data.points

structure Shelved (dataDir metric : Text) (m : MetricState V) : Prop where
  filed : Filed dataDir metric m.dir
  ordered : Ordered m.entry.head
  distinct : (filenames m).Nodup
  readable : ∀ chunk ∈ m.entry.chunks, ∃ points,
    chunkRead m.dir chunk.filename = some ⟨chunk.startTs, chunk.endTs, points⟩

theorem Filed.mono {dir dir' : Dir V} (h : Filed dataDir metric dir)
    (hread : ∀ name data, chunkRead dir' name = some data → chunkRead dir name = some data) :
    Filed dataDir metric dir' := fun name data hr => h name data (hread name data hr)

theorem filed_empty : Filed dataDir metric (Dir.empty : Dir V) := fun _ _ h => by cases h

theorem shelved_new {dir : Dir V} (h : Filed dataDir metric dir) (unset : Int) :
    Shelved dataDir metric ⟨⟨getNewHeadBlock unset, [], 4⟩, dir⟩ :=
  ⟨h, ordered_new unset, .nil, fun _ hc => absurd hc List.not_mem_nil⟩

theorem Shelved.reads {m : MetricState V} (h : Shelved dataDir metric m) {chunk : ChunkMetadata}
    (hc : chunk ∈ m.entry.chunks) :
    chunkRead m.dir chunk.filename =
        some ⟨chunk.startTs, chunk.endTs, chunkPoints m.dir chunk⟩ ∧
      Describes chunk (chunkPoints m.dir chunk) := by
  obtain ⟨points, hread⟩ := h.readable chunk hc
  have hpoints : chunkPoints m.dir chunk = points := by
    rw [chunkPoints, hread]
    rfl
  rw [hpoints]
  exact ⟨hread, (h.filed _ _ hread).2⟩

theorem ordered_stored {m : MetricState V} (h : Ordered m.entry.head) {point : Point V}
    (hacc : Accepts m.entry.head point) : Ordered (stored point m).entry.head := by
  have hput := ordered_put h point
  rcases putValue_cases m.entry.head point with ⟨_, _, he⟩ | ⟨hrej, _⟩
  · rwa [he] at hput
  · unfold Accepts at hacc
    omega

theorem shelved_put {m : MetricState V} (h : Shelved dataDir metric m) (point : Point V) :
    Shelved dataDir metric (putSection point m).2 := by
  rcases putSection_cases point m with ⟨hacc, he⟩ | ⟨_, he⟩
  · rw [he]
    exact ⟨h.filed, ordered_stored h.ordered hacc, h.distinct, h.readable⟩
  · rw [he]
    exact h

theorem filed_written {m : MetricState V} (h : Filed dataDir metric m.dir)
    (hordered : Ordered m.entry.head) {first : Point V} (hf : first ∈ m.entry.head.points.head?) :
    Filed dataDir metric (writtenHead dataDir metric m first) := by
  intro name data hr
  rcases read_writtenHead hr with ⟨hn, rfl⟩ | hold
  · rw [getLastD_ts hordered hf]
    exact ⟨hn, describes_head hordered hf name⟩
  · exact h name data hold

theorem shelved_flush {m : MetricState V} (h : Shelved dataDir metric m) (io : FlushIO)
    (hfresh : ∀ first ∈ m.entry.head.points.head?,
      flushName dataDir metric first ∉ filenames m) :
    Shelved dataDir metric (flushSection dataDir metric io m).2 := by
  have hother {first : Point V} (hf : first ∈ m.entry.head.points.head?) {chunk : ChunkMetadata}
      (hc : chunk ∈ m.entry.chunks) : chunk.filename ≠ flushName dataDir metric first :=
    fun he => hfresh first hf (he ▸ List.mem_map_of_mem hc)
  rcases flushSection_cases dataDir metric io m with
    ⟨_, he⟩ | ⟨first, hf, ⟨_, dir, hdir, he⟩ | ⟨_, _, he⟩⟩
  · rw [he]
    exact h
  · rw [he]
    refine ⟨h.filed.mono fun _ _ hr => hdir.complete hr, h.ordered, h.distinct, fun chunk hc => ?_⟩
    obtain ⟨points, hread⟩ := h.readable chunk hc
    exact ⟨points, (hdir.frame (hother hf hc)).trans hread⟩
  · rw [he]
    refine ⟨filed_written h.filed h.ordered hf, ordered_new 0, ?_, fun chunk hc => ?_⟩
    · rw [filenames_moved]
      exact nodup_concat h.distinct (hfresh first hf)
    · rcases List.mem_append.mp hc with hc | hc
      · obtain ⟨points, hread⟩ := h.readable chunk hc
        exact ⟨points, (chunkRead_moved_ne (hother hf hc) first m).trans hread⟩
      · rw [List.mem_singleton.mp hc]
        refine ⟨m.entry.head.points, (chunkRead_write_self _ _ _).trans ?_⟩
        rw [getLastD_ts h.ordered hf]

theorem shelved_order {m : MetricState V} (h : Shelved dataDir metric m) {io : FlushIO}
    {order : Order V} (hguard : opensFresh dataDir metric io order m) :
    Shelved dataDir metric (orderMetric dataDir metric io m order) := by
  cases order with
  | put point =>
    exact putLocked_keeps (Shelved dataDir metric) (shelved_put h point)
      fun hfull => shelved_put (shelved_flush h io (hguard hfull)) point
  | flush => exact shelved_flush h io (hguard trivial)

theorem shelved_expire {m : MetricState V} (h : Shelved dataDir metric m) (cfg : RetentionConfig)
    (now : Int) (removes : Nat → Bool) :
    Shelved dataDir metric (expireMetric cfg now removes metric m) := by
  obtain ⟨cutoff, hchunks, hsheds⟩ := expireMetric_sheds cfg now removes metric m
  refine ⟨h.filed.mono hsheds.read, by rw [hsheds.head]; exact h.ordered, ?_, fun chunk hc => ?_⟩
  · rw [filenames, hchunks]
    exact h.distinct.sublist (List.filter_sublist.map _)
  · rw [hchunks] at hc
    obtain ⟨hc, hkept⟩ := List.mem_filter.mp hc
    obtain ⟨points, hread⟩ := h.readable chunk hc
    refine ⟨points, (hsheds.frame _ fun other ho hexp he => ?_).trans hread⟩
    obtain rfl := List.inj_on_of_nodup_map h.distinct ho hc he
    rw [decide_eq_true_iff] at hkept
    omega

/-- Wherever the process stops, every complete file is one that holds what it says. -/
theorem filed_left {m : MetricState V} (h : Shelved dataDir metric m) {cut : CrashPoint → Prop}
    {dir : Dir V} (hleft : LeftBy dataDir metric cut m dir) : Filed dataDir metric dir := by
  rcases left_cases hleft with ⟨hread, _⟩ | ⟨first, hf, ⟨_, _, _, rfl⟩ | rfl⟩
  · exact h.filed.mono hread
  · exact filed_written h.filed h.ordered hf
  · exact filed_written h.filed h.ordered hf

theorem filed_found {s : Store V} {k : Text} {cut : MetricState V → CrashPoint → Prop}
    (h : Keeps (Filed dataDir) (Shelved dataDir) s k) {found : Dir V}
    (hfound : FoundBy dataDir cut s k found) : Filed dataDir k found := by
  apply found_keeps hfound
  · exact fun dir hlist hfiled => hfiled.mono fun name data hr => by rwa [hlist.read]
  · exact fun m dir hm => filed_left (h.metric m hm)
  · exact h.dir

theorem shelved_loaded {dir : Dir V} (h : Filed dataDir metric dir) (unset : Int) :
    Shelved dataDir metric (loadMetric dataDir metric unset dir) := by
  have hname {name : Text} {data : ChunkData V} (hr : chunkRead dir name = some data) :
      loadedName dataDir metric name = name := by
    rw [(h name data hr).1]
    exact loadedName_eq _
  refine ⟨h, ?_, ?_, fun chunk hc => ?_⟩
  · rw [loadMetric_head, CrashFiles.walReplay_eq]
    exact replay_ordered _ (ordered_new unset)
  · have hmap (names : List Text) :
        ((loadedChunks dataDir metric dir names).map ChunkMetadata.filename).Sublist names := by
      induction names with
      | nil => exact .slnil
      | cons name names ih =>
        unfold loadedChunks at ih ⊢
        cases hr : chunkRead dir name with
        | none => simpa [hr] using ih.cons name
        | some data => simpa [hr, hname hr] using ih
    rw [filenames, loadMetric_chunks]
    exact (dir.chunks.keys_nodup.filter _).sublist (hmap _)
  · rw [loadMetric_chunks] at hc
    obtain ⟨name, _, hdata⟩ := List.mem_filterMap.mp hc
    obtain ⟨data, hr, rfl⟩ := Option.map_eq_some_iff.mp hdata
    exact ⟨data.points, by rw [hname hr]; exact hr⟩

end Tsdb.Shelves
