import Tsdb.Disk

namespace Tsdb.ChunkNames

open CStrings Head Files Registry Sections History Service Disk

variable {V : Type}

/-- A path that `snprintf` does not cut short, whatever the id. -/
def PathFits (dataDir metric : Text) : Prop := dataDir.length + 2 * metric.length + 19 ≤ 255

theorem chunkId_lt (ts : Int) : chunkId ts < 10 ^ 10 := by
  unfold chunkId
  omega

theorem chunkName_eq {dataDir metric : Text} (h : PathFits dataDir metric) (ts : Int) :
    chunkName dataDir metric (chunkId ts) =
      metric ++ '_' :: (decimal (chunkId ts) ++ ".chunk".toList) := by
  have hlen := decimal_length (by decide) (chunkId_lt ts)
  have hext : ".chunk".toList.length = 6 := by decide
  unfold PathFits at h
  refine List.take_of_length_le ?_
  simp only [List.length_append, List.length_cons, hext]
  omega

theorem chunkName_ne_nil {dataDir metric : Text} (h : PathFits dataDir metric) (ts : Int) :
    chunkName dataDir metric (chunkId ts) ≠ [] := by
  rw [chunkName_eq h]
  simp

theorem chunkName_injective {dataDir metric : Text} (h : PathFits dataDir metric) {a b : Int}
    (he : chunkName dataDir metric (chunkId a) = chunkName dataDir metric (chunkId b)) :
    chunkId a = chunkId b := by
  rw [chunkName_eq h, chunkName_eq h, List.append_cancel_left_eq, List.cons_inj_right,
    List.append_cancel_right_eq] at he
  exact decimal_injective he

def Order.starts (io : FlushIO) (m : MetricState V) : Order V → Option (Point V)
  | .put point =>
    if m.entry.head.points = [] ∨ headCapacity ≤ m.entry.head.size ∧ io = .ok then some point
    else none
  | .flush => none

def earlierStarts (m : MetricState V) : List Int :=
  m.entry.chunks.map ChunkMetadata.startTs ++ (m.entry.head.points.head?.map Point.ts).toList

/-- Metrics have directories of their own, paths fit, and a new head starts at no timestamp that
equals an earlier start mod `2 ^ 32`. -/
def freshStarts (dataDir : Text) : Guard V := fun metric io order m =>
  EntryName metric ∧ PathFits dataDir metric ∧
    ∀ point ∈ Order.starts io m order, chunkId point.ts ∉ (earlierStarts m).map chunkId

instance (dataDir metric : Text) (io : FlushIO) (order : Order V) (m : MetricState V) :
    Decidable (freshStarts dataDir metric io order m) :=
  inferInstanceAs (Decidable (EntryName metric ∧ dataDir.length + 2 * metric.length + 19 ≤ 255 ∧
    ∀ point ∈ Order.starts io m order, chunkId point.ts ∉ (earlierStarts m).map chunkId))

structure FreshIds (dataDir metric : Text) (m : MetricState V) : Prop where
  fits : m.entry.head.points ≠ [] → PathFits dataDir metric
  distinct : ((earlierStarts m).map chunkId).Nodup

theorem FreshIds.unopened {dataDir metric : Text} {m : MetricState V}
    (h : FreshIds dataDir metric m) (hnamed : ∀ chunk ∈ m.entry.chunks,
      chunk.filename = chunkName dataDir metric (chunkId chunk.startTs)) :
    ∀ first ∈ m.entry.head.points.head?, flushName dataDir metric first ∉ filenames m := by
  intro first hf hmem
  have hfits := h.fits (List.ne_nil_of_mem (List.mem_of_mem_head? hf))
  obtain ⟨chunk, hchunk, hname⟩ := List.mem_map.mp hmem
  have hid := chunkName_injective hfits ((hnamed chunk hchunk).symm.trans hname)
  have hd := h.distinct
  rw [earlierStarts, List.map_append, hf] at hd
  refine (List.nodup_append.mp hd).2.2 (chunkId chunk.startTs) ?_ (chunkId first.ts) (by simp) hid
  exact List.mem_map_of_mem (List.mem_map_of_mem hchunk)

theorem earlierStarts_flush (dataDir metric : Text) (io : FlushIO) (m : MetricState V) :
    earlierStarts (flushSection dataDir metric io m).2 = earlierStarts m := by
  rcases flushSection_cases dataDir metric io m with
    ⟨_, he⟩ | ⟨first, hf, ⟨_, dir, _, he⟩ | ⟨_, _, he⟩⟩
  · rw [he]
  · rw [he]
    rfl
  · rw [he, earlierStarts, earlierStarts, hf]
    simp [moved, addChunk]

theorem freshIds_put {dataDir metric : Text} {m : MetricState V} (h : FreshIds dataDir metric m)
    (hfits : PathFits dataDir metric) (point : Point V) (hstart : m.entry.head.points = [] →
      chunkId point.ts ∉ (earlierStarts m).map chunkId) :
    FreshIds dataDir metric (putSection point m).2 := by
  rcases putSection_cases point m with ⟨_, he⟩ | ⟨_, he⟩
  · rw [he]
    refine ⟨fun _ => hfits, ?_⟩
    have hd := h.distinct
    cases hp : m.entry.head.points with
    | nil =>
      have hs := hstart hp
      simp only [earlierStarts, hp, List.head?_nil, Option.map_none, Option.toList_none,
        List.append_nil] at hd hs
      simp only [earlierStarts, stored, hp, List.nil_append, List.head?_cons, Option.map_some,
        Option.toList_some, List.map_append, List.map_cons, List.map_nil]
      exact nodup_concat hd hs
    | cons first rest => simpa [earlierStarts, stored, hp] using hd
  · rw [he]
    exact h

theorem freshIds_flush {dataDir metric : Text} {m : MetricState V}
    (h : FreshIds dataDir metric m) (io : FlushIO) :
    FreshIds dataDir metric (flushSection dataDir metric io m).2 := by
  refine ⟨fun hne => ?_, ?_⟩
  · rcases flushSection_cases dataDir metric io m with
      ⟨_, he⟩ | ⟨first, hf, ⟨_, dir, _, he⟩ | ⟨_, _, he⟩⟩
    · rw [he] at hne
      exact h.fits hne
    · rw [he] at hne
      exact h.fits hne
    · rw [he] at hne
      exact absurd rfl hne
  · rw [earlierStarts_flush]
    exact h.distinct

/-- A full head can only be empty after a flush that went well. -/
theorem emptied_ok {dataDir metric : Text} {io : FlushIO} {m : MetricState V}
    (hfull : headCapacity ≤ m.entry.head.size)
    (h : (flushSection dataDir metric io m).2.entry.head.points = []) : io = .ok := by
  have hne : m.entry.head.points ≠ [] := by
    rintro hnil
    simp [HeadBlock.size, hnil, headCapacity] at hfull
  rcases flushSection_cases dataDir metric io m with
    ⟨hnil, _⟩ | ⟨first, _, ⟨_, dir, _, he⟩ | ⟨hio, _, _⟩⟩
  · exact absurd hnil hne
  · rw [he] at h
    exact absurd h hne
  · exact hio

structure FreshOnDisk (dataDir metric : Text) (l : Ledger V) : Prop where
  onDisk : OnDisk dataDir metric l
  fresh : FreshIds dataDir metric l.metric

theorem freshOnDisk_order {l : Ledger V} {dataDir metric : Text} {io : FlushIO} {order : Order V}
    (h : FreshOnDisk dataDir metric l) (hguard : freshStarts dataDir metric io order l.metric) :
    FreshOnDisk dataDir metric (order.run dataDir metric io l).2 := by
  obtain ⟨_, hfits, hstarts⟩ := hguard
  refine ⟨onDisk_order h.onDisk fun _ => h.fresh.unopened h.onDisk.named, ?_⟩
  cases order with
  | put point =>
    refine putLocked_invariant (fun l => FreshIds dataDir metric l.metric)
      (freshIds_put h.fresh hfits point fun hnil => hstarts point (if_pos (.inl hnil))) fun hfull => ?_
    refine freshIds_put (freshIds_flush h.fresh io) hfits point fun hnil => ?_
    have hio := emptied_ok hfull hnil
    rw [earlierStarts_flush]
    exact hstarts point (if_pos (.inr ⟨hfull, hio⟩))
  | flush => exact freshIds_flush h.fresh io

theorem flush_keeps_files {dataDir metric : Text} {m : MetricState V}
    (h : ∀ first ∈ m.entry.head.points.head?, flushName dataDir metric first ∉ filenames m)
    (io : FlushIO) {chunk : ChunkMetadata} (hc : chunk ∈ m.entry.chunks) :
    chunkRead (flushSection dataDir metric io m).2.dir chunk.filename =
      chunkRead m.dir chunk.filename := by
  have hmem : chunk.filename ∈ filenames m := List.mem_map_of_mem hc
  rcases flushSection_cases dataDir metric io m with
    ⟨_, he⟩ | ⟨first, hf, ⟨_, dir, hdir, he⟩ | ⟨_, _, he⟩⟩
  · rw [he]
  · rw [he]
    exact hdir.frame (ne_of_mem_of_not_mem hmem (h first hf))
  · rw [he]
    exact chunkRead_moved_ne (ne_of_mem_of_not_mem hmem (h first hf)) first m

/-- As long as new heads start at fresh timestamps, the entries of a metric name different
files, and no flush opens one of them, or changes what one holds. -/
theorem fresh_starts_keep_files {dataDir : Text} {j : Journal V}
    (h : Serving dataDir (freshStarts dataDir) j) {metric : Text} {m : MetricState V}
    (hm : hashFindStr metric j.store = some m) :
    (filenames m).Nodup ∧
      (∀ first ∈ m.entry.head.points.head?, flushName dataDir metric first ∉ filenames m) ∧
      ∀ io, ∀ chunk ∈ m.entry.chunks,
        chunkRead (flushSection dataDir metric io m).2.dir chunk.filename =
          chunkRead m.dir chunk.filename := by
  have hnew (metric : Text) (unset : Int) :
      FreshOnDisk dataDir metric (Ledger.new unset : Ledger V) :=
    ⟨onDisk_new dataDir metric unset, fun hne => absurd rfl hne, .nil⟩
  obtain ⟨_, hI⟩ := (serving_invariant (FreshOnDisk dataDir) hnew
    (fun _ _ _ _ hl hguard => freshOnDisk_order hl hguard) h metric).found hm
  have hopen := hI.fresh.unopened hI.onDisk.named
  exact ⟨hI.onDisk.distinct, hopen, fun io chunk hc => flush_keeps_files hopen io hc⟩

theorem fresh_starts_keep_files_two_heads : ∃ m : MetricState Nat,
    metricAfter ['d'] [(⟨0, .ok⟩, ['m'], .put ⟨5, 1⟩), (⟨0, .ok⟩, ['m'], .flush),
      (⟨0, .ok⟩, ['m'], .put ⟨7, 2⟩)] ['m'] = some m ∧
    (filenames m).Nodup ∧ flushName ['d'] ['m'] (⟨7, 2⟩ : Point Nat) ∉ filenames m := by
  obtain ⟨m, hm, hp⟩ := Option.map_eq_some_iff.mp (show (metricAfter ['d']
    [(⟨0, .ok⟩, ['m'], .put ⟨5, 1⟩), (⟨0, .ok⟩, ['m'], .flush), (⟨0, .ok⟩, ['m'], .put ⟨7, 2⟩)]
    ['m']).map (fun m : MetricState Nat => m.entry.head.points) = some [⟨7, 2⟩] by decide)
  obtain ⟨j, hj, hfind⟩ := serving_metricAfter (freshStarts ['d']) (by decide) hm
  obtain ⟨hnodup, hopen, _⟩ := fresh_starts_keep_files hj hfind
  exact ⟨m, hm, hnodup, hopen ⟨7, 2⟩ (by simp [hp])⟩

/-- A head that starts where a flushed one did takes over its file. -/
theorem equal_starts_share_file : ¬ ∀ (dataDir : Text) (j : Journal Nat) (metric : Text)
    (m : MetricState Nat), Serving dataDir Guard.all j →
    hashFindStr metric j.store = some m →
    (filenames m).Nodup ∧
      (∀ first ∈ m.entry.head.points.head?, flushName dataDir metric first ∉ filenames m) ∧
      ∀ io, ∀ chunk ∈ m.entry.chunks,
        chunkRead (flushSection dataDir metric io m).2.dir chunk.filename =
          chunkRead m.dir chunk.filename := by
  intro h
  obtain ⟨m, hm, hp⟩ := Option.map_eq_some_iff.mp (show (metricAfter ['d']
    [(⟨0, .ok⟩, ['m'], .put ⟨5, 1⟩), (⟨0, .ok⟩, ['m'], .flush), (⟨0, .ok⟩, ['m'], .put ⟨5, 2⟩)]
    ['m']).map (fun m : MetricState Nat => (m.entry.head.points, filenames m)) =
      some ([⟨5, 2⟩], ["m_5.chunk".toList]) by decide)
  obtain ⟨j, hj, hfind⟩ := serving_metricAfter Guard.all (Runs.allowed_of_forall admits_all _ _) hm
  obtain ⟨hhead, hnames⟩ := Prod.mk.inj hp
  have hopen := (h ['d'] j ['m'] m hj hfind).2.1 ⟨5, 2⟩ (by simp [hhead])
  rw [hnames] at hopen
  exact hopen (by decide)

end Tsdb.ChunkNames
