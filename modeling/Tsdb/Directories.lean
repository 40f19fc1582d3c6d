import Tsdb.CoarseSound
import Tsdb.MinutePasses

namespace Tsdb.Directories

open CStrings Head Files Wal Registry Sections History Service Disk Downsample CoarseDirs
  CoarseRuns CoarseSound MinutePasses Runs

variable {V : Type} {dataDir : Text}

structure Extends (m m' : MetricState V) : Prop where
  present : m.dir.present = true → m'.dir.present = true
  chunks : filenames m ⊆ filenames m'
  files : ∀ name data, chunkRead m'.dir name = some data →
    name ∈ filenames m' ∧ m'.dir.present = true ∨ chunkRead m.dir name = some data

theorem Extends.refl (m : MetricState V) : Extends m m :=
  ⟨id, fun _ => id, fun _ _ h => .inr h⟩

theorem Extends.trans {m m' m'' : MetricState V} (h : Extends m m') (h' : Extends m' m'') :
    Extends m m'' := by
  refine ⟨fun hp => h'.present (h.present hp), fun _ hn => h'.chunks (h.chunks hn), ?_⟩
  intro name data hread
  rcases h'.files name data hread with hnew | hread
  · exact .inl hnew
  · rcases h.files name data hread with ⟨hnew, hp⟩ | hread
    · exact .inl ⟨h'.chunks hnew, h'.present hp⟩
    · exact .inr hread

theorem extends_put (point : Point V) (m : MetricState V) : Extends m (putSection point m).2 := by
  rcases putSection_cases point m with ⟨_, he⟩ | ⟨_, he⟩
  · rw [he]
    exact ⟨fun _ => rfl, fun _ => id, fun _ _ h => .inr h⟩
  · rw [he]
    exact .refl m

theorem extends_flush (dataDir metric : Text) (io : FlushIO) (m : MetricState V) :
    Extends m (flushSection dataDir metric io m).2 := by
  rcases flushSection_cases dataDir metric io m with
    ⟨_, he⟩ | ⟨first, _, ⟨_, dir, hdir, he⟩ | ⟨_, _, he⟩⟩
  · rw [he]
    exact .refl m
  · rw [he]
    refine ⟨fun _ => hdir.present, fun _ => id, fun name data hread => .inr ?_⟩
    exact hdir.complete hread
  · rw [he]
    refine ⟨fun _ => rfl, fun name hn => ?_, fun name data hread => ?_⟩
    · rw [filenames_moved]
      exact List.mem_append_left _ hn
    · rw [filenames_moved]
      by_cases hn : name = flushName dataDir metric first
      · exact .inl ⟨by simp [hn], rfl⟩
      · exact .inr (by rwa [chunkRead_moved_ne hn] at hread)

theorem extends_order (dataDir metric : Text) (io : FlushIO) (order : Order V) (l : Ledger V) :
    Extends l.metric (order.run dataDir metric io l).2.metric := by
  cases order with
  | put point =>
    exact putLocked_invariant (fun l' => Extends l.metric l'.metric) (extends_put point l.metric)
      (fun _ => (extends_flush dataDir metric io l.metric).trans (extends_put point _))
  | flush => exact extends_flush dataDir metric io l.metric

theorem order_new (dataDir metric : Text) (io : FlushIO) (unset : Int) (dir : Dir V)
    (point : Point V) : (Order.run dataDir metric io
      ⟨⟨⟨getNewHeadBlock unset, [], 4⟩, dir⟩, [], []⟩ (.put point)).2 =
      ⟨stored point ⟨⟨getNewHeadBlock unset, [], 4⟩, dir⟩, [point], []⟩ := rfl

theorem accepted_order (dataDir metric : Text) (io : FlushIO) (order : Order V) {l : Ledger V}
    (h : l.accepted ≠ []) : (order.run dataDir metric io l).2.accepted ≠ [] := by
  cases order with
  | put point =>
    have hrun : (Order.put point).run dataDir metric io l =
        l.putLocked dataDir metric io point := rfl
    rw [hrun, putLocked_accepted]
    split
    · simp
    · exact h
  | flush => exact h

variable [Zero V] [Add V] [Div V] [NatCast V]

theorem writeCoarseChunk_files (io : FlushIO) (metric : Text) (dir : Dir V)
    (points : List (Point V)) :
    (writeCoarseChunk io metric dir.mkdir points).present = true ∧
      ∀ name data, chunkRead (writeCoarseChunk io metric dir.mkdir points) name = some data →
        chunkRead dir name = some data ∨
          data.points ≠ [] ∧ ∃ ts, name = coarseName metric (chunkId ts) := by
  unfold writeCoarseChunk
  dsimp only
  split
  · rename_i first last hfirst _
    rcases flushToChunk_cases io dir.mkdir (coarseName metric (chunkId first.ts))
      ⟨first.ts, last.ts, coarsePoints points⟩ with ⟨_, dir', hdir, he⟩ | ⟨_, _, he⟩
    · rw [he]
      refine ⟨hdir.present, fun name data hread => .inl ?_⟩
      exact hdir.complete hread
    · rw [he]
      refine ⟨rfl, fun name data hread => ?_⟩
      by_cases hn : name = coarseName metric (chunkId first.ts)
      · subst hn
        rw [chunkRead_write_self] at hread
        obtain rfl := Option.some.inj hread
        exact .inr ⟨List.ne_nil_of_mem (List.mem_of_mem_head? hfirst), _, rfl⟩
      · rw [chunkRead_write_ne _ hn, chunkRead_open_ne _ hn] at hread
        exact .inl hread
  · exact ⟨rfl, fun _ _ hread => .inl hread⟩

theorem downsampleChunk_files (cutoff : Int) (io : FlushIO) (metric : Text) (dir coarseDir : Dir V)
    (chunk : ChunkMetadata) :
    (coarseDir.present = true →
      (downsampleChunk cutoff io metric dir coarseDir chunk).present = true) ∧
    ∀ name data, chunkRead (downsampleChunk cutoff io metric dir coarseDir chunk) name = some data →
      chunkRead coarseDir name = some data ∨
        (downsampleChunk cutoff io metric dir coarseDir chunk).present = true ∧
          data.points ≠ [] ∧ ∃ ts, name = coarseName metric (chunkId ts) := by
  unfold downsampleChunk
  split
  · exact ⟨id, fun _ _ h => .inl h⟩
  split
  · exact ⟨id, fun _ _ h => .inl h⟩
  dsimp only
  split
  · exact ⟨fun _ => rfl, fun _ _ h => .inl h⟩
  split
  · exact ⟨fun _ => rfl, fun _ _ h => .inl h⟩
  · rename_i data _ _
    obtain ⟨hpresent, hfiles⟩ := writeCoarseChunk_files io metric coarseDir data.points
    refine ⟨fun _ => hpresent, fun name data hread => ?_⟩
    rcases hfiles name data hread with hold | hnew
    · exact .inl hold
    · exact .inr ⟨hpresent, hnew⟩

end Tsdb.Directories
