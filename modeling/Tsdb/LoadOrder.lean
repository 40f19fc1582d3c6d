import Tsdb.ChunkOrder
import Tsdb.Folds
import Tsdb.Loading
import Tsdb.CrashFiles
import Tsdb.Shutdown

namespace Tsdb.LoadOrder

open CStrings Head Files Wal Registry Sections History Service Recovery Replay Loading CrashFiles
  Shutdown Folds PutAnswer ChunkOrder

variable {V : Type} {dataDir metric : Text}

/-- The point becomes the first of a head: it meets an empty one, or a full one that the flush
empties, and `PUT_value` compares it with nothing. -/
def StartsHead (dataDir metric : Text) (io : FlushIO) (m : MetricState V) : Prop :=
  m.entry.head.points = [] ∨
    headCapacity ≤ m.entry.head.size ∧ FlushSucceeds dataDir metric io m

instance (dataDir metric : Text) (io : FlushIO) (m : MetricState V) :
    Decidable (StartsHead dataDir metric io m) :=
  decidable_of_iff (m.entry.head.points.isEmpty = true ∨
    headCapacity ≤ m.entry.head.size ∧ FlushSucceeds dataDir metric io m)
    (by rw [List.isEmpty_iff]; rfl)

theorem replay_newest (records : List (Point V)) (head : HeadBlock V)
    (hroom : (records.foldl replayRecord head).size < headCapacity) :
    head.lastTimestamp ≤ (records.foldl replayRecord head).lastTimestamp ∧
      ∀ p ∈ records, p.ts ≤ (records.foldl replayRecord head).lastTimestamp := by
  induction records generalizing head with
  | nil => exact ⟨le_rfl, fun _ hp => absurd hp List.not_mem_nil⟩
  | cons p records ih =>
    have hsize : head.points.length < headCapacity := by
      obtain ⟨kept, _, hpoints⟩ := replay_appends (p :: records) head
      rw [HeadBlock.size, hpoints, List.length_append] at hroom
      omega
    rw [List.foldl_cons] at hroom ⊢
    obtain ⟨hle, hrecords⟩ := ih _ hroom
    have hstep : head.lastTimestamp ≤ (replayRecord head p).lastTimestamp ∧
        p.ts ≤ (replayRecord head p).lastTimestamp := by
      by_cases hold : p.ts ≤ head.lastTimestamp
      · rw [replayRecord_old hold]
        exact ⟨le_rfl, hold⟩
      · rw [replayRecord_new (by omega) hsize]
        exact ⟨by dsimp only; omega, le_rfl⟩
    refine ⟨hstep.1.trans hle, fun q hq => ?_⟩
    rcases List.mem_cons.mp hq with rfl | hq
    · exact hstep.2.trans hle
    · exact hrecords q hq

theorem replay_ordered (records : List (Point V)) {head : HeadBlock V} (h : Ordered head) :
    Ordered (records.foldl replayRecord head) := by
  apply foldl_keeps _ h
  intro head p _ hhead
  unfold replayRecord
  split
  · exact hhead
  · exact ordered_put hhead p

/-- `readdir` lists the complete chunk files by their start. -/
def InTimeOrder (dir : Dir V) : Prop :=
  dir.chunks.keys.Pairwise fun name name' => ∀ data ∈ chunkRead dir name,
    ∀ data' ∈ chunkRead dir name', data.startTs ≤ data'.startTs

theorem inTimeOrder_single {s : Store V} {metric name : Text} (hdirs : s.dirs.keys = [metric])
    (hnames : (s.dirOf metric).chunks.keys = [name]) (k : Text) : InTimeOrder (s.dirOf k) := by
  unfold InTimeOrder
  by_cases hk : k = metric
  · rw [hk, hnames]
    exact List.pairwise_singleton _ _
  · rw [dirOf_of_keys hdirs hk]
    exact .nil

theorem DirOrder.relist {dir dir' : Dir V} {accepted : List (Point V)}
    (h : DirOrder dataDir metric dir accepted) (hlist : Relisted dir dir') :
    DirOrder dataDir metric dir' accepted := by
  refine ⟨h.sorted, ?_, fun name data hread => ?_, fun name data name' data' hr hr' => ?_⟩
  · rw [← hlist.wal]
    exact h.logged
  · rw [← hlist.read] at hread
    obtain ⟨hname, hearly⟩ := h.files name data hread
    exact ⟨hname, hearly.keep (by rw [hlist.wal]; exact fun _ => id)⟩
  · rw [← hlist.read] at hr hr'
    exact h.apart name data name' data' hr hr'

/-- Chunk files in the order of their starts are in the order of their ranges. -/
theorem loadedChunks_ordered {dir : Dir V} {accepted : List (Point V)}
    (h : DirOrder dataDir metric dir accepted) (hsorted : InTimeOrder dir) (p : Text → Bool) :
    (loadedChunks dataDir metric dir (dir.chunks.keys.filter p)).Pairwise
      (fun c c' => c.endTs ≤ c'.startTs) := by
  unfold loadedChunks
  rw [List.pairwise_filterMap]
  apply List.Pairwise.filter
  apply List.Pairwise.imp₂ _ hsorted dir.chunks.keys_nodup
  intro name name' hstart hne c hc c' hc'
  obtain ⟨data, hread, rfl⟩ := Option.map_eq_some_iff.mp hc
  obtain ⟨data', hread', rfl⟩ := Option.map_eq_some_iff.mp hc'
  have hle := hstart data hread data' hread'
  rcases h.apart name data name' data' hread hread' hne with horder | horder
  · exact horder
  · -- the two ranges would begin together, and then the files had one name
    have hrange := (h.files name' data' hread').2.range
    have heq : data.startTs = data'.startTs := by omega
    have hname := (h.files name data hread).1
    rw [heq, ← (h.files name' data' hread').1] at hname
    exact absurd hname hne

theorem metricOrder_loaded {dir : Dir V} {accepted : List (Point V)}
    (h : DirOrder dataDir metric dir accepted) (hsorted : InTimeOrder dir) (unset : Int) :
    MetricOrder dataDir metric (loadMetric dataDir metric unset dir) accepted := by
  have hreplay : (loadMetric dataDir metric unset dir).entry.head =
      (dir.wal.getD []).foldl replayRecord (getNewHeadBlock unset) :=
    (loadMetric_head dir unset).trans (walReplay_eq dir _)
  obtain ⟨kept, hkept, hpoints⟩ := replay_appends (dir.wal.getD []) (getNewHeadBlock unset)
  refine ⟨h, ?_, ?_, fun hne hroom q hq => ?_, ?_, fun c hc => ?_⟩
  · rw [hreplay]
    exact replay_ordered _ (ordered_new unset)
  · rw [hreplay, hpoints]
    exact hkept
  · rw [hreplay] at hne hroom ⊢
    obtain ⟨_, hnewest⟩ := replay_newest _ _ hroom
    obtain ⟨before, hb⟩ := h.logged
    rw [← hb] at hq
    have hwal : dir.wal.getD [] ≠ [] := by
      intro hnil
      rw [hnil] at hne
      exact hne rfl
    obtain ⟨r, hr⟩ := List.exists_mem_of_ne_nil _ hwal
    rcases List.mem_append.mp hq with hq | hq
    · have hs := h.sorted
      rw [← hb] at hs
      exact ((List.pairwise_append.mp hs).2.2 q hq r hr).trans (hnewest r hr)
    · exact hnewest q hq
  · rw [loadMetric_chunks]
    exact loadedChunks_ordered h hsorted _
  · rw [loadMetric_chunks] at hc
    obtain ⟨name, _, hdata⟩ := List.mem_filterMap.mp hc
    obtain ⟨data, hread, rfl⟩ := Option.map_eq_some_iff.mp hdata
    exact (h.files name data hread).2

end Tsdb.LoadOrder
