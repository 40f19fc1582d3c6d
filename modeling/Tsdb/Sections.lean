import Tsdb.Registry

namespace Tsdb.Sections

open CStrings Head Files Wal Registry

variable {V : Type}

def Accepts (head : HeadBlock V) (point : Point V) : Prop :=
  (0 < head.size → head.lastTimestamp ≤ point.ts) ∧ head.size < headCapacity

def stored (point : Point V) (s : MetricState V) : MetricState V :=
  ⟨{ s.entry with head := ⟨s.entry.head.points ++ [point], point.ts⟩ }, walAppend s.dir point⟩

theorem putSection_cases (point : Point V) (s : MetricState V) :
    (Accepts s.entry.head point ∧ putSection point s = (true, stored point s)) ∨
      (¬ Accepts s.entry.head point ∧ putSection point s = (false, s)) := by
  unfold putSection Accepts
  rcases putValue_cases s.entry.head point with ⟨hts, hroom, he⟩ | ⟨hrej, he⟩
  · rw [he]
    exact .inl ⟨⟨hts, hroom⟩, rfl⟩
  · rw [he]
    exact .inr ⟨by omega, rfl⟩

/-- `Head_PUT` comes down to one section, behind a flush where the head is full. -/
theorem putHead_eq (dataDir metric : Text) (io : ChunkIO) (point : Point V) (s : MetricState V) :
    putHead dataDir metric io point s =
      if headCapacity ≤ s.entry.head.size then
        putSection point (flushHead dataDir metric io s).2
      else putSection point s := by
  unfold putHead
  rcases putSection_cases point s with ⟨hacc, he⟩ | ⟨_, he⟩
  · rw [if_neg (Nat.not_le.mpr hacc.2), he]
  · rw [he]

theorem putLocked_eq (dataDir metric : Text) (io : FlushIO) (point : Point V)
    (s : MetricState V) :
    putLocked dataDir metric io point s =
      if headCapacity ≤ s.entry.head.size then
        putSection point (flushSection dataDir metric io s).2
      else putSection point s :=
  putHead_eq dataDir metric io.chunk point s

def flushName (dataDir metric : Text) (first : Point V) : Text :=
  chunkName dataDir metric (chunkId first.ts)

def moved (name : Text) (first : Point V) (s : MetricState V) : MetricState V :=
  ⟨{ addChunk s.entry ⟨first.ts, s.entry.head.lastTimestamp, name⟩ with head := ⟨[], 0⟩ },
    walTruncate (chunkWrite (fopenWb s.dir.mkdir name) name
      ⟨first.ts, (s.entry.head.points.getLastD first).ts, s.entry.head.points⟩)⟩

/-- What a flush can do: find nothing to flush, fail and leave the entry alone, or move the
whole head into one new chunk. -/
theorem flushSection_cases (dataDir metric : Text) (io : FlushIO) (s : MetricState V) :
    (s.entry.head.points = [] ∧ flushSection dataDir metric io s = (true, s)) ∨
      ∃ first ∈ s.entry.head.points.head?,
        (((io ≠ .ok ∨ flushName dataDir metric first = []) ∧
            ∃ dir, FailedFlush (flushName dataDir metric first) s.dir.mkdir dir ∧
              flushSection dataDir metric io s = (false, ⟨s.entry, dir⟩)) ∨
          (io = .ok ∧ flushName dataDir metric first ≠ [] ∧
            flushSection dataDir metric io s =
              (true, moved (flushName dataDir metric first) first s))) := by
  unfold flushSection flushHead
  split
  · rename_i hp
    exact .inl ⟨hp, rfl⟩
  · rename_i first rest hp
    refine .inr ⟨first, by rw [hp]; rfl, ?_⟩
    have hlast : (s.entry.head.points.getLastD first).ts = ((first :: rest).getLast (by simp)).ts := by
      rw [hp, List.getLastD_eq_getLast?, List.getLast?_eq_some_getLast (List.cons_ne_nil first rest)]
      rfl
    rcases flushToChunk_cases io s.dir.mkdir (flushName dataDir metric first)
      ⟨first.ts, ((first :: rest).getLast (by simp)).ts, first :: rest⟩ with
      ⟨hfail, dir, hdir, he⟩ | ⟨hio, hname, he⟩
    · refine .inl ⟨hfail, dir, hdir, ?_⟩
      unfold flushToChunk flushName at he
      simp only [he]
    · refine .inr ⟨hio, hname, ?_⟩
      unfold flushToChunk at he
      unfold flushName at he ⊢
      simp only [he, moved, hlast]
      rw [hp]

end Tsdb.Sections
