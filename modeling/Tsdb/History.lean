import Tsdb.Sections

namespace Tsdb.History

open CStrings Head Files Wal Registry Sections

variable {V : Type}

/-- A metric with its history: the points `putValue` accepted, in that order, and what each
flush moved to disk. -/
structure Ledger (V : Type) where
  metric : MetricState V
  accepted : List (Point V)
  flushed : List (List (Point V))

/-- The parts of `Head_PUT` and `headflush` that hold the head's lock. -/
inductive Section (V : Type) where
  | put (point : Point V)
  | flush (io : FlushIO)

def Ledger.put (point : Point V) (l : Ledger V) : Bool × Ledger V :=
  let (res, m) := putSection point l.metric
  (res, ⟨m, if res then l.accepted ++ [point] else l.accepted, l.flushed⟩)

def Ledger.flush (dataDir metric : Text) (io : FlushIO) (l : Ledger V) : Bool × Ledger V :=
  let (res, m) := flushSection dataDir metric io l.metric
  (res, ⟨m, l.accepted, if res ∧ l.metric.entry.head.points ≠ []
    then l.flushed ++ [l.metric.entry.head.points] else l.flushed⟩)

def Ledger.run (dataDir metric : Text) : Section V → Ledger V → Bool × Ledger V
  | .put point, l => l.put point
  | .flush io, l => l.flush dataDir metric io

def Ledger.new (unset : Int) : Ledger V := ⟨⟨⟨getNewHeadBlock unset, [], 4⟩, Dir.empty⟩, [], []⟩

/-- The chunk entry describes the points that were flushed into it. -/
structure Describes (chunk : ChunkMetadata) (points : List (Point V)) : Prop where
  nonempty : points ≠ []
  sorted : points.Pairwise (fun p q => p.ts ≤ q.ts)
  least : IsLeast {ts | ∃ p ∈ points, p.ts = ts} chunk.startTs
  greatest : IsGreatest {ts | ∃ p ∈ points, p.ts = ts} chunk.endTs

theorem Describes.first {chunk : ChunkMetadata} {points : List (Point V)}
    (h : Describes chunk points) : ∃ p rest, points = p :: rest ∧ p.ts = chunk.startTs := by
  obtain ⟨p, rest, rfl⟩ := List.exists_cons_of_ne_nil h.nonempty
  refine ⟨p, rest, rfl, h.least.unique ⟨⟨p, by simp, rfl⟩, ?_⟩ |>.symm⟩
  rintro _ ⟨q, hq, rfl⟩
  rcases List.mem_cons.mp hq with rfl | hq
  · exact le_rfl
  · exact List.rel_of_pairwise_cons h.sorted hq

theorem describes_head {head : HeadBlock V} (h : Ordered head) {first : Point V}
    (hf : first ∈ head.points.head?) (name : Text) :
    Describes ⟨first.ts, head.lastTimestamp, name⟩ head.points := by
  obtain ⟨rest, hp⟩ := List.head?_eq_some_iff.mp hf
  have hne : head.points ≠ [] := by simp [hp]
  refine ⟨hne, h.sorted, ⟨⟨first, by simp [hp], rfl⟩, ?_⟩, ⟨⟨_, List.getLast_mem hne, ?_⟩, ?_⟩⟩
  · rintro _ ⟨p, hmem, rfl⟩
    have hs := h.sorted
    rw [hp] at hmem hs
    rcases List.mem_cons.mp hmem with rfl | hmem
    · exact le_rfl
    · exact List.rel_of_pairwise_cons hs hmem
  · exact (h.newest _ (List.getLast?_eq_some_getLast hne)).symm
  · rintro _ ⟨p, hmem, rfl⟩
    exact h.le_last hmem

/-- Nothing accepted is lost or doubled, wherever the file contents went. -/
structure Conserved (l : Ledger V) : Prop where
  ordered : Ordered l.metric.entry.head
  conserved : l.accepted = l.flushed.flatten ++ l.metric.entry.head.points
  described : List.Forall₂ Describes l.metric.entry.chunks l.flushed
  logged : l.metric.dir.wal.getD [] = l.metric.entry.head.points

theorem conserved_new (unset : Int) : Conserved (Ledger.new unset : Ledger V) :=
  ⟨ordered_new unset, rfl, .nil, rfl⟩

theorem conserved_put {l : Ledger V} (h : Conserved l) (point : Point V) :
    Conserved (l.put point).2 := by
  unfold Ledger.put
  rcases putSection_cases point l.metric with ⟨hacc, he⟩ | ⟨_, he⟩
  · rw [he]
    refine ⟨?_, ?_, h.described, ?_⟩
    · have ho := ordered_put h.ordered point
      rcases putValue_cases l.metric.entry.head point with ⟨_, _, hv⟩ | ⟨hrej, _⟩
      · rwa [hv] at ho
      · unfold Accepts at hacc
        omega
    · simp [stored, h.conserved]
    · simp [stored, walAppend, Dir.mkdir, h.logged]
  · rw [he]
    exact h

theorem conserved_flush {l : Ledger V} (h : Conserved l) (dataDir metric : Text) (io : FlushIO) :
    Conserved (l.flush dataDir metric io).2 := by
  unfold Ledger.flush
  rcases flushSection_cases dataDir metric io l.metric with
    ⟨hnil, he⟩ | ⟨first, hf, ⟨_, dir, hdir, he⟩ | ⟨_, _, he⟩⟩
  · simp only [he, hnil, ne_eq, not_true, and_false, if_false]
    exact h
  · rw [he]
    exact ⟨h.ordered, h.conserved, h.described, (congrArg (Option.getD · []) hdir.wal).trans h.logged⟩
  · have hne : l.metric.entry.head.points ≠ [] := by
      rintro hnil
      simp [hnil] at hf
    simp only [he, ne_eq, hne, not_false_eq_true, and_self, if_true]
    refine ⟨ordered_new 0, ?_, ?_, rfl⟩
    · simp [moved, h.conserved]
    · exact List.rel_append h.described (.cons (describes_head h.ordered hf _) .nil)

theorem conserved_run {l : Ledger V} (h : Conserved l) (dataDir metric : Text) (x : Section V) :
    Conserved (l.run dataDir metric x).2 := by
  cases x with
  | put point => exact conserved_put h point
  | flush io => exact conserved_flush h dataDir metric io

def Ledger.putLocked (dataDir metric : Text) (io : FlushIO) (point : Point V) (l : Ledger V) :
    Bool × Ledger V :=
  let (res, l) := l.put point
  if res then (true, l)
  else if headCapacity ≤ l.metric.entry.head.size then (l.flush dataDir metric io).2.put point
  else (false, l)

theorem ledger_putLocked_eq (dataDir metric : Text) (io : FlushIO) (point : Point V)
    (l : Ledger V) :
    l.putLocked dataDir metric io point =
      if headCapacity ≤ l.metric.entry.head.size then (l.flush dataDir metric io).2.put point
      else l.put point := by
  unfold Ledger.putLocked Ledger.put
  rcases putSection_cases point l.metric with ⟨hacc, he⟩ | ⟨_, he⟩
  · rw [if_neg (Nat.not_le.mpr hacc.2), he]
    rfl
  · rw [he]
    rfl

theorem putLocked_metric (dataDir metric : Text) (io : FlushIO) (point : Point V) (l : Ledger V) :
    ((l.putLocked dataDir metric io point).1, (l.putLocked dataDir metric io point).2.metric) =
      putLocked dataDir metric io point l.metric := by
  rw [ledger_putLocked_eq, putLocked_eq]
  by_cases hfull : headCapacity ≤ l.metric.entry.head.size
  · rw [if_pos hfull, if_pos hfull]
    rfl
  · rw [if_neg hfull, if_neg hfull]
    rfl

theorem putLocked_accepted (dataDir metric : Text) (io : FlushIO) (point : Point V) (l : Ledger V) :
    (l.putLocked dataDir metric io point).2.accepted =
      if (l.putLocked dataDir metric io point).1 then l.accepted ++ [point] else l.accepted := by
  rw [ledger_putLocked_eq]
  by_cases hfull : headCapacity ≤ l.metric.entry.head.size
  · rw [if_pos hfull]
    rfl
  · rw [if_neg hfull]
    rfl

theorem putLocked_invariant (I : Ledger V → Prop) {dataDir metric : Text} {io : FlushIO}
    {point : Point V} {l : Ledger V} (hput : I (l.put point).2)
    (hretry : headCapacity ≤ l.metric.entry.head.size →
      I ((l.flush dataDir metric io).2.put point).2) :
    I (l.putLocked dataDir metric io point).2 := by
  rw [ledger_putLocked_eq]
  by_cases hfull : headCapacity ≤ l.metric.entry.head.size
  · rw [if_pos hfull]
    exact hretry hfull
  · rw [if_neg hfull]
    exact hput

end Tsdb.History
