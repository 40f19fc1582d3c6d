import Mathlib

namespace Tsdb.Head

variable {V : Type}

def headCapacity : Nat := 50000

/-- One stored sample. `V` stands for the doubles, which the store only moves around. -/
structure Point (V : Type) where
  ts : Int
  value : V
  deriving DecidableEq, Repr

/-- `points` lists `timestamps[i]`, `values[i]` for `i < size`. -/
structure HeadBlock (V : Type) where
  points : List (Point V)
  lastTimestamp : Int
  deriving DecidableEq, Repr

def HeadBlock.size (head : HeadBlock V) : Nat := head.points.length

/-- `malloc` leaves `lastTimestamp` at whatever the memory held, here `unset`. -/
def getNewHeadBlock (unset : Int) : HeadBlock V := ⟨[], unset⟩

def putValue (head : HeadBlock V) (point : Point V) : Bool × HeadBlock V :=
  if 0 < head.size ∧ point.ts < head.lastTimestamp then (false, head)
  else if headCapacity ≤ head.size then (false, head)
  else (true, ⟨head.points ++ [point], point.ts⟩)

/-- `putValue` either stores the point at the end or changes nothing. -/
theorem putValue_cases (head : HeadBlock V) (point : Point V) :
    ((0 < head.size → head.lastTimestamp ≤ point.ts) ∧ head.size < headCapacity ∧
        putValue head point = (true, ⟨head.points ++ [point], point.ts⟩)) ∨
      ((0 < head.size ∧ point.ts < head.lastTimestamp ∨ headCapacity ≤ head.size) ∧
        putValue head point = (false, head)) := by
  unfold putValue
  split
  · rename_i h
    exact .inr ⟨.inl h, rfl⟩
  split
  · rename_i h
    exact .inr ⟨.inr h, rfl⟩
  · rename_i h1 h2
    exact .inl ⟨by omega, by omega, rfl⟩

structure Ordered (head : HeadBlock V) : Prop where
  room : head.points.length ≤ headCapacity
  sorted : head.points.Pairwise (fun p q => p.ts ≤ q.ts)
  newest : ∀ p ∈ head.points.getLast?, head.lastTimestamp = p.ts

theorem ordered_new (unset : Int) : Ordered (getNewHeadBlock unset : HeadBlock V) :=
  ⟨by simp [getNewHeadBlock], by simp [getNewHeadBlock], by simp [getNewHeadBlock]⟩

theorem Ordered.le_last {head : HeadBlock V} (h : Ordered head) {p : Point V}
    (hp : p ∈ head.points) : p.ts ≤ head.lastTimestamp := by
  have hne : head.points ≠ [] := List.ne_nil_of_mem hp
  have hl := h.newest _ (List.getLast?_eq_some_getLast hne)
  rw [hl]
  have hs := h.sorted
  rw [← List.dropLast_append_getLast hne] at hp hs
  rcases List.mem_append.mp hp with hp | hp
  · exact (List.pairwise_append.mp hs).2.2 p hp _ (by simp)
  · rw [List.mem_singleton.mp hp]

theorem ordered_put {head : HeadBlock V} (h : Ordered head) (point : Point V) :
    Ordered (putValue head point).2 := by
  rcases putValue_cases head point with ⟨hts, hroom, he⟩ | ⟨_, he⟩
  · rw [he]
    refine ⟨?_, ?_, ?_⟩
    · simpa [HeadBlock.size] using hroom
    · refine List.pairwise_append.mpr ⟨h.sorted, by simp, ?_⟩
      intro p hp q hq
      rw [List.mem_singleton.mp hq]
      exact (h.le_last hp).trans (hts (List.length_pos_of_mem hp))
    · simp
  · rw [he]
    exact h

end Tsdb.Head
