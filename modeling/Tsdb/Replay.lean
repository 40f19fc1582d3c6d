import Tsdb.Service

namespace Tsdb.Replay

open CStrings Head Files Wal Registry History Service

variable {V : Type}

theorem replayRecord_old {head : HeadBlock V} {point : Point V}
    (h : point.ts ≤ head.lastTimestamp) : replayRecord head point = head := if_pos h

theorem replayRecord_new {head : HeadBlock V} {point : Point V}
    (h : head.lastTimestamp < point.ts) (hroom : head.points.length < headCapacity) :
    replayRecord head point = ⟨head.points ++ [point], point.ts⟩ := by
  rw [replayRecord, if_neg (by omega)]
  rcases putValue_cases head point with ⟨_, _, he⟩ | ⟨hrej, _⟩
  · rw [he]
  · unfold HeadBlock.size at hrej
    omega

theorem replay_appends (records : List (Point V)) (head : HeadBlock V) :
    ∃ kept, kept.Sublist records ∧
      (records.foldl replayRecord head).points = head.points ++ kept := by
  induction records generalizing head with
  | nil => exact ⟨[], .slnil, by simp⟩
  | cons p records ih =>
    obtain ⟨kept, hsub, he⟩ := ih (replayRecord head p)
    rw [List.foldl_cons, he]
    unfold replayRecord
    split
    · exact ⟨kept, hsub.cons p, rfl⟩
    · rcases putValue_cases head p with ⟨_, _, hv⟩ | ⟨_, hv⟩
      · exact ⟨p :: kept, hsub.cons_cons p, by simp [hv]⟩
      · exact ⟨kept, hsub.cons p, by rw [hv]⟩

/-- The replay filter and `putValue` together keep a record exactly when it is newer than
everything before it. -/
theorem replay_loop (records : List (Point V)) (head : HeadBlock V)
    (hroom : head.points.length + records.length ≤ headCapacity) :
    (records.foldl replayRecord head).points = head.points ++ records ↔
      (head.lastTimestamp :: records.map Point.ts).IsChain (· < ·) := by
  induction records generalizing head with
  | nil => simp
  | cons p records ih =>
    simp only [List.length_cons] at hroom
    simp only [List.foldl_cons, List.map_cons, List.isChain_cons_cons]
    by_cases hts : p.ts ≤ head.lastTimestamp
    · rw [replayRecord_old hts]
      constructor
      · intro h
        obtain ⟨kept, hsub, he⟩ := replay_appends records head
        have hlen := hsub.length_le
        rw [he, List.append_cancel_left_eq] at h
        rw [h, List.length_cons] at hlen
        omega
      · rintro ⟨hlt, _⟩
        omega
    · have hnext := ih ⟨head.points ++ [p], p.ts⟩ (by simp; omega)
      rw [replayRecord_new (by omega) (by omega), ← hnext]
      simp only [List.append_assoc, List.cons_append, List.nil_append]
      exact ⟨fun h => ⟨by omega, h⟩, And.right⟩

theorem replay_nothing (records : List (Point V)) (head : HeadBlock V)
    (hroom : head.points.length < headCapacity) :
    (records.foldl replayRecord head).points = head.points ↔
      ∀ p ∈ records, p.ts ≤ head.lastTimestamp := by
  induction records with
  | nil => simp
  | cons p records ih =>
    rw [List.foldl_cons, List.forall_mem_cons]
    by_cases hts : p.ts ≤ head.lastTimestamp
    · rw [replayRecord_old hts, ih, and_iff_right hts]
    · refine iff_of_false ?_ fun h => hts h.1
      obtain ⟨kept, _, he⟩ := replay_appends records (replayRecord head p)
      rw [he, replayRecord_new (by omega) hroom]
      simp

end Tsdb.Replay
