import Mathlib

namespace Tsdb.Lines

variable {α : Type} [DecidableEq α] (newline : α)

def completeLines (stream : List α) : List (List α) :=
  (stream.splitOn newline).dropLast.map (· ++ [newline])

def unfinished (stream : List α) : List α := (stream.splitOn newline).getLastD []

/-- A list as far as its first element with `p`, that one included. -/
def through {β : Type} (p : β → Prop) [DecidablePred p] : List β → List β
  | [] => []
  | x :: xs => if p x then [x] else x :: through p xs

section Streams

variable {newline}

theorem stream_induction {P : List α → Prop} (hnone : ∀ text, newline ∉ text → P text)
    (hline : ∀ line rest, newline ∉ line → P rest → P (line ++ newline :: rest))
    (stream : List α) : P stream := by
  induction h : stream.length using Nat.strongRecOn generalizing stream with
  | ind n ih =>
    by_cases hmem : newline ∈ stream
    · obtain ⟨line, rest, rfl, hfree⟩ := List.eq_append_cons_of_mem hmem
      rw [List.length_append, List.length_cons] at h
      exact hline line rest hfree (ih rest.length (by omega) rest rfl)
    · exact hnone stream hmem

theorem completeLines_none {text : List α} (h : newline ∉ text) :
    completeLines newline text = [] := by
  rw [completeLines, List.splitOn_eq_singleton h]
  rfl

theorem unfinished_none {text : List α} (h : newline ∉ text) : unfinished newline text = text := by
  rw [unfinished, List.splitOn_eq_singleton h]
  rfl

theorem completeLines_line {line : List α} (h : newline ∉ line) (rest : List α) :
    completeLines newline (line ++ newline :: rest) =
      (line ++ [newline]) :: completeLines newline rest := by
  rw [completeLines, List.splitOn_append_cons_self_of_not_mem h,
    List.dropLast_cons_of_ne_nil (List.splitOn_ne_nil newline rest)]
  rfl

theorem unfinished_line {line : List α} (h : newline ∉ line) (rest : List α) :
    unfinished newline (line ++ newline :: rest) = unfinished newline rest := by
  rw [unfinished, List.splitOn_append_cons_self_of_not_mem h, unfinished]
  cases hs : rest.splitOn newline with
  | nil => exact absurd hs (List.splitOn_ne_nil newline rest)
  | cons piece pieces => rfl

theorem newline_notMem_unfinished (stream : List α) : newline ∉ unfinished newline stream := by
  induction stream using @stream_induction α _ newline with
  | hnone text h =>
    rw [unfinished_none h]
    exact h
  | hline line rest h ih =>
    rw [unfinished_line h]
    exact ih

theorem line_of_mem {stream line : List α} (h : line ∈ completeLines newline stream) :
    ∃ text, line = text ++ [newline] ∧ newline ∉ text := by
  induction stream using @stream_induction α _ newline with
  | hnone text htext =>
    rw [completeLines_none htext] at h
    cases h
  | hline text rest htext ih =>
    rw [completeLines_line htext] at h
    rcases List.mem_cons.mp h with rfl | h
    · exact ⟨text, rfl, htext⟩
    · exact ih h

theorem completeLines_append (xs ys : List α) : completeLines newline (xs ++ ys) =
    completeLines newline xs ++ completeLines newline (unfinished newline xs ++ ys) := by
  induction xs using @stream_induction α _ newline with
  | hnone text h => rw [completeLines_none h, unfinished_none h, List.nil_append]
  | hline line rest h ih =>
    rw [List.append_assoc, List.cons_append, completeLines_line h, completeLines_line h,
      unfinished_line h, ih, List.cons_append]

theorem unfinished_append (xs ys : List α) : unfinished newline (xs ++ ys) =
    unfinished newline (unfinished newline xs ++ ys) := by
  induction xs using @stream_induction α _ newline with
  | hnone text h => rw [unfinished_none h]
  | hline line rest h ih =>
    rw [List.append_assoc, List.cons_append, unfinished_line h, unfinished_line h, ih]

theorem completeLines_append_none (xs : List α) {ys : List α} (h : newline ∉ ys) :
    completeLines newline (xs ++ ys) = completeLines newline xs := by
  have hfree : newline ∉ unfinished newline xs ++ ys :=
    fun hmem => (List.mem_append.mp hmem).elim (newline_notMem_unfinished xs) h
  rw [completeLines_append, completeLines_none hfree, List.append_nil]

theorem lines_join (stream : List α) :
    (completeLines newline stream).flatten ++ unfinished newline stream = stream := by
  induction stream using @stream_induction α _ newline with
  | hnone text h => rw [completeLines_none h, unfinished_none h, List.flatten_nil, List.nil_append]
  | hline line rest h ih =>
    rw [completeLines_line h, unfinished_line h, List.flatten_cons, List.append_assoc, ih,
      List.append_assoc, List.singleton_append]

theorem completeLines_flatten {lines : List (List α)}
    (h : ∀ line ∈ lines, ∃ text, line = text ++ [newline] ∧ newline ∉ text) :
    completeLines newline lines.flatten = lines ∧ unfinished newline lines.flatten = [] := by
  induction lines with
  | nil => exact ⟨completeLines_none List.not_mem_nil, unfinished_none List.not_mem_nil⟩
  | cons line lines ih =>
    obtain ⟨text, rfl, hfree⟩ := h line List.mem_cons_self
    obtain ⟨hlines, hrest⟩ := ih fun other ho => h other (List.mem_cons_of_mem _ ho)
    rw [List.flatten_cons, List.append_assoc, List.singleton_append, completeLines_line hfree,
      unfinished_line hfree, hlines]
    exact ⟨rfl, hrest⟩

theorem completeLines_append_line (xs : List α) {line : List α} (h : newline ∉ line)
    (rest : List α) : completeLines newline (xs ++ (line ++ newline :: rest)) =
      completeLines newline xs ++
        (unfinished newline xs ++ line ++ [newline]) :: completeLines newline rest := by
  have hfree : newline ∉ unfinished newline xs ++ line :=
    fun hmem => (List.mem_append.mp hmem).elim (newline_notMem_unfinished xs) h
  rw [completeLines_append, ← List.append_assoc, completeLines_line hfree]

theorem unfinished_length_lt {xs ys : List α} (hmore : ys ≠ []) {k : Nat}
    (hlines : ∀ line ∈ completeLines newline (xs ++ ys), line.length ≤ k)
    (htail : (unfinished newline (xs ++ ys)).length ≤ k) : (unfinished newline xs).length < k := by
  by_cases hmem : newline ∈ ys
  · obtain ⟨line, rest, rfl, hfree⟩ := List.eq_append_cons_of_mem hmem
    rw [completeLines_append_line xs hfree] at hlines
    have hle := hlines (unfinished newline xs ++ line ++ [newline])
      (List.mem_append_right _ List.mem_cons_self)
    simp only [List.length_append, List.length_singleton] at hle
    omega
  · have hfree : newline ∉ unfinished newline xs ++ ys :=
      fun h => (List.mem_append.mp h).elim (newline_notMem_unfinished xs) hmem
    rw [unfinished_append, unfinished_none hfree, List.length_append] at htail
    have := List.length_pos_iff.mpr hmore
    omega

theorem idxOf?_none {text : List α} (h : newline ∉ text) : text.idxOf? newline = none := by
  rwa [List.idxOf?_eq_none_iff]

theorem idxOf?_line {line : List α} (h : newline ∉ line) (rest : List α) :
    (line ++ newline :: rest).idxOf? newline = some line.length := by
  rw [List.idxOf?, List.findIdx?_append]
  have hnone : line.findIdx? (· == newline) = none := idxOf?_none h
  rw [hnone, List.findIdx?_cons]
  simp

end Streams

section Through

variable {β : Type} {p : β → Prop} [DecidablePred p]

theorem through_initial (xs : List β) : through p xs <+: xs := by
  induction xs with
  | nil => exact List.prefix_rfl
  | cons x xs ih =>
    rw [through]
    split
    · exact ⟨xs, rfl⟩
    · exact (List.cons_prefix_cons).mpr ⟨rfl, ih⟩

theorem through_append {xs : List β} (h : ∀ x ∈ xs, ¬ p x) (ys : List β) :
    through p (xs ++ ys) = xs ++ through p ys := by
  induction xs with
  | nil => rfl
  | cons x xs ih =>
    rw [List.cons_append, through, if_neg (h x List.mem_cons_self),
      ih fun y hy => h y (List.mem_cons_of_mem x hy)]
    rfl

end Through

end Tsdb.Lines
