import Mathlib

namespace Tsdb.Strtok

variable {α : Type} (delim : α → Bool)

/-- The words of a text: its longest runs without a delimiter. -/
def words (text : List α) : List (List α) := (text.splitOnP delim).filter (· ≠ [])

/-- `strtok` at a position of a text: the word it returns, null if there is none, and the text
behind the position it saves. -/
def strtok (text : List α) : Option (List α) × List α :=
  match text.dropWhile delim with
  | [] => (none, [])
  | word => (some (word.takeWhile (!delim ·)), (word.dropWhile (!delim ·)).tail)

theorem words_nil : words delim [] = [] := by
  simp [words]

theorem words_delim {c : α} (h : delim c = true) (text : List α) :
    words delim (c :: text) = words delim text := by
  simp [words, List.splitOnP_cons_eq_if_modifyHead, h]

theorem strtok_delim {c : α} (h : delim c = true) (text : List α) :
    strtok delim (c :: text) = strtok delim text := by
  rw [strtok, List.dropWhile_cons_of_pos h]
  rfl

theorem strtok_word {c : α} (h : delim c = false) (text : List α) :
    strtok delim (c :: text) = (some ((c :: text).takeWhile (!delim ·)),
      ((c :: text).dropWhile (!delim ·)).tail) := by
  rw [strtok, List.dropWhile_cons_of_neg (by simp [h])]

theorem words_word {c : α} (h : delim c = false) (text : List α) :
    words delim (c :: text) = (c :: text).takeWhile (!delim ·) ::
      words delim ((c :: text).dropWhile (!delim ·)).tail := by
  have hword : ∀ x ∈ (c :: text).takeWhile (!delim ·), delim x = false := by
    intro x hx
    simpa using List.mem_takeWhile_imp hx
  have hne : (c :: text).takeWhile (!delim ·) ≠ [] := by
    rw [List.takeWhile_cons_of_pos (by simp [h])]
    exact List.cons_ne_nil _ _
  have hsplit := List.takeWhile_append_dropWhile (p := (!delim ·)) (l := c :: text)
  cases hrest : (c :: text).dropWhile (!delim ·) with
  | nil =>
    rw [hrest, List.append_nil] at hsplit
    rw [List.tail_nil, words_nil, hsplit, words, List.splitOnP_eq_singleton]
    · rfl
    · rw [← hsplit]
      exact hword
  | cons d rest =>
    have hd : delim d = true := by
      have hhead := List.head_dropWhile_not (!delim ·) (by rw [hrest]; exact List.cons_ne_nil d rest)
      simpa [hrest] using hhead
    rw [hrest] at hsplit
    have hwords : words delim (c :: text) =
        words delim ((c :: text).takeWhile (!delim ·) ++ d :: rest) := congrArg _ hsplit.symm
    rw [hwords, List.tail_cons, words, List.splitOnP_append_cons_of_forall_mem hword d hd,
      List.filter_cons_of_pos (by simpa using hne)]
    rfl

theorem words_strtok (text : List α) : words delim text =
    match strtok delim text with
    | (none, _) => []
    | (some word, rest) => word :: words delim rest := by
  induction text with
  | nil => exact words_nil delim
  | cons c text ih =>
    cases h : delim c with
    | true => rw [words_delim delim h, strtok_delim delim h, ih]
    | false => rw [strtok_word delim h, words_word delim h]

theorem strtok_shorter {text word rest : List α} (h : strtok delim text = (some word, rest)) :
    rest.length < text.length := by
  induction text with
  | nil => cases h
  | cons c text ih =>
    cases hc : delim c with
    | true =>
      rw [strtok_delim delim hc] at h
      exact (ih h).trans (by simp)
    | false =>
      rw [strtok_word delim hc] at h
      obtain ⟨_, rfl⟩ := Prod.mk.inj h
      have hle : ((c :: text).dropWhile (!delim ·)).length ≤ (c :: text).length :=
        List.length_dropWhile_le ..
      rw [List.length_tail, List.length_cons] at *
      omega

end Tsdb.Strtok
