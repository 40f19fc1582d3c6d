import Tsdb.Connection

namespace Tsdb.Framing

open CStrings Strtok Parsing Registry Server Requests Lines Connection

variable {V : Type} [Zero V] [Add V] [Div V] [NatCast V] [LT V] [DecidableLT V] {w : World V}
  {s : Store V}

/-- The thread has served the complete lines of the stream, and its buffer is the unfinished one. -/
structure Serves (w : World V) (s : Store V) (stream : Text) (t : Thread V) : Prop where
  session : t.session = serveLines w (completeLines '\n' stream) (.start s)
  inbuf : t.session.ending = .reading → t.inbuf = unfinished '\n' stream

theorem serves_start : Serves w s [] ⟨[], .start s⟩ := ⟨rfl, fun _ => rfl⟩

theorem Serves.receive (hsends : ∀ n, w.sends n = true) {stream : Text} {t : Thread V}
    (h : Serves w s stream t) {bytes : Text}
    (hroom : t.session.ending = .reading →
      (unfinished '\n' stream).length + bytes.length < 8191) :
    Serves w s (stream ++ bytes) (receive w t bytes) := by
  have hlines : serveLines w (completeLines '\n' (stream ++ bytes)) (.start s) =
      if t.session.ending = .reading then
        serveLines w (completeLines '\n' (unfinished '\n' stream ++ bytes)) t.session
      else t.session := by
    rw [completeLines_append, serveLines_append hsends rfl, ← h.session]
  by_cases hr : t.session.ending = .reading
  · rw [if_pos hr] at hlines
    have hfits : ¬ 8192 - 1 ≤ t.inbuf.length + bytes.length := by
      have := hroom hr
      rw [h.inbuf hr]
      omega
    obtain ⟨hserved, hleft⟩ := lineLoop_serves hsends hr
      (Nat.lt_succ_self (t.inbuf ++ bytes).length)
    have hreceive : Connection.receive w t bytes =
        ⟨(lineLoop w ((t.inbuf ++ bytes).length + 1) (t.inbuf ++ bytes) t.session).2,
          (lineLoop w ((t.inbuf ++ bytes).length + 1) (t.inbuf ++ bytes) t.session).1⟩ := by
      rw [Connection.receive, if_neg (not_not.mpr hr), if_neg hfits]
    rw [h.inbuf hr] at hreceive hserved hleft
    rw [hreceive]
    refine ⟨hserved.trans hlines.symm, fun hend => ?_⟩
    rw [unfinished_append]
    exact hleft hend
  · rw [if_neg hr] at hlines
    have hreceive : Connection.receive w t bytes = t := by
      rw [Connection.receive, if_pos hr]
    rw [hreceive]
    exact ⟨hlines.symm, fun hend => absurd hend hr⟩

theorem Serves.segments (hsends : ∀ n, w.sends n = true) {segments : List Text}
    (hsize : ∀ segment ∈ segments, 1 ≤ segment.length ∧ segment.length ≤ 1024) {stream : Text}
    {t : Thread V} (h : Serves w s stream t)
    (hlines : ∀ line ∈ completeLines '\n' (stream ++ segments.flatten), line.length ≤ 7167)
    (htail : (unfinished '\n' (stream ++ segments.flatten)).length ≤ 7167) :
    Serves w s (stream ++ segments.flatten) (segments.foldl (Connection.receive w) t) := by
  induction segments generalizing stream t with
  | nil =>
    rw [List.flatten_nil, List.append_nil]
    exact h
  | cons segment segments ih =>
    obtain ⟨hpos, hle⟩ := hsize segment List.mem_cons_self
    have hshort : (unfinished '\n' stream).length < 7167 := by
      refine unfinished_length_lt (fun hnil => ?_) hlines htail
      rw [List.flatten_cons, List.append_eq_nil_iff] at hnil
      rw [hnil.1] at hpos
      exact absurd hpos (by decide)
    rw [List.flatten_cons, ← List.append_assoc] at hlines htail ⊢
    exact ih (fun other ho => hsize other (List.mem_cons_of_mem _ ho))
      (h.receive hsends fun _ => by omega) hlines htail

/-- What `getRequest` is given of the lines of a stream, up to the first `QUIT`. -/
def given (lines : List Text) : List Text := through QuitLine (lines.map lineString)

theorem given_cons (line : Text) (lines : List Text) : given (line :: lines) =
    if QuitLine (lineString line) then [lineString line] else lineString line :: given lines := rfl

theorem serveLines_passed (hsends : ∀ n, w.sends n = true) {c : Session V}
    (hc : c.ending = .reading) (lines : List Text) :
    (serveLines w lines c).passed <+: c.passed ++ given lines ∧
      ((serveLines w lines c).passed = c.passed ++ given lines ↔
        ((given lines).dropLast.foldlM (lineStep w) (c.passed.length, c.store)).isSome) := by
  induction lines generalizing c with
  | nil =>
    have hnil : (serveLines w [] c).passed = c.passed ++ given [] := (List.append_nil _).symm
    exact ⟨hnil ▸ List.prefix_rfl, iff_of_true hnil rfl⟩
  | cons line lines ih =>
    have hpassed := @handleLine_passed V _ _ _ _ _ _ w c (line.take lineMax)
    have hcases := handleLine_cases hsends hc (line.take lineMax)
    rw [← lineString] at hpassed hcases
    rw [serveLines_cons, given_cons]
    generalize handleLine w (line.take lineMax) c = out at hpassed hcases
    -- the loop goes on with the lines behind this one, whatever has been made of it
    have hon {c' : Session V} (hend : c'.ending = .reading)
        (hpassed : c'.passed = c.passed ++ [lineString line])
        (hstep : lineStep w (c.passed.length, c.store) (lineString line) =
          some (c.passed.length + 1, c'.store)) :
        (serveLines w lines c').passed <+: c.passed ++ lineString line :: given lines ∧
          ((serveLines w lines c').passed = c.passed ++ lineString line :: given lines ↔
            ((lineString line :: given lines).dropLast.foldlM (lineStep w)
              (c.passed.length, c.store)).isSome) := by
      have hrest := ih hend
      rw [hpassed, List.append_assoc, List.singleton_append, List.length_append,
        List.length_singleton] at hrest
      refine ⟨hrest.1, hrest.2.trans ?_⟩
      cases hlines : given lines with
      | nil => exact iff_of_true rfl rfl
      | cons next more =>
        rw [List.dropLast_cons_cons, List.foldlM_cons, hstep]
        rfl
    cases hcases with
    | fault c' hend hstep =>
      rw [if_neg Bool.false_ne_true, hpassed]
      split
      · exact ⟨List.prefix_rfl, iff_of_true rfl rfl⟩
      · rw [List.prefix_append_right_inj, List.append_right_inj]
        refine ⟨List.prefix_append [lineString line] _, ?_⟩
        cases hlines : given lines with
        | nil => exact iff_of_true rfl rfl
        | cons next more =>
          rw [List.dropLast_cons_cons, List.foldlM_cons, hstep]
          simp
    | quit c' n request hend hparsed hquit =>
      rw [if_neg Bool.false_ne_true, hpassed, if_pos hquit]
      exact ⟨List.prefix_rfl, iff_of_true rfl rfl⟩
    | rejected c' hend hstep hform =>
      have hquit : ¬ QuitLine (lineString line) := fun h => hform (by rw [h]; exact .quit)
      rw [if_pos rfl, if_neg hquit]
      exact hon hend hpassed hstep
    | served c' n request hend hstep hparsed hquit =>
      rw [if_pos rfl, if_neg hquit]
      exact hon hend hpassed hstep

/-- The lines up to the first `QUIT`, each cut to what fits into `line`. -/
def cutLines (lines : List Text) : List Text := through QuitLine (lines.map (List.take lineMax))

theorem given_of_plain {lines : List Text} (h : ∀ line ∈ cutLines lines, '\x00' ∉ line) :
    given lines = cutLines lines := by
  induction lines with
  | nil => rfl
  | cons line lines ih =>
    have hcons : cutLines (line :: lines) = if QuitLine (line.take lineMax) then
        [line.take lineMax] else line.take lineMax :: cutLines lines := rfl
    rw [hcons] at h ⊢
    have hline : lineString line = line.take lineMax := by
      apply cString_eq
      split at h
      · exact h _ (List.mem_singleton_self _)
      · exact h _ List.mem_cons_self
    rw [given_cons, hline]
    split
    · rfl
    · rename_i hquit
      rw [if_neg hquit] at h
      rw [ih fun other ho => h other (List.mem_cons_of_mem _ ho)]

/-- No line has a zero byte in what is copied of it, and none before the last kills the process. -/
def Unbroken (w : World V) (s : Store V) (lines : List Text) : Prop :=
  (∀ line ∈ lines, '\x00' ∉ line) ∧ (lines.dropLast.foldlM (lineStep w) (0, s)).isSome

theorem serveLines_iff (hsends : ∀ n, w.sends n = true) (lines : List Text) (s : Store V) :
    (serveLines w lines (.start s)).passed = cutLines lines ↔ Unbroken w s (cutLines lines) := by
  have hstart : (Session.start s).ending = .reading := rfl
  obtain ⟨hinit, hiff⟩ := serveLines_passed hsends hstart lines
  have hnone : (Session.start s).passed ++ given lines = given lines := rfl
  rw [hnone] at hinit hiff
  constructor
  · intro hpassed
    have hplain : ∀ line ∈ cutLines lines, '\x00' ∉ line := by
      intro line hline
      rw [← hpassed] at hline
      obtain ⟨cut, -, rfl⟩ := List.mem_map.mp ((through_initial _).subset (hinit.subset hline))
      exact zero_notMem_cString _
    rw [← given_of_plain hplain] at hpassed
    refine ⟨hplain, ?_⟩
    rw [← given_of_plain hplain]
    exact hiff.mp hpassed
  · rintro ⟨hplain, hsome⟩
    rw [← given_of_plain hplain] at hsome ⊢
    exact hiff.mpr hsome

theorem handleClient_serves (hsends : ∀ n, w.sends n = true) {stream : Text}
    (hlines : ∀ line ∈ completeLines '\n' stream, line.length ≤ 7167)
    (htail : (unfinished '\n' stream).length ≤ 7167) {segments : List Text}
    (hstream : segments.flatten = stream)
    (hsize : ∀ segment ∈ segments, 1 ≤ segment.length ∧ segment.length ≤ 1024) (s : Store V) :
    (handleClient w segments s).session = serveLines w (completeLines '\n' stream) (.start s) := by
  have hstart : Serves w s [] ⟨[], .start s⟩ := serves_start
  have hall := hstart.segments hsends hsize
  rw [List.nil_append, hstream] at hall
  exact (hall hlines htail).session

end Tsdb.Framing
