import Tsdb.Framing

namespace Tsdb.WholeLines

open CStrings Strtok Parsing Registry Server Requests Lines Connection Framing

variable {V : Type}

/-- The line has the form of a command, and it is text. -/
def IsCommand (line : Text) : Prop := '\x00' ∉ line ∧ Form (words delimiter line)

instance : DecidablePred IsCommand := fun line =>
  inferInstanceAs (Decidable (_ ∧ Form (words delimiter line)))

/-- The commands of a stream that ought to be executed: its complete lines, but not those that are
too long, up to the first `QUIT`. -/
def wholeCommands (stream : Text) : List Text :=
  through QuitLine
    ((completeLines '\n' stream).filter fun line => line.length ≤ lineMax ∧ IsCommand line)

/-- What is executed are these commands, as `getRequest` reads them, or only the first of them
where one kills the process. -/
structure RunsWholeLines (w : World V) (stream : Text) (c : Session V) : Prop where
  parsed : ∀ x ∈ c.executed, ∃ n, getRequest w.lib (w.unset n) x.1 = some (some x.2)
  lines : c.executed.map Prod.fst <+: wholeCommands stream
  all : c.ending ≠ .fault → c.executed.map Prod.fst = wholeCommands stream

/-- The line is copied as a whole, and it is a string. -/
def Whole (line : Text) : Prop := line.length ≤ lineMax ∧ '\x00' ∉ line

instance : DecidablePred Whole := fun line => inferInstanceAs (Decidable (_ ∧ '\x00' ∉ line))

/-- The lines up to a `QUIT` fit into the buffer, and those that are not whole begin with what is no
command. -/
def Tolerable (stream : Text) : Prop :=
  ∀ line ∈ through (fun line => QuitLine (lineString line)) (completeLines '\n' stream),
    line.length ≤ 7167 ∧ (Whole line ∨ ¬ IsCommand (lineString line))

section Commands

theorem isCommand_lineString {line : Text} :
    IsCommand (lineString line) ↔ Form (words delimiter (lineString line)) :=
  and_iff_right (zero_notMem_cString _)

theorem command_of_quit {line : Text} (h : QuitLine (lineString line)) :
    IsCommand (lineString line) := by
  rw [isCommand_lineString, h]
  exact .quit

theorem lineString_whole {line : Text} (h : Whole line) : lineString line = line := by
  rw [lineString, List.take_of_length_le h.1, cString_eq h.2]

def cutCommands (lines : List Text) : List Text :=
  through QuitLine ((lines.map lineString).filter IsCommand)

theorem cutCommands_cons (line : Text) (lines : List Text) : cutCommands (line :: lines) =
    if IsCommand (lineString line) then
      lineString line :: if QuitLine (lineString line) then [] else cutCommands lines
    else cutCommands lines := by
  unfold cutCommands
  rw [List.map_cons]
  split
  · rename_i hcommand
    rw [List.filter_cons_of_pos (by simpa using hcommand), through]
    split <;> rfl
  · rename_i hcommand
    rw [List.filter_cons_of_neg (by simpa using hcommand)]

theorem newline_notMem_cut {text : Text} (h : '\n' ∉ text) (hcut : ¬ Whole (text ++ ['\n'])) :
    '\n' ∉ lineString (text ++ ['\n']) := by
  unfold lineString cString
  by_cases hshort : (text ++ ['\n']).length ≤ lineMax
  · -- the newline stands behind a zero byte
    have hzero : '\x00' ∈ text := by
      have hmem := not_not.mp (not_and.mp hcut hshort)
      simpa using hmem
    obtain ⟨before, after, rfl, hbefore⟩ := List.eq_append_cons_of_mem hzero
    rw [List.take_of_length_le hshort, List.append_assoc, List.cons_append,
      List.takeWhile_append_of_pos (fun c hc => by
        simpa using fun he : c = '\x00' => hbefore (he ▸ hc)), List.takeWhile_cons_of_neg (by simp),
      List.append_nil]
    exact fun hmem => h (List.mem_append_left _ hmem)
  · rw [List.length_append, List.length_singleton] at hshort
    rw [List.take_append_of_le_length (by omega)]
    exact fun hmem => h (List.mem_of_mem_take ((List.takeWhile_prefix _).subset hmem))

theorem cutCommands_eq_iff {lines : List Text}
    (hlines : ∀ line ∈ lines, ∃ text, line = text ++ ['\n'] ∧ '\n' ∉ text) :
    cutCommands lines =
        through QuitLine (lines.filter fun line => line.length ≤ lineMax ∧ IsCommand line) ↔
      ∀ line ∈ through (fun line => QuitLine (lineString line)) lines,
        Whole line ∨ ¬ IsCommand (lineString line) := by
  induction lines with
  | nil => exact ⟨fun _ _ hmem => (nomatch hmem), fun _ => rfl⟩
  | cons line lines ih =>
    have hrest := ih fun other ho => hlines other (List.mem_cons_of_mem line ho)
    rw [cutCommands_cons, through]
    by_cases hwhole : Whole line
    · have hquits := @command_of_quit line
      rw [lineString_whole hwhole] at hquits ⊢
      by_cases hcommand : IsCommand line
      · rw [if_pos hcommand, List.filter_cons_of_pos (by simpa using ⟨hwhole.1, hcommand⟩), through]
        by_cases hquit : QuitLine line
        · rw [if_pos hquit, if_pos hquit, if_pos hquit]
          simp [hwhole]
        · rw [if_neg hquit, if_neg hquit, if_neg hquit, List.cons_inj_right, hrest]
          simp [hwhole]
      · have hquit : ¬ QuitLine line := fun h => hcommand (hquits h)
        rw [if_neg hcommand, if_neg hquit,
          List.filter_cons_of_neg (by simpa using fun _ => hcommand), hrest]
        simp [hwhole]
    · have hnot : ¬ (line.length ≤ lineMax ∧ IsCommand line) :=
        fun h => hwhole ⟨h.1, h.2.1⟩
      rw [List.filter_cons_of_neg (by simpa using hnot)]
      by_cases hcommand : IsCommand (lineString line)
      · -- the code takes the beginning of the line, which is not one of the lines
        have hne : lineString line ∉ through QuitLine
            (lines.filter fun line => line.length ≤ lineMax ∧ IsCommand line) := by
          intro hmem
          obtain ⟨text, rfl, hfree⟩ := hlines line List.mem_cons_self
          obtain ⟨_, he, _⟩ := hlines _ (List.mem_cons_of_mem _
            (List.mem_of_mem_filter ((through_initial _).subset hmem)))
          refine newline_notMem_cut hfree hwhole ?_
          rw [he]
          exact List.mem_append_right _ (List.mem_singleton_self _)
        rw [if_pos hcommand]
        constructor
        · intro he
          rw [← he] at hne
          exact absurd List.mem_cons_self hne
        · intro hall
          have hline : line ∈ if QuitLine (lineString line) then [line]
              else line :: through (fun line => QuitLine (lineString line)) lines := by
            split <;> exact List.mem_cons_self
          exact absurd hcommand ((hall line hline).resolve_left hwhole)
      · have hquit : ¬ QuitLine (lineString line) := fun h => hcommand (command_of_quit h)
        rw [if_neg hcommand, if_neg hquit, hrest]
        simp [hcommand]

end Commands

section Runs

variable [Zero V] [Add V] [Div V] [NatCast V] [LT V] [DecidableLT V] {w : World V} {s : Store V}

theorem serveLines_executed (hsends : ∀ n, w.sends n = true) {c : Session V}
    (hc : c.ending = .reading)
    (hparsed : ∀ x ∈ c.executed, ∃ n, getRequest w.lib (w.unset n) x.1 = some (some x.2))
    (lines : List Text) :
    (∀ x ∈ (serveLines w lines c).executed,
        ∃ n, getRequest w.lib (w.unset n) x.1 = some (some x.2)) ∧
      (serveLines w lines c).executed.map Prod.fst <+:
        c.executed.map Prod.fst ++ cutCommands lines ∧
      ((serveLines w lines c).ending ≠ .fault → (serveLines w lines c).executed.map Prod.fst =
        c.executed.map Prod.fst ++ cutCommands lines) := by
  induction lines generalizing c with
  | nil => exact ⟨hparsed, by simp [serveLines, cutCommands, through],
      fun _ => by simp [serveLines, cutCommands, through]⟩
  | cons line lines ih =>
    have hadd {c' : Session V} {n : Nat} {request : Request V}
        (hp : getRequest w.lib (w.unset n) (lineString line) = some (some request))
        (he : c'.executed = c.executed ++ [(lineString line, request)]) :
        ∀ x ∈ c'.executed, ∃ n, getRequest w.lib (w.unset n) x.1 = some (some x.2) := by
      intro x hx
      rw [he] at hx
      rcases List.mem_append.mp hx with hx | hx
      · exact hparsed x hx
      · rw [List.mem_singleton.mp hx]
        exact ⟨n, hp⟩
    have hcases := handleLine_cases hsends hc (line.take lineMax)
    rw [← lineString] at hcases
    rw [serveLines_cons, cutCommands_cons]
    generalize handleLine w (line.take lineMax) c = out at hcases
    cases hcases with
    | fault c' hend hstep hexecuted =>
      rw [if_neg Bool.false_ne_true]
      rcases hexecuted with he | ⟨n, request, hp, he⟩
      · exact ⟨by rwa [he], by rw [he]; exact List.prefix_append _ _, fun hne => absurd hend hne⟩
      · have hcommand := isCommand_lineString.mpr (form_of_request hp)
        refine ⟨hadd hp he, ?_, fun hne => absurd hend hne⟩
        rw [he, List.map_append, if_pos hcommand, List.prefix_append_right_inj]
        exact List.prefix_append [lineString line] _
    | rejected c' hend hstep hform he =>
      have hnot : ¬ IsCommand (lineString line) := fun h => hform (isCommand_lineString.mp h)
      rw [if_pos rfl, if_neg hnot, ← he]
      exact ih hend (by rwa [he])
    | quit c' n request hend hp hquit he =>
      rw [if_neg Bool.false_ne_true, if_pos (command_of_quit hquit), if_pos hquit, he,
        List.map_append]
      exact ⟨he ▸ hadd hp he, List.prefix_rfl, fun _ => rfl⟩
    | served c' n request hend hstep hp hquit he =>
      have hcommand := isCommand_lineString.mpr (form_of_request hp)
      have hrest := ih hend (hadd hp he)
      rw [he, List.map_append, List.append_assoc] at hrest
      rw [if_pos rfl, if_pos hcommand, if_neg hquit]
      exact hrest

theorem serveLines_reading (hsends : ∀ n, w.sends n = true) {c : Session V}
    (hc : c.ending = .reading) {lines : List Text} (h : (serveLines w lines c).ending = .reading) :
    ∀ line ∈ lines, ¬ QuitLine (lineString line) := by
  induction lines generalizing c with
  | nil => exact fun _ hmem => (nomatch hmem)
  | cons line lines ih =>
    have hcases := handleLine_cases hsends hc (line.take lineMax)
    rw [← lineString] at hcases
    rw [serveLines_cons] at h
    generalize handleLine w (line.take lineMax) c = out at hcases h
    cases hcases with
    | fault c' hend | quit c' n request hend =>
      rw [if_neg Bool.false_ne_true, hend] at h
      cases h
    | rejected c' hend hstep hform =>
      rw [if_pos rfl] at h
      exact List.forall_mem_cons.mpr
        ⟨fun hq => hform (isCommand_lineString.mp (command_of_quit hq)), ih hend h⟩
    | served c' n request hend hstep hp hquit =>
      rw [if_pos rfl] at h
      exact List.forall_mem_cons.mpr ⟨hquit, ih hend h⟩

def silent (c : Session V) : Session V := { c with sent := [] }

/-- Without a newline nothing is executed, even where the buffer is given up. -/
theorem segments_none {segments : List Text} (hsegments : '\n' ∉ segments.flatten) {t : Thread V}
    (hbuf : '\n' ∉ t.inbuf) :
    silent (segments.foldl (receive w) t).session = silent t.session := by
  induction segments generalizing t with
  | nil => rfl
  | cons segment segments ih =>
    rw [List.flatten_cons, List.mem_append, not_or] at hsegments
    have hstep : silent (receive w t segment).session = silent t.session ∧
        '\n' ∉ (receive w t segment).inbuf := by
      have hfree : '\n' ∉ t.inbuf ++ segment :=
        fun hmem => (List.mem_append.mp hmem).elim hbuf hsegments.1
      unfold receive
      split
      · exact ⟨rfl, hbuf⟩
      · split
        · exact ⟨rfl, List.not_mem_nil⟩
        · simp only [lineLoop_none hfree]
          exact ⟨trivial, hfree⟩
    rw [List.foldl_cons, ih hsegments.2 hstep.2, hstep.1]

/-- A buffer that is full holds an unfinished line that no newline may end any more. -/
theorem segments_tolerable (hsends : ∀ n, w.sends n = true) {segments : List Text}
    (hsize : ∀ segment ∈ segments, 1 ≤ segment.length ∧ segment.length ≤ 1024) {stream : Text}
    {t : Thread V} (h : Serves w s stream t) (hlines : Tolerable (stream ++ segments.flatten)) :
    silent (segments.foldl (receive w) t).session =
      silent (serveLines w (completeLines '\n' (stream ++ segments.flatten)) (.start s)) := by
  induction segments generalizing stream t with
  | nil =>
    rw [List.flatten_nil, List.append_nil, ← h.session]
    rfl
  | cons segment segments ih =>
    by_cases hroom : t.session.ending = .reading →
        (unfinished '\n' stream).length + segment.length < 8191
    · rw [List.flatten_cons, ← List.append_assoc] at hlines ⊢
      exact ih (fun other ho => hsize other (List.mem_cons_of_mem _ ho)) (h.receive hsends hroom)
        hlines
    · obtain ⟨hreading, hfull⟩ := Classical.not_imp.mp hroom
      have hle := (hsize segment List.mem_cons_self).2
      have hfree : '\n' ∉ (segment :: segments).flatten := by
        intro hmem
        obtain ⟨line, rest, he, hline⟩ := List.eq_append_cons_of_mem hmem
        have hbefore : ∀ line ∈ completeLines '\n' stream, ¬ QuitLine (lineString line) := by
          rw [h.session] at hreading
          exact serveLines_reading hsends rfl hreading
        rw [he] at hlines
        unfold Tolerable at hlines
        rw [completeLines_append_line stream hline, through_append hbefore, through] at hlines
        have hlong := (hlines (unfinished '\n' stream ++ line ++ ['\n'])
          (List.mem_append_right _ (by split <;> exact List.mem_cons_self))).1
        simp only [List.length_append, List.length_singleton] at hlong
        omega
      have hbuf : '\n' ∉ t.inbuf := by
        rw [h.inbuf hreading]
        exact newline_notMem_unfinished stream
      rw [segments_none hfree hbuf, completeLines_append_none stream hfree, ← h.session]

end Runs

end Tsdb.WholeLines
