import Tsdb.Lines
import Tsdb.Requests

namespace Tsdb.Connection

open CStrings Strtok Parsing Files Registry Server Requests Lines

variable {V : Type}

def cString (bytes : Text) : Text := bytes.takeWhile (· ≠ '\x00')

theorem cString_eq {text : Text} (h : '\x00' ∉ text) : cString text = text := by
  rw [cString, List.takeWhile_eq_self_iff]
  intro ch hch
  simpa using fun he : ch = '\x00' => h (he ▸ hch)

theorem zero_notMem_cString (bytes : Text) : '\x00' ∉ cString bytes :=
  fun h => absurd (List.mem_takeWhile_imp h) (by decide)

/-- What a client thread meets: how the library reads and prints doubles, the directories, and by
the number of lines before, the allocation for the request, the environment of its processing, and
what the other threads have done to the store; by the number of sends before, whether one succeeds. -/
structure World (V : Type) where
  lib : Strtod V
  fmts : Formats V
  registryDir : Text
  dataDir : Text
  unset : Nat → Request V
  env : Nat → Env
  others : Nat → Store V → Store V
  sends : Nat → Bool

def World.plain : World Nat where
  lib := .whole
  fmts := ⟨decimal, decimal⟩
  registryDir := []
  dataDir := ['d']
  unset _ := ⟨.quit, [], 0, 0, 0, 0, 0, []⟩
  env _ := ⟨0, .ok⟩
  others _ s := s
  sends _ := true

/-- The thread waits for bytes, it has returned after a `QUIT`, or the process is gone. -/
inductive Ending where
  | reading
  | quit
  | fault
  deriving DecidableEq, Repr

/-- The strings that `getRequest` was given, those of them that became requests and went to
`ProcessRequest`, and the texts sent. -/
structure Session (V : Type) where
  passed : List Text
  executed : List (Text × Request V)
  sent : List Text
  store : Store V
  ending : Ending

def Session.start (s : Store V) : Session V := ⟨[], [], [], s, .reading⟩

def Session.send (c : Session V) (t : Text) : Session V := { c with sent := c.sent ++ [t] }

structure Thread (V : Type) where
  inbuf : Text
  session : Session V

def lineMax : Nat := 1023

def lineString (line : Text) : Text := cString (line.take lineMax)

def QuitLine (line : Text) : Prop := words delimiter line = ["QUIT".toList]

instance (line : Text) : Decidable (QuitLine line) :=
  inferInstanceAs (Decidable (_ = _))

section Loops

variable [Zero V] [Add V] [Div V] [NatCast V] [LT V] [DecidableLT V] (w : World V)

/-- The body of the loop over lines, and whether the loop goes on. -/
def handleLine (line : Text) (c : Session V) : Session V × Bool :=
  let n := c.passed.length
  let line := cString line
  let c := { c with passed := c.passed ++ [line] }
  match getRequest w.lib (w.unset n) line with
  | none => ({ c with ending := .fault }, false)
  | some none => (c.send "Invalid Command!\n".toList, true)
  | some (some request) =>
    let c := { c with executed := c.executed ++ [(line, request)] }
    match processRequest w.fmts w.registryDir w.dataDir (w.env n) request (w.others n c.store) with
    | none => ({ c with ending := .fault }, false)
    | some (response, store) =>
      let c := { c with store := store }
      if response.runFurther = false then
        ({ c.send (reply response) with ending := .quit }, false)
      else if w.sends c.sent.length then (c.send (reply response), true)
      else (c, false)

/-- The loop over the lines of the buffer from `line_start` on, `fuel` rounds at most, and the
bytes it leaves. -/
def lineLoop : Nat → Text → Session V → Session V × Text
  | 0, text, c => (c, text)
  | fuel + 1, text, c =>
    match text.idxOf? '\n' with
    | none => (c, text)
    | some nl =>
      let linelen := nl + 1
      let copylen := if linelen < lineMax then linelen else lineMax
      let (c, goOn) := handleLine w (text.take copylen) c
      if goOn then lineLoop fuel (text.drop linelen) c else (c, text.drop linelen)

/-- What `recv` returns is put behind the buffer, unless the buffer cannot take it: then both are
given up. -/
def receive (t : Thread V) (bytes : Text) : Thread V :=
  if t.session.ending ≠ .reading then t
  else if 8192 - 1 ≤ t.inbuf.length + bytes.length then
    ⟨[], t.session.send "ERR line too long\n".toList⟩
  else
    let text := t.inbuf ++ bytes
    let (c, remaining) := lineLoop w (text.length + 1) text t.session
    ⟨remaining, c⟩

/-- `handleClient`, given what `recv` returns one after the other. -/
def handleClient (segments : List Text) (s : Store V) : Thread V :=
  segments.foldl (receive w) ⟨[], .start s⟩

def serveLines : List Text → Session V → Session V
  | [], c => c
  | line :: lines, c =>
    let (c, goOn) := handleLine w (line.take lineMax) c
    if goOn then serveLines lines c else c

section Steps

variable {w} {c : Session V}

theorem handleLine_passed (line : Text) :
    (handleLine w line c).1.passed = c.passed ++ [cString line] := by
  unfold handleLine
  dsimp only
  split
  · rfl
  · rfl
  · split
    · rfl
    · split
      · rfl
      · split <;> rfl

theorem processRequest_quit_iff {fmts : Formats V} {registryDir dataDir : Text} {env : Env}
    {request : Request V} {s s' : Store V} {response : Response}
    (h : processRequest fmts registryDir dataDir env request s = some (response, s')) :
    response.runFurther = false ↔ request.type = .quit := by
  unfold processRequest at h
  cases ht : request.type with
  | quit =>
    rw [ht] at h
    obtain ⟨rfl, _⟩ := Prod.mk.inj (Option.some.inj h)
    simp
  | put | get | flush =>
    rw [ht] at h
    obtain ⟨_, _, he⟩ := Option.map_eq_some_iff.mp h
    obtain ⟨rfl, _⟩ := Prod.mk.inj he
    simp
  | stats | agg =>
    rw [ht] at h
    obtain ⟨rfl, _⟩ := Prod.mk.inj (Option.some.inj h)
    simp

/-- What a string does to the store, in a thread that has passed so many before it; `none` is where
it kills the process. -/
def lineStep (w : World V) (x : Nat × Store V) (line : Text) : Option (Nat × Store V) :=
  match getRequest w.lib (w.unset x.1) line with
  | none => none
  | some none => some (x.1 + 1, x.2)
  | some (some request) =>
    (processRequest w.fmts w.registryDir w.dataDir (w.env x.1) request (w.others x.1 x.2)).map
      fun out => (x.1 + 1, out.2)

/-- What one line can do: it kills the process, is rejected, or becomes a request, after which the
loop goes on unless that was a `QUIT`. -/
inductive Handled (w : World V) (line : Text) (c : Session V) : Session V × Bool → Prop where
  | fault (c' : Session V) (hend : c'.ending = .fault)
    (hstep : lineStep w (c.passed.length, c.store) line = none)
    (hexecuted : c'.executed = c.executed ∨ ∃ n request,
      getRequest w.lib (w.unset n) line = some (some request) ∧
        c'.executed = c.executed ++ [(line, request)]) : Handled w line c (c', false)
  | rejected (c' : Session V) (hend : c'.ending = .reading)
    (hstep : lineStep w (c.passed.length, c.store) line = some (c.passed.length + 1, c'.store))
    (hform : ¬ Form (words delimiter line)) (hexecuted : c'.executed = c.executed)
    (hstore : c'.store = c.store) : Handled w line c (c', true)
  | quit (c' : Session V) (n : Nat) (request : Request V) (hend : c'.ending = .quit)
    (hparsed : getRequest w.lib (w.unset n) line = some (some request))
    (hquit : QuitLine line) (hexecuted : c'.executed = c.executed ++ [(line, request)]) :
    Handled w line c (c', false)
  | served (c' : Session V) (n : Nat) (request : Request V) (hend : c'.ending = .reading)
    (hstep : lineStep w (c.passed.length, c.store) line = some (c.passed.length + 1, c'.store))
    (hparsed : getRequest w.lib (w.unset n) line = some (some request))
    (hquit : ¬ QuitLine line) (hexecuted : c'.executed = c.executed ++ [(line, request)]) :
    Handled w line c (c', true)

theorem handleLine_cases (hsends : ∀ n, w.sends n = true) (hc : c.ending = .reading)
    (line : Text) : Handled w (cString line) c (handleLine w line c) := by
  have hstep : lineStep w (c.passed.length, c.store) (cString line) =
      match getRequest w.lib (w.unset c.passed.length) (cString line) with
      | none => none
      | some none => some (c.passed.length + 1, c.store)
      | some (some request) => (processRequest w.fmts w.registryDir w.dataDir
          (w.env c.passed.length) request (w.others c.passed.length c.store)).map
            fun out => (c.passed.length + 1, out.2) := rfl
  unfold handleLine
  dsimp only
  cases hparsed : getRequest w.lib (w.unset c.passed.length) (cString line) with
  | none =>
    rw [hparsed] at hstep
    exact .fault _ rfl hstep (.inl rfl)
  | some pointer =>
    rw [hparsed] at hstep
    cases pointer with
    | none => exact .rejected _ hc hstep (getRequest_null_iff.mp hparsed) rfl rfl
    | some request =>
      dsimp only at hstep ⊢
      cases hprocess : processRequest w.fmts w.registryDir w.dataDir (w.env c.passed.length)
          request (w.others c.passed.length c.store) with
      | none =>
        rw [hprocess] at hstep
        exact .fault _ rfl hstep (.inr ⟨_, request, hparsed, rfl⟩)
      | some out =>
        rw [hprocess] at hstep
        obtain ⟨response, store⟩ := out
        dsimp only
        by_cases hquit : response.runFurther = false
        · rw [if_pos hquit]
          exact .quit _ _ request rfl hparsed
            ((getRequest_quit_iff hparsed).mp ((processRequest_quit_iff hprocess).mp hquit)) rfl
        · rw [if_neg hquit, hsends, if_pos rfl]
          exact .served _ _ request hc hstep hparsed (fun h => hquit
            ((processRequest_quit_iff hprocess).mpr ((getRequest_quit_iff hparsed).mpr h))) rfl

theorem handleLine_goOn (hsends : ∀ n, w.sends n = true) (hc : c.ending = .reading) (line : Text) :
    (handleLine w line c).2 = true ↔ (handleLine w line c).1.ending = .reading := by
  have hcases := handleLine_cases hsends hc line
  generalize handleLine w line c = out at hcases
  cases hcases with
  | fault c' hend | quit c' n request hend | rejected c' hend | served c' n request hend =>
    simp [hend]

theorem serveLines_cons (line : Text) (lines : List Text) : serveLines w (line :: lines) c =
    if (handleLine w (line.take lineMax) c).2 then
      serveLines w lines (handleLine w (line.take lineMax) c).1
    else (handleLine w (line.take lineMax) c).1 := rfl

theorem serveLines_append (hsends : ∀ n, w.sends n = true) (hc : c.ending = .reading)
    (lines more : List Text) : serveLines w (lines ++ more) c =
      if (serveLines w lines c).ending = .reading then serveLines w more (serveLines w lines c)
      else serveLines w lines c := by
  induction lines generalizing c with
  | nil =>
    have hnil : serveLines w [] c = c := rfl
    rw [hnil, if_pos hc, List.nil_append]
  | cons line lines ih =>
    rw [List.cons_append, serveLines_cons, serveLines_cons]
    by_cases hon : (handleLine w (line.take lineMax) c).2 = true
    · rw [if_pos hon, if_pos hon, ih ((handleLine_goOn hsends hc _).mp hon)]
    · rw [if_neg hon, if_neg hon, if_neg fun he => hon ((handleLine_goOn hsends hc _).mpr he)]

theorem lineLoop_none {text : Text} (h : '\n' ∉ text) (fuel : Nat) :
    lineLoop w fuel text c = (c, text) := by
  cases fuel with
  | zero => rfl
  | succ fuel => rw [lineLoop, idxOf?_none h]

theorem lineLoop_line {line : Text} (h : '\n' ∉ line) (rest : Text) (fuel : Nat) :
    lineLoop w (fuel + 1) (line ++ '\n' :: rest) c =
      if (handleLine w ((line ++ ['\n']).take lineMax) c).2 then
        lineLoop w fuel rest (handleLine w ((line ++ ['\n']).take lineMax) c).1
      else ((handleLine w ((line ++ ['\n']).take lineMax) c).1, rest) := by
  have hsplit : line ++ '\n' :: rest = (line ++ ['\n']) ++ rest := by simp
  have hlen : line.length + 1 = (line ++ ['\n']).length := by simp
  have hcopy : (line ++ '\n' :: rest).take
      (if line.length + 1 < lineMax then line.length + 1 else lineMax) =
        (line ++ ['\n']).take lineMax := by
    rw [hsplit]
    split
    · rename_i hshort
      rw [List.take_append_of_le_length (by omega), List.take_of_length_le (by omega),
        List.take_of_length_le (by omega)]
    · rw [List.take_append_of_le_length (by omega)]
  have hrest : (line ++ '\n' :: rest).drop (line.length + 1) = rest := by
    rw [hsplit, hlen, List.drop_left]
  rw [lineLoop, idxOf?_line h]
  simp only [hcopy, hrest]

theorem lineLoop_serves (hsends : ∀ n, w.sends n = true) (hc : c.ending = .reading) {text : Text}
    {fuel : Nat} (hfuel : text.length < fuel) :
    (lineLoop w fuel text c).1 = serveLines w (completeLines '\n' text) c ∧
      ((lineLoop w fuel text c).1.ending = .reading →
        (lineLoop w fuel text c).2 = unfinished '\n' text) := by
  induction text using @stream_induction _ _ '\n' generalizing fuel c with
  | hnone text h =>
    rw [lineLoop_none h, completeLines_none h, unfinished_none h]
    exact ⟨rfl, fun _ => rfl⟩
  | hline line rest h ih =>
    obtain ⟨fuel, rfl⟩ := Nat.exists_eq_add_one_of_ne_zero (Nat.ne_of_gt (Nat.zero_lt_of_lt hfuel))
    rw [List.length_append, List.length_cons] at hfuel
    rw [lineLoop_line h, completeLines_line h, unfinished_line h, serveLines_cons]
    by_cases hon : (handleLine w ((line ++ ['\n']).take lineMax) c).2 = true
    · rw [if_pos hon, if_pos hon]
      exact ih ((handleLine_goOn hsends hc _).mp hon) (by omega)
    · rw [if_neg hon, if_neg hon]
      exact ⟨rfl, fun he => absurd ((handleLine_goOn hsends hc _).mpr he) hon⟩

end Steps

end Loops

end Tsdb.Connection
