import Tsdb.Folds
import Tsdb.Framing
import Tsdb.GetAnswer

namespace Tsdb.ClientSession

open CStrings Strtok Parsing Files Registry Server Requests Lines Connection Framing Query
  Downsample Aggregate Runs

variable {V : Type}

def bufferSize : Nat := 1024

/-- `fgets` into `message`: the text it reads and the input it leaves, nothing at the end. -/
def fgets (input : Text) : Option (Text × Text) :=
  if input = [] then none
  else
    let text := input.take (bufferSize - 1)
    match text.idxOf? '\n' with
    | none => some (text, input.drop (bufferSize - 1))
    | some nl => some (text.take (nl + 1), input.drop (nl + 1))

inductive Phase where
  | prompt
  | waiting
  | finished
  deriving DecidableEq, Repr

/-- A client and its thread of the server, with the bytes that are on their way. `typed` lists what
the client sent, and `shown` what `recv` gave it, one after the other; for the last of these, the
answer to `QUIT`, the client prints `bye:)`. -/
structure Talk (V : Type) where
  input : Text
  message : Text
  phase : Phase
  typed : List Text
  shown : List Text
  toServer : Text
  toClient : Text
  server : Thread V

def Talk.start (s : Store V) (input message : Text) : Talk V :=
  ⟨input, message, .prompt, [], [], [], [], ⟨[], .start s⟩⟩

/-- What the client sends next; at the end of the input that is the old `message` again. -/
def Talk.next (x : Talk V) : Text × Text := (fgets x.input).getD (x.message, [])

inductive Event where
  | type
  | hear (n : Nat)
  | print (n : Nat) (rest : Text)
  | close
  deriving DecidableEq, Repr

section Replies

variable {fmt : V → Text} {start stop : Int} {dir : Dir V}

theorem getChunk_length {a b : Answer} {chunk : ChunkMetadata}
    (ha : a.currentLen = a.result.text.length)
    (h : getChunk fmt start stop dir a chunk = some b) : b.currentLen = b.result.text.length := by
  unfold getChunk at h
  split at h
  · split at h
    · obtain rfl := Option.some.inj h
      exact ha
    · obtain ⟨disk, _, hdisk⟩ := Option.bind_eq_some_iff.mp h
      obtain ⟨result, hresult, rfl⟩ := Option.map_eq_some_iff.mp hdisk
      rw [TextBuffer.strcat_text hresult, TextBuffer.grow_text, List.length_append, ha]
  · obtain rfl := Option.some.inj h
    exact ha

theorem getMetric_ne_nil {m : MetricState V} {text : Text} {n : Nat}
    (h : getMetric fmt start stop m = some (text, n)) : text ≠ [] := by
  obtain ⟨a, ha, h⟩ := Option.bind_eq_some_iff.mp h
  obtain ⟨ram, _, h⟩ := Option.bind_eq_some_iff.mp h
  have hlen : a.currentLen = a.result.text.length :=
    Folds.foldlM_keeps (P := fun a => a.currentLen = a.result.text.length)
      (fun _ _ _ ha h => getChunk_length ha h) rfl ha
  rw [GetAnswer.getFinish_eq hlen] at h
  obtain ⟨rfl, _⟩ := Prod.mk.inj (Option.some.inj h)
  simp [pointsLine]

theorem handleGet_ne_nil {fmts : Formats V} {request : Request V} {s : Store V} {text : Text}
    (h : handleGet fmts request s = some (some text)) : text ≠ [] := by
  obtain ⟨answer, hanswer, h⟩ := Option.map_eq_some_iff.mp h
  obtain ⟨⟨t, n⟩, rfl, rfl⟩ := Option.map_eq_some_iff.mp h
  unfold headGet at hanswer
  split at hanswer
  · cases hanswer
  · obtain ⟨out, hmetric, he⟩ := Option.map_eq_some_iff.mp hanswer
    obtain rfl := Option.some.inj he
    exact getMetric_ne_nil hmetric

theorem headStats_ne_nil (metric : Text) (s : Store V) : headStats metric s ≠ [] := by
  unfold headStats
  split <;> simp

theorem aggText_ne_nil {answer : AggAnswer V}
    (h : ∀ text, answer = .error text → text ≠ []) : aggText fmt answer ≠ [] := by
  cases answer with
  | lines lines => simp [aggText]
  | error text => exact h text rfl

end Replies

section Run

variable [Zero V] [Add V] [Div V] [NatCast V] [LT V] [DecidableLT V]

theorem handleAgg_ne_nil (fmts : Formats V) (registryDir : Text) (request : Request V)
    (s : Store V) : handleAgg fmts registryDir request s ≠ [] := by
  unfold handleAgg
  split
  · simp
  · apply aggText_ne_nil
    intro text h
    unfold headAgg aggPoints at h
    repeat' split at h
    all_goals cases h
    all_goals simp

theorem reply_ne_nil {fmts : Formats V} {registryDir dataDir : Text} {env : Env}
    {request : Request V} {s s' : Store V} {response : Response}
    (h : processRequest fmts registryDir dataDir env request s = some (response, s')) :
    reply response ≠ [] := by
  unfold processRequest at h
  cases ht : request.type with
  | quit =>
    rw [ht] at h
    obtain ⟨rfl, _⟩ := Prod.mk.inj (Option.some.inj h)
    simp [reply]
  | put | flush =>
    rw [ht] at h
    obtain ⟨_, _, he⟩ := Option.map_eq_some_iff.mp h
    obtain ⟨rfl, _⟩ := Prod.mk.inj he
    simp [reply]
  | get =>
    rw [ht] at h
    obtain ⟨result, hget, he⟩ := Option.map_eq_some_iff.mp h
    obtain ⟨rfl, _⟩ := Prod.mk.inj he
    cases result with
    | none => simp [reply]
    | some text => simpa [reply] using handleGet_ne_nil hget
  | stats =>
    rw [ht] at h
    obtain ⟨rfl, _⟩ := Prod.mk.inj (Option.some.inj h)
    simpa [reply] using headStats_ne_nil request.metric s
  | agg =>
    rw [ht] at h
    obtain ⟨rfl, _⟩ := Prod.mk.inj (Option.some.inj h)
    simpa [reply] using handleAgg_ne_nil fmts registryDir request s

variable {w : World V} {c : Session V}

theorem handleLine_sent (hsends : ∀ n, w.sends n = true) (hc : c.ending = .reading) (line : Text) :
    (handleLine w line c).2 = false ∧ (handleLine w line c).1.ending = .fault ∧
        (handleLine w line c).1.sent = c.sent ∨
      ∃ text, text ≠ [] ∧ (handleLine w line c).1.sent = c.sent ++ [text] ∧
        ((handleLine w line c).1.ending = .reading ∨
          (handleLine w line c).1.ending = .quit ∧ text = "quit\n".toList) := by
  unfold handleLine
  dsimp only
  split
  · exact .inl ⟨rfl, rfl, rfl⟩
  · exact .inr ⟨_, by simp, rfl, .inl hc⟩
  · split
    · exact .inl ⟨rfl, rfl, rfl⟩
    · rename_i hprocess
      have hne := reply_ne_nil hprocess
      split
      · rename_i hquit
        refine .inr ⟨_, hne, rfl, .inr ⟨rfl, ?_⟩⟩
        rw [reply, hquit]
        rfl
      · rw [hsends, if_pos rfl]
        exact .inr ⟨_, hne, rfl, .inl hc⟩

theorem serveLines_one (line : Text) :
    serveLines w [line] c = (handleLine w (line.take lineMax) c).1 := by
  rw [serveLines_cons]
  split <;> rfl

theorem serveLines_sent (hsends : ∀ n, w.sends n = true) (hc : c.ending = .reading)
    (lines : List Text) : ∃ texts, (serveLines w lines c).sent = c.sent ++ texts ∧
      (lines ≠ [] → (serveLines w lines c).ending ≠ .fault → texts.flatten ≠ []) := by
  induction lines generalizing c with
  | nil => exact ⟨[], (List.append_nil _).symm, fun hne => absurd rfl hne⟩
  | cons line lines ih =>
    rw [serveLines_cons]
    rcases handleLine_sent hsends hc (line.take lineMax) with
      ⟨hstop, hfault, hsame⟩ | ⟨text, hne, hsent, _⟩
    · rw [if_neg (by rw [hstop]; exact Bool.false_ne_true), hsame]
      exact ⟨[], (List.append_nil _).symm, fun _ h => absurd hfault h⟩
    · have hnew (texts : List Text) : (text :: texts).flatten ≠ [] :=
        fun h => hne (List.append_eq_nil_iff.mp h).1
      by_cases hon : (handleLine w (line.take lineMax) c).2 = true
      · rw [if_pos hon]
        obtain ⟨texts, htexts, _⟩ := ih ((handleLine_goOn hsends hc _).mp hon)
        refine ⟨text :: texts, ?_, fun _ _ => hnew texts⟩
        rw [htexts, hsent, List.append_assoc, List.singleton_append]
      · rw [if_neg hon]
        exact ⟨[text], hsent, fun _ _ => hnew []⟩

def Talk.run (w : World V) (x : Talk V) : Event → Option (Talk V)
  | .type =>
    if x.phase = .prompt then
      some { x with
        input := x.next.2
        message := x.next.1
        phase := .waiting
        typed := x.typed ++ [cString x.next.1]
        toServer := x.toServer ++ cString x.next.1 }
    else none
  | .hear n =>
    if x.server.session.ending = .reading ∧ 1 ≤ n ∧ n ≤ bufferSize ∧ n ≤ x.toServer.length then
      let server := receive w x.server (x.toServer.take n)
      let sent := server.session.sent.drop x.server.session.sent.length
      some { x with
        toServer := x.toServer.drop n
        toClient := x.toClient ++ sent.flatten
        server := server }
    else none
  | .print n rest =>
    if x.phase = .waiting ∧ 1 ≤ n ∧ n ≤ bufferSize - 1 ∧ n ≤ x.toClient.length then
      let buffer := x.toClient.take n
      some { x with
        phase := if (buffer ++ rest).take 4 = "quit".toList then .finished else .prompt
        shown := x.shown ++ [buffer]
        toClient := x.toClient.drop n }
    else none
  | .close =>
    if x.phase = .waiting ∧ x.toClient = [] ∧ x.server.session.ending ≠ .reading then
      some { x with phase := .finished }
    else none

structure Line (text : Text) : Prop where
  length : text.length ≤ bufferSize - 1
  zero : '\x00' ∉ text
  last : text.getLast? = some '\n'
  before : '\n' ∉ text.dropLast

theorem line_iff {text : Text} : Line text ↔ text.length ≤ bufferSize - 1 ∧ '\x00' ∉ text ∧
    text.getLast? = some '\n' ∧ '\n' ∉ text.dropLast :=
  ⟨fun ⟨h1, h2, h3, h4⟩ => ⟨h1, h2, h3, h4⟩, fun ⟨h1, h2, h3, h4⟩ => ⟨h1, h2, h3, h4⟩⟩

instance (text : Text) : Decidable (Line text) := decidable_of_iff' _ line_iff

theorem Line.split {text : Text} (h : Line text) : ∃ line, text = line ++ ['\n'] ∧ '\n' ∉ line := by
  obtain ⟨line, rfl⟩ := List.getLast?_eq_some_iff.mp h.last
  have hfree := h.before
  rw [List.dropLast_concat] at hfree
  exact ⟨line, rfl, hfree⟩

def Typed (x : Talk V) : Event → Prop
  | .type => Line x.next.1
  | _ => True

instance (x : Talk V) : ∀ e, Decidable (Typed x e)
  | .type => inferInstanceAs (Decidable (Line _))
  | .hear _ | .print _ _ | .close => .isTrue trivial

def Talking (w : World V) (s : Store V) : Talk V → Prop :=
  Reach (fun x => ∃ input message, x = Talk.start s input message)
    (Guarded Typed (Talk.run w))

/-- What the server has heard so far it has served, line by line; what it has answered is shown or
on its way; and somebody can go on. -/
structure InTouch (w : World V) (s : Store V) (x : Talk V) (heard : Text) : Prop where
  stream : heard ++ x.toServer = x.typed.flatten
  serves : Serves w s heard x.server
  lines : ∀ line ∈ x.typed, Line line
  answers : x.shown.flatten ++ x.toClient = x.server.session.sent.flatten
  goesOn : x.phase = .waiting →
    x.toServer ≠ [] ∨ x.toClient ≠ [] ∨ x.server.session.ending ≠ .reading

theorem inTouch_type {s : Store V} {x x' : Talk V} {heard : Text} (h : InTouch w s x heard)
    (htyped : Typed x .type) (hrun : x.run w .type = some x') : InTouch w s x' heard := by
  unfold Talk.run at hrun
  obtain ⟨_, he⟩ := Option.ite_none_right_eq_some.mp hrun
  obtain rfl := Option.some.inj he
  have hline : cString x.next.1 = x.next.1 := cString_eq htyped.zero
  refine ⟨?_, h.serves, ?_, h.answers, fun _ => .inl ?_⟩
  · dsimp only
    rw [← List.append_assoc, h.stream, List.flatten_append, List.flatten_singleton]
  · dsimp only
    rw [hline]
    exact List.forall_mem_append.mpr ⟨h.lines, List.forall_mem_singleton.mpr htyped⟩
  · obtain ⟨line, hend, _⟩ := htyped.split
    dsimp only
    rw [hline, hend]
    simp

theorem inTouch_hear (hsends : ∀ n, w.sends n = true) {s : Store V} {x x' : Talk V} {heard : Text}
    (h : InTouch w s x heard) {n : Nat} (hrun : x.run w (.hear n) = some x') :
    InTouch w s x' (heard ++ x.toServer.take n) := by
  unfold Talk.run at hrun
  obtain ⟨⟨hreading, hpos, hmax, havail⟩, he⟩ := Option.ite_none_right_eq_some.mp hrun
  obtain rfl := Option.some.inj he
  have hlen : (x.toServer.take n).length = n := List.length_take_of_le havail
  obtain ⟨hlines, htail⟩ := completeLines_flatten fun line hline => (h.lines line hline).split
  have hmore : x.toServer ≠ [] := by
    rintro hnil
    rw [hnil] at havail
    exact absurd (hpos.trans havail) (by decide)
  -- a line that fits into `message` never fills the server's buffer
  have hshort : (unfinished '\n' heard).length < bufferSize := by
    apply unfinished_length_lt hmore
    · rw [h.stream, hlines]
      exact fun line hline => (h.lines line hline).length.trans (Nat.sub_le _ _)
    · rw [h.stream, htail]
      exact Nat.zero_le _
  have hserves : Serves w s (heard ++ x.toServer.take n) (receive w x.server (x.toServer.take n)) :=
    h.serves.receive hsends fun _ => by
      unfold bufferSize at hshort hmax
      omega
  have hsession : (receive w x.server (x.toServer.take n)).session = serveLines w
      (completeLines '\n' (unfinished '\n' heard ++ x.toServer.take n)) x.server.session := by
    rw [hserves.session, completeLines_append, serveLines_append hsends rfl, ← h.serves.session,
      if_pos hreading]
  obtain ⟨texts, hsent, hanswered⟩ := serveLines_sent hsends hreading
    (completeLines '\n' (unfinished '\n' heard ++ x.toServer.take n))
  rw [← hsession] at hsent hanswered
  refine ⟨?_, hserves, h.lines, ?_, fun _ => ?_⟩
  · rw [List.append_assoc, List.take_append_drop, h.stream]
  · dsimp only
    rw [hsent, List.drop_left, ← List.append_assoc, h.answers, List.flatten_append]
  · dsimp only
    rw [hsent, List.drop_left]
    by_cases hrest : x.toServer.drop n = []
    · -- the server has heard all of the line that the client waits for
      have hall : x.toServer.take n = x.toServer := by
        have := List.take_append_drop n x.toServer
        rwa [hrest, List.append_nil] at this
      rw [hall] at hanswered ⊢
      have hnone : unfinished '\n' (unfinished '\n' heard ++ x.toServer) = [] := by
        rw [← unfinished_append, h.stream, htail]
      have hjoin := @lines_join _ _ '\n' (unfinished '\n' heard ++ x.toServer)
      rw [hnone, List.append_nil] at hjoin
      have hcomplete : completeLines '\n' (unfinished '\n' heard ++ x.toServer) ≠ [] := by
        intro hno
        rw [hno] at hjoin
        exact hmore (List.append_eq_nil_iff.mp hjoin.symm).2
      by_cases hfault : (receive w x.server x.toServer).session.ending = .fault
      · exact .inr (.inr (by rw [hfault]; exact fun h => nomatch h))
      · refine .inr (.inl fun hno => hanswered hcomplete hfault ?_)
        exact (List.append_eq_nil_iff.mp hno).2
    · exact .inl hrest

theorem inTouch_print {s : Store V} {x x' : Talk V} {heard : Text} (h : InTouch w s x heard)
    {n : Nat} {rest : Text} (hrun : x.run w (.print n rest) = some x') : InTouch w s x' heard := by
  unfold Talk.run at hrun
  obtain ⟨_, he⟩ := Option.ite_none_right_eq_some.mp hrun
  obtain rfl := Option.some.inj he
  refine ⟨h.stream, h.serves, h.lines, ?_, fun hwaiting => ?_⟩
  · dsimp only
    rw [List.flatten_append, List.flatten_singleton, List.append_assoc, List.take_append_drop,
      h.answers]
  · dsimp only at hwaiting
    split at hwaiting <;> cases hwaiting

theorem inTouch_close {s : Store V} {x x' : Talk V} {heard : Text} (h : InTouch w s x heard)
    (hrun : x.run w .close = some x') : InTouch w s x' heard := by
  unfold Talk.run at hrun
  obtain ⟨_, he⟩ := Option.ite_none_right_eq_some.mp hrun
  obtain rfl := Option.some.inj he
  exact ⟨h.stream, h.serves, h.lines, h.answers, fun hwaiting => (nomatch hwaiting)⟩

theorem InTouch.run (hsends : ∀ n, w.sends n = true) {s : Store V} {x x' : Talk V} {heard : Text}
    (h : InTouch w s x heard) {e : Event} (hstep : Guarded Typed (Talk.run w) e x x') :
    ∃ heard', InTouch w s x' heard' := by
  cases e with
  | type => exact ⟨_, inTouch_type h hstep.1 hstep.2⟩
  | hear n => exact ⟨_, inTouch_hear hsends h hstep.2⟩
  | print n rest => exact ⟨_, inTouch_print h hstep.2⟩
  | close => exact ⟨_, inTouch_close h hstep.2⟩

theorem talking_inTouch (hsends : ∀ n, w.sends n = true) {s : Store V} {x : Talk V}
    (h : Talking w s x) : ∃ heard, InTouch w s x heard := by
  apply h.invariant
  · rintro x ⟨input, message, rfl⟩
    exact ⟨[], rfl, serves_start, List.forall_mem_nil _, rfl, fun hwaiting => nomatch hwaiting⟩
  · exact fun e x x' ⟨heard, hx⟩ hstep => hx.run hsends hstep

theorem InTouch.lines_heard {s : Store V} {x : Talk V} {heard : Text} (h : InTouch w s x heard) :
    completeLines '\n' heard <+: x.typed := by
  obtain ⟨hlines, _⟩ := completeLines_flatten fun line hline => (h.lines line hline).split
  rw [← hlines, ← h.stream, completeLines_append]
  exact List.prefix_append _ _

/-- A client that waits can be helped: the server hears it, it is shown something, or it learns that
the server is gone. -/
theorem InTouch.goes {s : Store V} {x : Talk V} {heard : Text} (h : InTouch w s x heard)
    (hwaiting : x.phase = .waiting) : ∃ e, e ≠ .type ∧ (x.run w e).isSome := by
  by_cases hanswer : x.toClient = []
  · by_cases hreading : x.server.session.ending = .reading
    · have hmore : x.toServer ≠ [] :=
        ((h.goesOn hwaiting).resolve_right fun h => h.elim (· hanswer) (· hreading))
      have hpos := List.length_pos_iff.mpr hmore
      refine ⟨.hear 1, (fun h => nomatch h), ?_⟩
      rw [Talk.run, if_pos ⟨hreading, le_refl 1, by decide, hpos⟩]
      rfl
    · refine ⟨.close, (fun h => nomatch h), ?_⟩
      rw [Talk.run, if_pos ⟨hwaiting, hanswer, hreading⟩]
      rfl
  · have hpos := List.length_pos_iff.mpr hanswer
    refine ⟨.print 1 [], (fun h => nomatch h), ?_⟩
    rw [Talk.run, if_pos ⟨hwaiting, le_refl 1, by decide, hpos⟩]
    rfl

private def first : Talk Nat := Talk.start Store.empty "STATS m\nQUIT\n".toList []

/-- Every `recv` takes all that is there; so no answer is longer than what `buffer` can hold. -/
def AtOnce (x : Talk V) : Event → Prop
  | .hear n => n = x.toServer.length
  | .print n _ => n = x.toClient.length
  | _ => True

instance (x : Talk V) : ∀ e, Decidable (AtOnce x e)
  | .hear n => inferInstanceAs (Decidable (n = _))
  | .print n _ => inferInstanceAs (Decidable (n = _))
  | .type | .close => .isTrue trivial

/-- Whose turn it is: one line is on its way to the server or one answer to the client, or neither
of them, unless the server or the client is gone. -/
inductive Turn (x : Talk V) : Prop where
  | prompt (hphase : x.phase = .prompt) (hreading : x.server.session.ending = .reading)
    (hserver : x.toServer = []) (hclient : x.toClient = [])
    (hshown : x.shown = x.server.session.sent) (hcount : x.shown.length = x.typed.length)
  | asked (served : List Text) (line : Text) (hphase : x.phase = .waiting)
    (hreading : x.server.session.ending = .reading) (htyped : x.typed = served ++ [line])
    (hserver : x.toServer = line) (hclient : x.toClient = [])
    (hshown : x.shown = x.server.session.sent) (hcount : x.shown.length = served.length)
  | answered (hphase : x.phase = .waiting) (hserver : x.toServer = [])
    (hsent : x.server.session.sent = x.shown ++ [x.toClient]) (hanswer : x.toClient ≠ [])
    (hcount : x.shown.length + 1 = x.typed.length)
    (hend : x.server.session.ending = .reading ∨
      x.server.session.ending = .quit ∧ x.toClient = "quit\n".toList)
  | gone (hphase : x.phase ≠ .prompt) (hserver : x.toServer = []) (hclient : x.toClient = [])
    (hshown : x.shown = x.server.session.sent)

theorem turn_type {x x' : Talk V} (h : Turn x) (htyped : Typed x .type)
    (hrun : x.run w .type = some x') : Turn x' := by
  unfold Talk.run at hrun
  obtain ⟨hphase, he⟩ := Option.ite_none_right_eq_some.mp hrun
  obtain rfl := Option.some.inj he
  have hline : cString x.next.1 = x.next.1 := cString_eq htyped.zero
  cases h with
  | prompt _ hreading hserver hclient hshown hcount =>
    refine .asked x.typed x.next.1 rfl hreading ?_ ?_ hclient hshown hcount
    · dsimp only
      rw [hline]
    · dsimp only
      rw [hserver, hline, List.nil_append]
  | asked _ _ hwaiting => exact nomatch hphase.symm.trans hwaiting
  | answered hwaiting => exact nomatch hphase.symm.trans hwaiting
  | gone hgone => exact absurd hphase hgone

theorem turn_hear (hsends : ∀ n, w.sends n = true) {s : Store V} {x x' : Talk V} {heard : Text}
    (hx : InTouch w s x heard) (h : Turn x) {n : Nat} (honce : AtOnce x (.hear n))
    (hrun : x.run w (.hear n) = some x') : Turn x' := by
  have hx' := inTouch_hear hsends hx hrun
  unfold Talk.run at hrun
  obtain ⟨⟨_, hpos, _⟩, he⟩ := Option.ite_none_right_eq_some.mp hrun
  obtain rfl := Option.some.inj he
  obtain rfl : n = x.toServer.length := honce
  have hno {P : Prop} (hserver : x.toServer = []) : P := by
    rw [hserver] at hpos
    exact absurd hpos (by decide)
  cases h with
  | prompt _ _ hserver => exact hno hserver
  | answered _ hserver => exact hno hserver
  | gone _ hserver => exact hno hserver
  | asked served line hphase hreading htyped hserver hclient hshown hcount =>
    have hheard : heard = served.flatten := by
      have hstream := hx.stream
      rw [htyped, hserver, List.flatten_append, List.flatten_singleton] at hstream
      exact List.append_cancel_right hstream
    have hlines := hx.lines
    rw [htyped] at hlines
    have hserved := (completeLines_flatten fun other ho =>
      (hlines other (List.mem_append_left _ ho)).split).1
    have hall := (completeLines_flatten fun other ho => (hlines other ho).split).1
    rw [List.flatten_append, List.flatten_singleton] at hall
    have hbefore := hx.serves.session
    have hone : (receive w x.server (x.toServer.take x.toServer.length)).session = _ :=
      hx'.serves.session
    rw [hheard, hserved] at hbefore
    rw [hheard, List.take_length, hserver, hall, serveLines_append hsends rfl, ← hbefore,
      if_pos hreading, serveLines_one] at hone
    have hanswer := handleLine_sent hsends hreading (line.take lineMax)
    rw [← hone] at hanswer
    have htake : x.toServer.take x.toServer.length = line := by rw [List.take_length, hserver]
    rcases hanswer with ⟨_, hfault, hsame⟩ | ⟨text, hne, hsent, hend⟩
    · refine .gone (by rw [hphase]; exact fun h => nomatch h) ?_ ?_ ?_
      · exact List.drop_length
      · dsimp only
        rw [htake, hsame, List.drop_length, hclient]
        rfl
      · dsimp only
        rw [htake, hsame, hshown]
    · have hnew : x.toClient ++ ((receive w x.server line).session.sent.drop
          x.server.session.sent.length).flatten = text := by
        rw [hsent, List.drop_left, hclient, List.flatten_singleton, List.nil_append]
      refine .answered hphase List.drop_length ?_ ?_ ?_ ?_
      · dsimp only
        rw [htake, hnew, hsent, hshown]
      · dsimp only
        rwa [htake, hnew]
      · dsimp only
        rw [htyped, List.length_append, List.length_singleton, hcount]
      · dsimp only
        rwa [htake, hnew]

theorem turn_print {x x' : Talk V} (h : Turn x) {n : Nat} {rest : Text}
    (honce : AtOnce x (.print n rest)) (hrun : x.run w (.print n rest) = some x') : Turn x' := by
  unfold Talk.run at hrun
  obtain ⟨⟨hwaiting, hpos, _⟩, he⟩ := Option.ite_none_right_eq_some.mp hrun
  obtain rfl := Option.some.inj he
  obtain rfl : n = x.toClient.length := honce
  have hno {P : Prop} (hclient : x.toClient = []) : P := by
    rw [hclient] at hpos
    exact absurd hpos (by decide)
  cases h with
  | prompt _ _ _ hclient => exact hno hclient
  | asked _ _ _ _ _ _ hclient => exact hno hclient
  | gone _ _ hclient => exact hno hclient
  | answered _ hserver hsent _ hcount hend =>
    have hshown : x.shown ++ [x.toClient.take x.toClient.length] = x.server.session.sent := by
      rw [List.take_length, hsent]
    rcases hend with hreading | ⟨_, hquit⟩
    · by_cases hbye : (x.toClient.take x.toClient.length ++ rest).take 4 = "quit".toList
      · refine .gone ?_ hserver List.drop_length hshown
        dsimp only
        rw [if_pos hbye]
        exact fun h => nomatch h
      · refine .prompt ?_ hreading hserver List.drop_length hshown ?_
        · dsimp only
          rw [if_neg hbye]
        · dsimp only
          rw [List.length_append, List.length_singleton, hcount]
    · refine .gone ?_ hserver List.drop_length hshown
      have hbye : ("quit\n".toList ++ rest).take 4 = "quit".toList := by simp
      dsimp only
      rw [List.take_length, hquit, if_pos hbye]
      exact fun h => nomatch h

theorem turn_close {x x' : Talk V} (h : Turn x) (hrun : x.run w .close = some x') : Turn x' := by
  unfold Talk.run at hrun
  obtain ⟨⟨hwaiting, hnone, hend⟩, he⟩ := Option.ite_none_right_eq_some.mp hrun
  obtain rfl := Option.some.inj he
  cases h with
  | prompt hphase => exact nomatch hphase.symm.trans hwaiting
  | asked _ _ _ hreading => exact absurd hreading hend
  | answered _ _ _ hanswer => exact absurd hnone hanswer
  | gone _ hserver _ hshown => exact .gone (fun h => nomatch h) hserver hnone hshown

/-- Where every `recv` takes all that is there, client and server stay in step: what the client
shows are the server's answers, whole and in their order, and at the prompt every typed line has
been served and has its own one. -/
theorem answers_in_step (hsends : ∀ n, w.sends n = true) {s : Store V} {x : Talk V}
    (h : Reach (fun x => ∃ input message, x = Talk.start s input message)
      (Guarded (fun x e => Typed x e ∧ AtOnce x e) (Talk.run w)) x) :
    x.shown <+: x.server.session.sent ∧
      (x.phase = .prompt → x.server.session = serveLines w x.typed (.start s) ∧
        x.shown = x.server.session.sent ∧ x.shown.length = x.typed.length) := by
  have hturn : (∃ heard, InTouch w s x heard) ∧ Turn x := by
    apply h.invariant fun x => (∃ heard, InTouch w s x heard) ∧ Turn x
    · rintro x ⟨input, message, rfl⟩
      exact ⟨⟨[], rfl, serves_start, List.forall_mem_nil _, rfl, fun h => nomatch h⟩,
        .prompt rfl rfl rfl rfl rfl rfl⟩
    · rintro e x x' ⟨⟨heard, hx⟩, hturn⟩ ⟨⟨htyped, honce⟩, hrun⟩
      refine ⟨hx.run hsends ⟨htyped, hrun⟩, ?_⟩
      cases e with
      | type => exact turn_type hturn htyped hrun
      | hear n => exact turn_hear hsends hx hturn honce hrun
      | print n rest => exact turn_print hturn honce hrun
      | close => exact turn_close hturn hrun
  obtain ⟨⟨heard, hx⟩, hturn⟩ := hturn
  cases hturn with
  | prompt hphase hreading hserver hclient hshown hcount =>
    refine ⟨hshown ▸ List.prefix_rfl, fun _ => ⟨?_, hshown, hcount⟩⟩
    have hstream := hx.stream
    rw [hserver, List.append_nil] at hstream
    rw [hx.serves.session, hstream,
      (completeLines_flatten fun line hline => (hx.lines line hline).split).1]
  | asked _ _ hphase _ _ _ _ hshown =>
    exact ⟨hshown ▸ List.prefix_rfl, fun h => nomatch h.symm.trans hphase⟩
  | answered hphase _ hsent =>
    exact ⟨hsent ▸ List.prefix_append _ _, fun h => nomatch h.symm.trans hphase⟩
  | gone hphase _ _ hshown => exact ⟨hshown ▸ List.prefix_rfl, fun h => absurd h hphase⟩

private def asksTwice : Talk Nat := Talk.start Store.empty "STATS m\nSTATS n\n".toList []

theorem answers_in_step_two : ∃ x : Talk Nat,
    x.typed = ["STATS m\n".toList, "STATS n\n".toList] ∧
    x.shown = ["Metric not found: m\n".toList, "Metric not found: n\n".toList] ∧
    x.shown = x.server.session.sent := by
  let events : List Event := [.type, .hear 8, .print 20 [], .type, .hear 8, .print 20 []]
  obtain ⟨x, hx⟩ : ∃ x, events.foldlM (Talk.run World.plain) asksTwice = some x :=
    Option.isSome_iff_exists.mp (by decide +kernel)
  have hend : (events.foldlM (Talk.run World.plain) asksTwice).map
      (fun x => (x.typed, x.shown, x.phase)) =
        some (["STATS m\n".toList, "STATS n\n".toList],
          ["Metric not found: m\n".toList, "Metric not found: n\n".toList], .prompt) := by
    decide +kernel
  rw [hx] at hend
  obtain ⟨htyped, hend⟩ := Prod.mk.inj (Option.some.inj hend)
  obtain ⟨hshown, hphase⟩ := Prod.mk.inj hend
  obtain ⟨_, hall⟩ := answers_in_step (w := World.plain) (fun _ => rfl)
    (Reach.run (.start ⟨_, _, rfl⟩) events (by decide +kernel) hx)
  exact ⟨x, htyped, hshown, (hall hphase).2.1⟩

end Run

end Tsdb.ClientSession
