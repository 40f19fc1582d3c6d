import Tsdb.CStrings
import Tsdb.Runs
import Tsdb.Strtok

namespace Tsdb.Parsing

open CStrings Runs Strtok

variable {ι : Type} [DecidableEq ι]

def delimiter (c : Char) : Bool := c = ' ' || c = '\r' || c = '\n'

/-- The loop of `parseString` when nobody else calls `strtok`, `fuel` calls at most. -/
def parseLoop : Nat → Text → List Text
  | 0, _ => []
  | fuel + 1, text =>
    match strtok delimiter text with
    | (none, _) => []
    | (some token, rest) => token :: parseLoop fuel rest

def parseString (buffer : Text) : List Text := parseLoop (buffer.length + 1) buffer

theorem parseLoop_eq {fuel : Nat} {text : Text} (h : text.length < fuel) :
    parseLoop fuel text = words delimiter text := by
  induction fuel generalizing text with
  | zero => omega
  | succ fuel ih =>
    rw [parseLoop, words_strtok]
    cases hs : strtok delimiter text with
    | mk token rest =>
      cases token with
      | none => rfl
      | some token =>
        have hlt := strtok_shorter delimiter hs
        simp only [ih (show rest.length < fuel by omega)]

theorem parseString_eq (buffer : Text) : parseString buffer = words delimiter buffer :=
  parseLoop_eq (Nat.lt_succ_self _)

/-- Where a client thread is in `parseString`: which line it copied into `temp`, and the tokens
it has in `subStrings`. -/
inductive Phase where
  | idle
  | parsing (line : Text) (tokens : List Text)
  | parsed (line : Text) (tokens : List Text)
  deriving DecidableEq

/-- The one position that `strtok` keeps for the process: in the buffer of some thread, with
this text behind it, or in a buffer that has been freed. -/
inductive Saved (ι : Type) where
  | null
  | inside (owner : ι) (rest : Text)
  | freed
  deriving DecidableEq

structure Process (ι : Type) where
  phase : ι → Phase
  saved : Saved ι

def Process.start : Process ι := ⟨fun _ => .idle, .null⟩

inductive Call (ι : Type) where
  | first (thread : ι) (line : Text)
  | next (thread : ι)

/-- `free(temp)`: a position in the thread's own buffer dangles. -/
def Saved.free (saved : Saved ι) (thread : ι) : Saved ι :=
  match saved with
  | .inside owner rest => if owner = thread then .freed else .inside owner rest
  | saved => saved

def Process.advance (s : Process ι) (thread owner : ι) (line : Text) (tokens : List Text)
    (text : Text) : Process ι :=
  match strtok delimiter text with
  | (some token, rest) =>
    ⟨Function.update s.phase thread (.parsing line (tokens ++ [token])), .inside owner rest⟩
  | (none, rest) =>
    ⟨Function.update s.phase thread (.parsed line tokens),
      (Saved.inside owner rest).free thread⟩

/-- `none` is a read through a null or freed pointer. -/
def Process.call (s : Process ι) : Call ι → Option (Process ι)
  | .first thread line =>
    match s.phase thread with
    | .parsing _ _ => none
    | _ => some (s.advance thread thread line [] line)
  | .next thread =>
    match s.phase thread, s.saved with
    | .parsing line tokens, .inside owner text => some (s.advance thread owner line tokens text)
    | _, _ => none

def Saved.owner : Saved ι → Option ι
  | .inside owner _ => some owner
  | _ => none

/-- A continuing call finds the position that the same thread's last call left. -/
def Undisturbed (s : Process ι) : Call ι → Prop
  | .first _ _ => True
  | .next thread => s.saved.owner = some thread

instance (s : Process ι) : ∀ call : Call ι, Decidable (Undisturbed s call)
  | .first _ _ => .isTrue trivial
  | .next thread => inferInstanceAs (Decidable (s.saved.owner = some thread))

def Interleaved : Process ι → Prop :=
  Reach (fun s => s = Process.start) (Guarded Undisturbed Process.call)

def OwnTokens (s : Process ι) (thread : ι) : Prop :=
  match s.phase thread with
  | .idle => True
  | .parsing line tokens => ∃ later, words delimiter line = tokens ++ later ∧
      ∀ rest, s.saved = .inside thread rest → later = words delimiter rest
  | .parsed line tokens => words delimiter line = tokens

omit [DecidableEq ι] in
theorem owner_inside {saved : Saved ι} {thread : ι} (h : saved.owner = some thread) :
    ∃ rest, saved = .inside thread rest := by
  cases saved with
  | null => cases h
  | freed => cases h
  | inside owner rest =>
    obtain rfl := Option.some.inj h
    exact ⟨rest, rfl⟩

theorem phase_advance_ne (s : Process ι) {thread other : ι} (h : other ≠ thread) (owner : ι)
    (line : Text) (tokens : List Text) (text : Text) :
    (s.advance thread owner line tokens text).phase other = s.phase other := by
  unfold Process.advance
  split <;> exact Function.update_of_ne h ..

/-- A thread that reads its own buffer leaves no position in another one. -/
theorem saved_advance_ne (s : Process ι) {thread other : ι} (h : other ≠ thread) (line : Text)
    (tokens : List Text) (text rest : Text) :
    (s.advance thread thread line tokens text).saved ≠ .inside other rest := by
  unfold Process.advance
  split
  · intro hsaved
    exact h (Saved.inside.inj hsaved).1.symm
  · simp [Saved.free]

theorem ownTokens_advance {s : Process ι} {thread : ι} {line : Text} {tokens : List Text}
    {text : Text} (hown : words delimiter line = tokens ++ words delimiter text)
    (hothers : ∀ other, other ≠ thread → OwnTokens s other) (other : ι) :
    OwnTokens (s.advance thread thread line tokens text) other := by
  by_cases hother : other = thread
  · subst hother
    rw [words_strtok delimiter text] at hown
    unfold OwnTokens Process.advance
    cases hs : strtok delimiter text with
    | mk token rest =>
      rw [hs] at hown
      cases token with
      | none =>
        simp only [Function.update_self]
        simpa using hown
      | some token =>
        simp only [Function.update_self]
        refine ⟨words delimiter rest, by simpa using hown, fun rest' hrest => ?_⟩
        rw [(Saved.inside.inj hrest).2]
  · have h := hothers other hother
    unfold OwnTokens at h ⊢
    rw [phase_advance_ne s hother]
    cases hp : s.phase other with
    | idle => trivial
    | parsing line' tokens' =>
      rw [hp] at h
      obtain ⟨later, hlater, _⟩ := h
      exact ⟨later, hlater, fun rest hrest => (saved_advance_ne s hother _ _ _ _ hrest).elim⟩
    | parsed line' tokens' =>
      rw [hp] at h
      exact h

theorem ownTokens_call {s s' : Process ι} {call : Call ι} (hs : ∀ thread, OwnTokens s thread)
    (hown : Undisturbed s call) (hcall : s.call call = some s') (thread : ι) :
    OwnTokens s' thread := by
  cases call with
  | first caller line =>
    have hadv : s.advance caller caller line [] line = s' := by
      unfold Process.call at hcall
      cases hp : s.phase caller <;> simp only [hp, reduceCtorEq, Option.some.injEq] at hcall
      · exact hcall
      · exact hcall
    rw [← hadv]
    exact ownTokens_advance rfl (fun other _ => hs other) thread
  | next caller =>
    obtain ⟨rest, hsaved⟩ := owner_inside hown
    unfold Process.call at hcall
    cases hp : s.phase caller with
    | idle => simp [hp] at hcall
    | parsed line tokens => simp [hp] at hcall
    | parsing line tokens =>
      simp only [hp, hsaved, Option.some.injEq] at hcall
      rw [← hcall]
      have h := hs caller
      unfold OwnTokens at h
      rw [hp] at h
      obtain ⟨later, hlater, hrest⟩ := h
      rw [hrest rest hsaved] at hlater
      exact ownTokens_advance hlater (fun other _ => hs other) thread

/-- While each thread's calls follow one another, every thread gets the tokens of its own line
one by one, and at the end of its loop it has them all. -/
theorem interleaved_tokens {s : Process ι} (h : Interleaved s) (thread : ι) :
    (∀ line tokens, s.phase thread = .parsing line tokens → tokens <+: words delimiter line) ∧
      ∀ line tokens, s.phase thread = .parsed line tokens → tokens = words delimiter line := by
  have hown : OwnTokens s thread := by
    refine Reach.invariant (fun s => ∀ thread, OwnTokens s thread) ?_ ?_ h thread
    · rintro _ rfl thread
      trivial
    · rintro call s s' hs ⟨hundisturbed, hcall⟩
      exact ownTokens_call hs hundisturbed hcall
  unfold OwnTokens at hown
  refine ⟨fun line tokens hp => ?_, fun line tokens hp => ?_⟩
  · rw [hp] at hown
    obtain ⟨later, hlater, _⟩ := hown
    exact ⟨later, hlater.symm⟩
  · rw [hp] at hown
    exact hown.symm

def Process.calls (calls : List (Call ι)) : Option (Process ι) :=
  calls.foldlM Process.call Process.start

theorem interleaved_tokens_in_turn : ∃ s : Process Bool,
    s.phase true = .parsed "GET m".toList ["GET".toList, "m".toList] ∧
      ["GET".toList, "m".toList] = words delimiter "GET m".toList := by
  obtain ⟨s, hs, hp⟩ := Option.bind_eq_some_iff.mp (show ((Process.calls
    [.first true "GET m".toList, .next true, .next true, .first false "QUIT".toList]).bind
      fun s => some (s.phase true)) = some (.parsed "GET m".toList ["GET".toList, "m".toList]) by
        decide)
  have hreach : Interleaved s := .run (.start rfl) _ (by decide) hs
  have hphase := Option.some.inj hp
  exact ⟨s, hphase, (interleaved_tokens hreach true).2 _ _ hphase⟩

/-- A client that starts in between takes the position away, and the first one goes on with its
line. -/
theorem clients_mix_tokens : ¬ ∀ (calls : List (Call Bool)) (s : Process Bool),
    Process.calls calls = some s → ∀ thread line tokens,
    s.phase thread = .parsed line tokens → tokens = words delimiter line := by
  intro h
  obtain ⟨s, hs, hp⟩ := Option.bind_eq_some_iff.mp (show ((Process.calls
    [.first true "GET m".toList, .first false "PUT n 5".toList, .next true, .next true,
      .next true]).bind fun s => some (s.phase true)) =
        some (.parsed "GET m".toList ["GET".toList, "n".toList, "5".toList]) by decide)
  have hc := h _ s hs true _ _ (Option.some.inj hp)
  rw [← parseString_eq] at hc
  exact absurd hc (by decide)

end Tsdb.Parsing
