import Tsdb.Runs

namespace Tsdb.Critical

open Runs

variable {ι σ τ α κ : Type} [DecidableEq ι]

/-- Code around one lock: where an action takes a thread that gets the lock, and what it does to
the shared state step by step, until a step gives the lock back. -/
structure Code (σ τ α κ : Type) where
  enter : τ → α → Option κ
  step : κ → σ → (κ ⊕ τ) × σ

/-- The shared state, every thread at its place outside or somewhere inside, and who has the
lock. -/
structure System (ι σ τ κ : Type) where
  shared : σ
  thread : ι → τ ⊕ κ
  lock : Option ι

/-- Any thread may do its next step at any time; only getting the lock has to wait. -/
inductive Move (code : Code σ τ α κ) : ι → System ι σ τ κ → System ι σ τ κ → Prop where
  | acquire {s : System ι σ τ κ} {i : ι} {place : τ} {k : κ} (action : α) (hfree : s.lock = none)
    (hi : s.thread i = .inl place) (hk : code.enter place action = some k) :
    Move code i s ⟨s.shared, Function.update s.thread i (.inr k), some i⟩
  | step {s : System ι σ τ κ} {i : ι} {k k' : κ} {x : σ} (hi : s.thread i = .inr k)
    (hx : code.step k s.shared = (.inl k', x)) :
    Move code i s ⟨x, Function.update s.thread i (.inr k'), s.lock⟩
  | release {s : System ι σ τ κ} {i : ι} {k : κ} {place : τ} {x : σ} (hi : s.thread i = .inr k)
    (hx : code.step k s.shared = (.inr place, x)) :
    Move code i s ⟨x, Function.update s.thread i (.inl place), none⟩

inductive Section (code : Code σ τ α κ) : κ → σ → τ → σ → Prop where
  | last {k : κ} {x y : σ} {place : τ} (h : code.step k x = (.inr place, y)) :
    Section code k x place y
  | next {k k' : κ} {x x' y : σ} {place : τ} (h : code.step k x = (.inl k', x'))
    (hrest : Section code k' x' place y) : Section code k x place y

inductive Inside (code : Code σ τ α κ) (k : κ) (x : σ) : κ → σ → Prop where
  | refl : Inside code k x k x
  | tail {k' k'' : κ} {x' x'' : σ} (h : Inside code k x k' x')
    (hx : code.step k' x' = (.inl k'', x'')) : Inside code k x k'' x''

structure Outside (ι σ τ : Type) where
  shared : σ
  place : ι → τ

inductive Whole (code : Code σ τ α κ) : ι × α → Outside ι σ τ → Outside ι σ τ → Prop where
  | run {s : Outside ι σ τ} {i : ι} {action : α} {k : κ} {place : τ} {y : σ}
    (hk : code.enter (s.place i) action = some k) (hs : Section code k s.shared place y) :
    Whole code (i, action) s ⟨y, Function.update s.place i place⟩

variable {code : Code σ τ α κ}

theorem section_inl {k k' : κ} {x x' y : σ} {place : τ} (h : code.step k x = (.inl k', x')) :
    Section code k x place y ↔ Section code k' x' place y := by
  refine ⟨fun hs => ?_, .next h⟩
  cases hs with
  | last hlast => rw [h] at hlast; cases hlast
  | next hnext hrest =>
    rw [h] at hnext
    cases hnext
    exact hrest

theorem section_inr {k : κ} {x x' y : σ} {place place' : τ}
    (h : code.step k x = (.inr place', x')) :
    Section code k x place y ↔ place = place' ∧ y = x' := by
  constructor
  · intro hs
    cases hs with
    | last hlast => rw [h] at hlast; cases hlast; exact ⟨rfl, rfl⟩
    | next hnext _ => rw [h] at hnext; cases hnext
  · rintro ⟨rfl, rfl⟩
    exact .last h

/-- Code whose steps go down in some rank gives the lock back. -/
theorem section_ends {rank : κ → Nat}
    (hrank : ∀ k x k' x', code.step k x = (.inl k', x') → rank k' < rank k) (k : κ) (x : σ) :
    ∃ place y, Section code k x place y := by
  induction hn : rank k using Nat.strong_induction_on generalizing k x with
  | _ n ih =>
    cases hstep : code.step k x with
    | mk next x' =>
      cases next with
      | inr place => exact ⟨place, x', .last hstep⟩
      | inl k' =>
        obtain ⟨place, y, hs⟩ := ih (rank k') (hn ▸ hrank k x k' x' hstep) k' x' rfl
        exact ⟨place, y, .next hstep hs⟩

theorem Inside.finish {k k' : κ} {x x' y : σ} {place : τ} (h : Inside code k x k' x')
    (hs : Section code k' x' place y) : Section code k x place y := by
  induction h with
  | refl => exact hs
  | tail _ hx ih => exact ih (.next hx hs)

/-- The system is where whole sections have led, or one thread is on its way through the next. -/
inductive Between (code : Code σ τ α κ) : System ι σ τ κ → Outside ι σ τ → Prop where
  | free (s : Outside ι σ τ) : Between code ⟨s.shared, fun i => .inl (s.place i), none⟩ s
  | held {s : Outside ι σ τ} (i : ι) {action : α} {k k' : κ} {x : σ}
    (hk : code.enter (s.place i) action = some k) (hin : Inside code k s.shared k' x) :
    Between code ⟨x, Function.update (fun i => .inl (s.place i)) i (.inr k'), some i⟩ s

theorem Between.inside {c : System ι σ τ κ} {s : Outside ι σ τ} (h : Between code c s) {i : ι}
    {k : κ} (hi : c.thread i = .inr k) : c.lock = some i := by
  cases h with
  | free => cases hi
  | held j hk hin =>
    by_cases hj : i = j
    · rw [hj]
    · dsimp only at hi
      rw [Function.update_of_ne hj] at hi
      cases hi

theorem move_between {c c' : System ι σ τ κ} {s : Outside ι σ τ} (h : Between code c s) {i : ι}
    (hmove : Move code i c c') :
    Between code c' s ∨ ∃ action s', Whole code (i, action) s s' ∧ Between code c' s' := by
  cases hmove with
  | acquire action hfree hi hk =>
    cases h with
    | held => cases hfree
    | free =>
      obtain rfl := Sum.inl.inj hi
      exact .inl (.held _ hk .refl)
  | step hi hx =>
    have hlock := h.inside hi
    cases h with
    | free => cases hi
    | held j hk hin =>
      obtain rfl := Option.some.inj hlock
      dsimp only at hi hx ⊢
      rw [Function.update_self] at hi
      obtain rfl := Sum.inr.inj hi
      rw [Function.update_idem]
      exact .inl (.held j hk (hin.tail hx))
  | @release _ _ _ place x hi hx =>
    have hlock := h.inside hi
    cases h with
    | free => cases hi
    | held j hk hin =>
      obtain rfl := Option.some.inj hlock
      dsimp only at hi hx ⊢
      rw [Function.update_self] at hi
      obtain rfl := Sum.inr.inj hi
      refine .inr ⟨_, _, .run hk (hin.finish (.last hx)), ?_⟩
      have hplaces : (fun i => Sum.inl (Function.update s.place j place i) : ι → τ ⊕ κ) =
          Function.update (fun i => .inl (s.place i)) j (.inl place) :=
        Function.comp_update Sum.inl s.place j place
      rw [Function.update_idem, ← hplaces]
      exact .free ⟨x, Function.update s.place j place⟩

/-- Every run of single steps is a run of whole sections, but for the steps of one thread. -/
theorem reach_between {init : System ι σ τ κ → Prop} {init' : Outside ι σ τ → Prop}
    (hinit : ∀ c, init c → ∃ s, init' s ∧ Between code c s) {c : System ι σ τ κ}
    (h : Reach init (Move code) c) : ∃ s, Reach init' (Whole code) s ∧ Between code c s := by
  induction h with
  | start h =>
    obtain ⟨s, hs, hbetween⟩ := hinit _ h
    exact ⟨s, .start hs, hbetween⟩
  | next i _ hmove ih =>
    obtain ⟨s, hreach, hbetween⟩ := ih
    rcases move_between hbetween hmove with hstay | ⟨action, s', hwhole, hafter⟩
    · exact ⟨s, hreach, hstay⟩
    · exact ⟨s', .next (i, action) hreach hwhole, hafter⟩

end Tsdb.Critical
