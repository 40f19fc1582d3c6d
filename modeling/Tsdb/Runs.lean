import Mathlib

namespace Tsdb.Runs

variable {S L : Type}

inductive Reach (init : S → Prop) (step : L → S → S → Prop) : S → Prop where
  | start {s : S} (h : init s) : Reach init step s
  | next {s s' : S} (l : L) (h : Reach init step s) (hs : step l s s') : Reach init step s'

theorem Reach.invariant {init : S → Prop} {step : L → S → S → Prop} (I : S → Prop)
    (h0 : ∀ s, init s → I s) (hstep : ∀ l s s', I s → step l s s' → I s') {s : S}
    (h : Reach init step s) : I s := by
  induction h with
  | start h => exact h0 _ h
  | next l _ hs ih => exact hstep l _ _ ih hs

theorem Reach.mono {init : S → Prop} {step step' : L → S → S → Prop}
    (hle : ∀ l s s', step l s s' → step' l s s') {s : S} (h : Reach init step s) :
    Reach init step' s := by
  apply h.invariant
  · exact fun s h => .start h
  · exact fun l s s' h hs => .next l h (hle l s s' hs)

/-- A step of a partial function, where a guard lets it through. -/
def Guarded (guard : S → L → Prop) (run : S → L → Option S) (l : L) (s s' : S) : Prop :=
  guard s l ∧ run s l = some s'

def Allowed (guard : S → L → Prop) (run : S → L → Option S) : List L → S → Prop
  | [], _ => True
  | l :: ls, s => guard s l ∧ ∀ s' ∈ run s l, Allowed guard run ls s'

instance instDecidableAllowed {guard : S → L → Prop} {run : S → L → Option S}
    [∀ s l, Decidable (guard s l)] : ∀ ls s, Decidable (Allowed guard run ls s)
  | [], _ => .isTrue trivial
  | l :: ls, s =>
    have (s' : S) : Decidable (Allowed guard run ls s') := instDecidableAllowed ls s'
    inferInstanceAs (Decidable (guard s l ∧ ∀ s' ∈ run s l, Allowed guard run ls s'))

theorem allowed_of_forall {guard : S → L → Prop} {run : S → L → Option S}
    (h : ∀ s l, guard s l) (ls : List L) (s : S) : Allowed guard run ls s := by
  induction ls generalizing s with
  | nil => trivial
  | cons l ls ih => exact ⟨h s l, fun s' _ => ih s'⟩

theorem allowed_initial {guard : S → L → Prop} {run : S → L → Option S} {pre ls : List L} {s : S}
    (h : Allowed guard run ls s) (hpre : pre <+: ls) : Allowed guard run pre s := by
  induction pre generalizing ls s with
  | nil => trivial
  | cons l pre ih =>
    obtain ⟨rest, rfl⟩ := hpre
    exact ⟨h.1, fun s' hs' => ih (h.2 s' hs') ⟨rest, rfl⟩⟩

/-- Two guards that agree in every state they let a run come to agree on the run. -/
theorem allowed_iff {I : S → Prop} {guard p q : S → L → Prop} {run : S → L → Option S}
    (hstep : ∀ s l s', I s → guard s l → q s l → run s l = some s' → I s')
    (hiff : ∀ s l, I s → guard s l → (p s l ↔ q s l)) {ls : List L} {s : S} (hs : I s)
    (hallowed : Allowed guard run ls s) : Allowed p run ls s ↔ Allowed q run ls s := by
  induction ls generalizing s with
  | nil => exact Iff.rfl
  | cons l ls ih =>
    obtain ⟨hguard, hrest⟩ := hallowed
    unfold Allowed
    rw [hiff s l hs hguard]
    exact and_congr_right fun hq => forall₂_congr fun s' hs' =>
      ih (hstep s l s' hs hguard hq hs') (hrest s' hs')

theorem Reach.run {init : S → Prop} {guard : S → L → Prop} {run : S → L → Option S} {s s' : S}
    (h : Reach init (Guarded guard run) s) (ls : List L) (hallowed : Allowed guard run ls s)
    (hrun : ls.foldlM run s = some s') : Reach init (Guarded guard run) s' := by
  induction ls generalizing s with
  | nil =>
    obtain rfl := Option.some.inj hrun
    exact h
  | cons l ls ih =>
    rw [List.foldlM_cons] at hrun
    obtain ⟨s1, h1, hrun⟩ := Option.bind_eq_some_iff.mp hrun
    exact ih (.next l h ⟨hallowed.1, h1⟩) (hallowed.2 s1 h1) hrun

end Tsdb.Runs
