import Mathlib

namespace Tsdb.Folds

variable {S S' T : Type} {f : S → T → S}

/-- What every element of a list keeps, the whole fold keeps. -/
theorem foldl_keeps {P : S → Prop} {xs : List T} (hstep : ∀ s, ∀ x ∈ xs, P s → P (f s x)) {s : S}
    (h : P s) : P (xs.foldl f s) :=
  List.foldlRecOn xs f h fun s hs x hx => hstep s x hx hs

/-- What every element keeps and leaves as true as it was, the whole fold does. -/
theorem foldl_carries {P : S → Prop} {ι : Type} {Q : ι → S → Prop} {xs : List T}
    (hstep : ∀ s, ∀ x ∈ xs, P s → P (f s x) ∧ ∀ i, Q i s → Q i (f s x)) {s : S} (h : P s) :
    P (xs.foldl f s) ∧ ∀ i, Q i s → Q i (xs.foldl f s) := by
  refine foldl_keeps (P := fun s' => P s' ∧ ∀ i, Q i s → Q i s') ?_ ⟨h, fun _ => id⟩
  intro s' x hx hs'
  obtain ⟨hkept, hcarried⟩ := hstep s' x hx hs'.1
  exact ⟨hkept, fun i hi => hcarried i (hs'.2 i hi)⟩

theorem foldl_reaches {P Q : S → Prop} {xs : List T} {x : T} (hx : x ∈ xs)
    (hstep : ∀ s, ∀ y ∈ xs, P s → P (f s y)) (hreach : ∀ s, P s → Q (f s x))
    (hkeep : ∀ s, ∀ y ∈ xs, P s → Q s → Q (f s y)) {s : S} (h : P s) : Q (xs.foldl f s) := by
  obtain ⟨before, after, rfl⟩ := List.append_of_mem hx
  have hbefore : P (before.foldl f s) :=
    foldl_keeps (fun s y hy => hstep s y (List.mem_append_left _ hy)) h
  have hboth := @foldl_keeps S T f (fun s => P s ∧ Q s) after
    (fun s y hy hs => ⟨hstep s y (by simp [hy]) hs.1, hkeep s y (by simp [hy]) hs.1 hs.2⟩)
    (f (before.foldl f s) x) ⟨hstep _ x hx hbefore, hreach _ hbefore⟩
  rw [List.foldl_append, List.foldl_cons]
  exact hboth.2

theorem foldl_same {O : Type} {g : S → O} {xs : List T}
    (hother : ∀ s, ∀ y ∈ xs, g (f s y) = g s) (s : S) : g (xs.foldl f s) = g s :=
  foldl_keeps (P := fun s' => g s' = g s) (fun s' y hy hs' => (hother s' y hy).trans hs') rfl

theorem foldl_once {O : Type} {g : S → O} {xs : List T} {x : T} (hnodup : xs.Nodup) (hx : x ∈ xs)
    (hother : ∀ s, ∀ y ∈ xs, y ≠ x → g (f s y) = g s) (s : S) :
    ∃ s', g s' = g s ∧ g (xs.foldl f s) = g (f s' x) := by
  obtain ⟨before, after, rfl⟩ := List.append_of_mem hx
  obtain ⟨_, hafter, hapart⟩ := List.nodup_append.mp hnodup
  refine ⟨before.foldl f s, ?_, ?_⟩
  · apply foldl_same
    intro s y hy
    exact hother s y (by simp [hy]) (hapart y hy x (by simp))
  · rw [List.foldl_append, List.foldl_cons]
    apply foldl_same
    intro s y hy
    apply hother s y (by simp [hy])
    rintro rfl
    exact (List.nodup_cons.mp hafter).1 hy

/-- Two folds stay related when one of them leaves out the elements that only move the other. -/
theorem foldl_filter_related {R : S → S' → Prop} {g : S' → T → S'} {p : T → Bool} {xs : List T}
    (hboth : ∀ s s', ∀ x ∈ xs, p x = true → R s s' → R (f s x) (g s' x))
    (hleft : ∀ s s', ∀ x ∈ xs, p x = false → R s s' → R (f s x) s') {s : S} {s' : S'}
    (h : R s s') : R (xs.foldl f s) ((xs.filter p).foldl g s') := by
  induction xs generalizing s s' with
  | nil => exact h
  | cons x xs ih =>
    have ih := @ih (fun s s' y hy => hboth s s' y (List.mem_cons_of_mem _ hy))
      (fun s s' y hy => hleft s s' y (List.mem_cons_of_mem _ hy))
    cases hp : p x with
    | true =>
      rw [List.filter_cons_of_pos hp]
      exact ih (hboth s s' x (by simp) hp h)
    | false =>
      rw [List.filter_cons_of_neg (by simp [hp])]
      exact ih (hleft s s' x (by simp) hp h)

/-- The same for steps that may fail, where the longer run has not failed. -/
theorem foldlM_filter_related {R : S → S' → Prop} {f : S → T → Option S} {g : S' → T → Option S'}
    {p : T → Bool}
    (hboth : ∀ s s' x t, p x = true → R s s' → f s x = some t → ∃ t', g s' x = some t' ∧ R t t')
    (hleft : ∀ s s' x t, p x = false → R s s' → f s x = some t → R t s') {xs : List T} {s t : S}
    {s' : S'} (h : R s s') (hrun : xs.foldlM f s = some t) :
    ∃ t', (xs.filter p).foldlM g s' = some t' ∧ R t t' := by
  induction xs generalizing s s' with
  | nil =>
    obtain rfl := Option.some.inj hrun
    exact ⟨s', rfl, h⟩
  | cons x xs ih =>
    rw [List.foldlM_cons] at hrun
    obtain ⟨u, hu, hrun⟩ := Option.bind_eq_some_iff.mp hrun
    cases hp : p x with
    | true =>
      obtain ⟨u', hu', hR⟩ := hboth s s' x u hp h hu
      obtain ⟨t', ht', hR⟩ := ih hR hrun
      refine ⟨t', ?_, hR⟩
      rw [List.filter_cons_of_pos hp, List.foldlM_cons, hu']
      exact ht'
    | false =>
      rw [List.filter_cons_of_neg (by simp [hp])]
      exact ih (hleft s s' x u hp h hu) hrun

theorem foldlM_congr {f g : S → T → Option S} {xs : List T} (h : ∀ s, ∀ x ∈ xs, f s x = g s x)
    (s : S) : xs.foldlM f s = xs.foldlM g s := by
  induction xs generalizing s with
  | nil => rfl
  | cons x xs ih =>
    rw [List.foldlM_cons, List.foldlM_cons, h s x (by simp)]
    congr 1
    funext s'
    exact ih (fun s y hy => h s y (List.mem_cons_of_mem _ hy)) s'

theorem foldlM_keeps {f : S → T → Option S} {P : S → Prop}
    (hstep : ∀ s x t, P s → f s x = some t → P t) {xs : List T} {s t : S} (h : P s)
    (hrun : xs.foldlM f s = some t) : P t := by
  induction xs generalizing s with
  | nil =>
    obtain rfl := Option.some.inj hrun
    exact h
  | cons x xs ih =>
    rw [List.foldlM_cons] at hrun
    obtain ⟨u, hu, hrun⟩ := Option.bind_eq_some_iff.mp hrun
    exact ih (hstep s x u h hu) hrun

theorem flatMap_take_eq_iff {α β : Type} (f : α → List β) (n : Nat) (xs : List α) :
    (xs.flatMap fun x => (f x).take n) = xs.flatMap f ↔ ∀ x ∈ xs, (f x).length ≤ n := by
  induction xs with
  | nil => simp
  | cons x xs ih =>
    rw [List.flatMap_cons, List.flatMap_cons, List.forall_mem_cons, ← ih]
    constructor
    · intro h
      have hle : (xs.flatMap fun x => (f x).take n).length ≤ (xs.flatMap f).length := by
        rw [List.length_flatMap, List.length_flatMap]
        exact List.sum_le_sum fun y _ => List.length_take_le' ..
      have hlength := congrArg List.length h
      rw [List.length_append, List.length_append, List.length_take] at hlength
      have hshort : (f x).length ≤ n := by omega
      rw [List.take_of_length_le hshort] at h
      exact ⟨hshort, List.append_cancel_left h⟩
    · rintro ⟨hshort, hrest⟩
      rw [List.take_of_length_le hshort, hrest]

end Tsdb.Folds
