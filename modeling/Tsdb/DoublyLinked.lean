import Mathlib

namespace Tsdb.DoublyLinked

variable {E : Type}

structure Links (E : Type) where
  next : E → Option E
  prev : E → Option E

def Segment (l : Links E) : Option E → List E → Option E → Prop
  | _, [], _ => True
  | before, x :: xs, after =>
    l.prev x = before ∧ l.next x = xs.head?.or after ∧ Segment l (some x) xs after

/-- A list of distinct nodes that ends in null pointers on both sides. -/
structure Linked (l : Links E) (xs : List E) : Prop where
  nodup : xs.Nodup
  segment : Segment l none xs none

def walk (l : Links E) : Nat → Option E → List E
  | 0, _ => []
  | _ + 1, none => []
  | fuel + 1, some x => x :: walk l fuel (l.next x)

/-- The first node with `p` from this pointer on. The outer `none` is a list that is longer. -/
def findFrom (l : Links E) (p : E → Bool) : Nat → Option E → Option (Option E)
  | _, none => some none
  | 0, some _ => none
  | fuel + 1, some x => if p x then some (some x) else findFrom l p fuel (l.next x)

theorem segment_append {l : Links E} {xs ys : List E} {before after : Option E} :
    Segment l before (xs ++ ys) after ↔
      Segment l before xs (ys.head?.or after) ∧ Segment l (xs.getLast?.or before) ys after := by
  induction xs generalizing before with
  | nil => simp [Segment]
  | cons x xs ih =>
    have hhead : ((xs ++ ys).head?.or after) = xs.head?.or (ys.head?.or after) := by
      cases xs <;> rfl
    have hlast : (x :: xs).getLast?.or before = xs.getLast?.or (some x) := by
      cases xs with
      | nil => rfl
      | cons y xs => simp [List.getLast?_cons]
    rw [List.cons_append, Segment, Segment, ih, hhead, hlast]
    constructor
    · rintro ⟨hprev, hnext, hxs, hys⟩
      exact ⟨⟨hprev, hnext, hxs⟩, hys⟩
    · rintro ⟨⟨hprev, hnext, hxs⟩, hys⟩
      exact ⟨hprev, hnext, hxs, hys⟩

theorem segment_congr {l l' : Links E} {xs : List E} {before after : Option E}
    (hsame : ∀ x ∈ xs, l'.prev x = l.prev x ∧ l'.next x = l.next x)
    (h : Segment l before xs after) : Segment l' before xs after := by
  induction xs generalizing before with
  | nil => trivial
  | cons x xs ih =>
    obtain ⟨hprev, hnext, hrest⟩ := h
    obtain ⟨hp, hn⟩ := hsame x (by simp)
    exact ⟨hp.trans hprev, hn.trans hnext, ih (fun y hy => hsame y (List.mem_cons_of_mem _ hy)) hrest⟩

theorem Linked.congr {l l' : Links E} {xs : List E} (h : Linked l xs)
    (hsame : ∀ x ∈ xs, l'.prev x = l.prev x ∧ l'.next x = l.next x) : Linked l' xs :=
  ⟨h.nodup, segment_congr hsame h.segment⟩

theorem walk_segment {l : Links E} {xs : List E} {before : Option E} {fuel : Nat}
    (h : Segment l before xs none) (hfuel : xs.length ≤ fuel) : walk l fuel xs.head? = xs := by
  induction xs generalizing before fuel with
  | nil => cases fuel <;> rfl
  | cons x xs ih =>
    obtain ⟨_, hnext, hrest⟩ := h
    obtain ⟨fuel, rfl⟩ : ∃ n, fuel = n + 1 := ⟨fuel - 1, by rw [List.length_cons] at hfuel; omega⟩
    rw [Option.or_none] at hnext
    rw [List.head?_cons, walk, hnext, ih hrest (by simpa using hfuel)]

theorem find_segment {l : Links E} {p : E → Bool} {xs : List E} {before : Option E} {fuel : Nat}
    (h : Segment l before xs none) (hfuel : xs.length ≤ fuel) :
    findFrom l p fuel xs.head? = some (xs.find? p) := by
  induction xs generalizing before fuel with
  | nil => cases fuel <;> rfl
  | cons x xs ih =>
    obtain ⟨_, hnext, hrest⟩ := h
    obtain ⟨fuel, rfl⟩ : ∃ n, fuel = n + 1 := ⟨fuel - 1, by rw [List.length_cons] at hfuel; omega⟩
    rw [Option.or_none] at hnext
    rw [List.head?_cons, findFrom, hnext]
    cases hp : p x with
    | true => simp [hp]
    | false => simpa [hp] using ih hrest (by simpa using hfuel)

section Update

variable [DecidableEq E]

def Links.setNext (l : Links E) (x : E) (p : Option E) : Links E :=
  { l with next := Function.update l.next x p }

def Links.setPrev (l : Links E) (x : E) (p : Option E) : Links E :=
  { l with prev := Function.update l.prev x p }

@[simp] theorem setNext_next (l : Links E) (x : E) (p : Option E) :
    (l.setNext x p).next = Function.update l.next x p := rfl

@[simp] theorem setNext_prev (l : Links E) (x : E) (p : Option E) :
    (l.setNext x p).prev = l.prev := rfl

@[simp] theorem setPrev_next (l : Links E) (x : E) (p : Option E) :
    (l.setPrev x p).next = l.next := rfl

@[simp] theorem setPrev_prev (l : Links E) (x : E) (p : Option E) :
    (l.setPrev x p).prev = Function.update l.prev x p := rfl

def pushFront (x : E) (head : Option E) (l : Links E) : Links E :=
  let l := (l.setNext x head).setPrev x none
  match head with
  | none => l
  | some y => l.setPrev y (some x)

def pushBack (x last : E) (l : Links E) : Links E :=
  ((l.setNext x none).setPrev x (some last)).setNext last (some x)

def dropNext (x : E) (l : Links E) : Links E :=
  match l.prev x with
  | none => l
  | some y => l.setNext y (l.next x)

def dropPrev (x : E) (l : Links E) : Links E :=
  match l.next x with
  | none => l
  | some y => l.setPrev y (l.prev x)

/-- The neighbours of a node are joined; its own pointers stay as they are. -/
def unlink (x : E) (l : Links E) : Links E := dropPrev x (dropNext x l)

theorem segment_other {l : Links E} {xs : List E} {before after : Option E} {x : E} (hx : x ∉ xs)
    (p q : Option E) (h : Segment l before xs after) :
    Segment ((l.setNext x p).setPrev x q) before xs after := by
  apply segment_congr _ h
  intro y hy
  have hne : y ≠ x := by
    rintro rfl
    exact hx hy
  simp [hne]

theorem segment_setPrev {l : Links E} {x : E} {xs : List E} {before after : Option E}
    (hx : x ∉ xs) (before' : Option E) (h : Segment l before (x :: xs) after) :
    Segment (l.setPrev x before') before' (x :: xs) after := by
  obtain ⟨_, hnext, hrest⟩ := h
  refine ⟨by simp, hnext, segment_congr (fun y hy => ?_) hrest⟩
  have hne : y ≠ x := by
    rintro rfl
    exact hx hy
  simp [hne]

theorem segment_setNext {l : Links E} {x : E} {xs : List E} {before after : Option E}
    (hx : x ∉ xs) (after' : Option E) (h : Segment l before (xs ++ [x]) after) :
    Segment (l.setNext x after') before (xs ++ [x]) after' := by
  rw [segment_append] at h ⊢
  refine ⟨segment_congr (fun y hy => ?_) h.1, h.2.1, by simp, trivial⟩
  have hne : y ≠ x := by
    rintro rfl
    exact hx hy
  simp [hne]

theorem linked_pushFront {l : Links E} {xs : List E} {x : E} (h : Linked l xs) (hx : x ∉ xs) :
    Linked (pushFront x xs.head? l) (x :: xs) := by
  refine ⟨List.nodup_cons.mpr ⟨hx, h.nodup⟩, ?_⟩
  have hrest := segment_other hx xs.head? none h.segment
  cases xs with
  | nil => exact ⟨by simp [pushFront], by simp [pushFront], trivial⟩
  | cons y xs =>
    have hne : x ≠ y := by
      rintro rfl
      exact hx (by simp)
    have hnew := segment_setPrev (List.nodup_cons.mp h.nodup).1 (some x) hrest
    refine ⟨?_, ?_, hnew⟩
    · simp [pushFront, hne]
    · simp [pushFront]

theorem linked_pushBack {l : Links E} {xs : List E} {x last : E} (h : Linked l (xs ++ [last]))
    (hx : x ∉ xs ++ [last]) : Linked (pushBack x last l) (xs ++ [last] ++ [x]) := by
  have hlast : last ∉ xs := fun hmem => (List.nodup_append.mp h.nodup).2.2 last hmem last (by simp) rfl
  have hne : x ≠ last := by
    rintro rfl
    exact hx (by simp)
  refine ⟨?_, segment_append.mpr ⟨?_, ?_⟩⟩
  · exact List.nodup_append.mpr ⟨h.nodup, by simp, fun a ha b hb => by
      rw [List.mem_singleton.mp hb]
      rintro rfl
      exact hx ha⟩
  · exact segment_setNext hlast (some x) (segment_other hx none (some last) h.segment)
  · simp [Segment, pushBack, hne]

/-- The pointers of a node that is about to go, before and after the first of the two updates. -/
theorem linked_around {l : Links E} {xs ys : List E} {x : E} (h : Linked l (xs ++ x :: ys)) :
    l.prev x = xs.getLast? ∧ l.next x = ys.head? ∧ (dropNext x l).prev = l.prev ∧
      (dropNext x l).next x = ys.head? := by
  obtain ⟨_, hprev, hnext, _⟩ := segment_append.mp h.segment
  rw [Option.or_none] at hprev hnext
  refine ⟨hprev, hnext, ?_⟩
  unfold dropNext
  split
  · exact ⟨rfl, hnext⟩
  · rename_i y hy
    have hne : x ≠ y := by
      have hmem := List.mem_of_getLast? (hprev.symm.trans hy)
      exact ((List.nodup_append.mp h.nodup).2.2 y hmem x (by simp)).symm
    exact ⟨rfl, by simp [hne, hnext]⟩

theorem linked_unlink {l : Links E} {xs ys : List E} {x : E} (h : Linked l (xs ++ x :: ys)) :
    Linked (unlink x l) (xs ++ ys) := by
  obtain ⟨hxs, hys, hapart⟩ := List.nodup_append.mp h.nodup
  have hys := (List.nodup_cons.mp hys).2
  have hdisjoint : ∀ a ∈ xs, ∀ b ∈ ys, a ≠ b := fun a ha b hb =>
    hapart a ha b (List.mem_cons_of_mem _ hb)
  obtain ⟨hprev, hnext, hsame, hafter⟩ := linked_around h
  obtain ⟨hfront, _, _, hback⟩ := segment_append.mp h.segment
  refine ⟨List.nodup_append.mpr ⟨hxs, hys, hdisjoint⟩, segment_append.mpr ?_⟩
  -- first the node before is led past `x`
  have hforward : Segment (dropNext x l) none xs ys.head? ∧ Segment (dropNext x l) (some x) ys none := by
    rcases List.eq_nil_or_concat xs with rfl | ⟨front, last, rfl⟩
    · rw [dropNext, hprev]
      exact ⟨trivial, hback⟩
    · rw [List.concat_eq_append] at *
      have hlast : last ∉ front := fun hmem =>
        (List.nodup_append.mp hxs).2.2 last hmem last (by simp) rfl
      rw [List.getLast?_append_of_ne_nil _ (by simp), List.getLast?_singleton] at hprev
      rw [dropNext, hprev, hnext]
      refine ⟨segment_setNext hlast _ hfront, segment_congr (fun y hy => ?_) hback⟩
      have hne : y ≠ last := (hdisjoint last (by simp) y hy).symm
      simp [hne]
  obtain ⟨hfront, hback⟩ := hforward
  rw [unlink, dropPrev, hafter, hsame, hprev, Option.or_none, Option.or_none]
  cases ys with
  | nil => exact ⟨hfront, trivial⟩
  | cons y ys =>
    refine ⟨segment_congr (fun z hz => ?_) hfront, ?_⟩
    · have hne : z ≠ y := hdisjoint z hz y (by simp)
      simp [hne]
    · exact segment_setPrev (List.nodup_cons.mp hys).1 _ hback

theorem pushFront_frame {l : Links E} {x y : E} {head : Option E} (hx : y ≠ x) (hhead : head ≠ some y) :
    (pushFront x head l).prev y = l.prev y ∧ (pushFront x head l).next y = l.next y := by
  cases head with
  | none => simp [pushFront, hx]
  | some z =>
    have hz : y ≠ z := fun he => hhead (congrArg some he.symm)
    simp [pushFront, hx, hz]

theorem linked_pushFront_other {l : Links E} {xs ys : List E} {x : E} (h : Linked l ys)
    (hx : x ∉ ys) (hdisjoint : ∀ y ∈ xs, y ∉ ys) : Linked (pushFront x xs.head? l) ys := by
  refine h.congr fun y hy => pushFront_frame ?_ fun hhead => ?_
  · rintro rfl
    exact hx hy
  · exact hdisjoint y (List.mem_of_mem_head? hhead) hy

theorem linked_unlink_other {l : Links E} {xs ys zs : List E} {x : E} (h : Linked l (xs ++ x :: ys))
    (hz : Linked l zs) (hdisjoint : ∀ y ∈ xs ++ x :: ys, y ∉ zs) : Linked (unlink x l) zs := by
  obtain ⟨hprev, hnext, hsame, hafter⟩ := linked_around h
  refine hz.congr fun y hy => ?_
  have hlast {w : E} (hw : xs.getLast? = some w) : y ≠ w := by
    rintro rfl
    exact hdisjoint y (List.mem_append_left _ (List.mem_of_getLast? hw)) hy
  have hhead {w : E} (hw : ys.head? = some w) : y ≠ w := by
    rintro rfl
    exact hdisjoint y (by simp [List.mem_of_mem_head? hw]) hy
  have hforward : (dropNext x l).next y = l.next y := by
    unfold dropNext
    split
    · rfl
    · rename_i w hw
      simp [hlast (hprev.symm.trans hw)]
  unfold unlink dropPrev
  rw [hafter, hsame]
  split
  · exact ⟨congrFun hsame y, hforward⟩
  · rename_i w hw
    refine ⟨?_, hforward⟩
    rw [setPrev_prev, hsame, Function.update_of_ne (hhead hw)]

end Update

end Tsdb.DoublyLinked
