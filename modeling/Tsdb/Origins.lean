import Tsdb.Downsample
import Tsdb.Folds

namespace Tsdb.Origins

open Head Downsample

/-- A value, and the numbers of the `PUT`s it was computed from. -/
structure Tracked (W : Type) where
  value : W
  origins : Finset Nat

variable {W : Type}

instance [Zero W] : Zero (Tracked W) := ⟨⟨0, ∅⟩⟩

instance [Add W] : Add (Tracked W) := ⟨fun a b => ⟨a.value + b.value, a.origins ∪ b.origins⟩⟩

instance [Div W] : Div (Tracked W) := ⟨fun a b => ⟨a.value / b.value, a.origins ∪ b.origins⟩⟩

instance [NatCast W] : NatCast (Tracked W) := ⟨fun n => ⟨n, ∅⟩⟩

/-- The point was computed from nothing that `A` leaves out. -/
def From (A : Nat → Prop) (p : Point (Tracked W)) : Prop := ∀ t ∈ p.value.origins, A t

theorem From.imp {A B : Nat → Prop} {p : Point (Tracked W)} (h : From A p)
    (hAB : ∀ t, A t → B t) : From B p := fun t ht => hAB t (h t ht)

structure CoarseFrom (A : Nat → Prop) (c : Coarse (Tracked W)) : Prop where
  out : ∀ p ∈ c.out, From A p
  sum : ∀ t ∈ c.sum.origins, A t

section Arithmetic

variable {A : Nat → Prop} {c : Coarse (Tracked W)} [Zero W]

theorem coarseFrom_start (bucketStart : Int) :
    CoarseFrom A (⟨[], bucketStart, 0, 0⟩ : Coarse (Tracked W)) :=
  ⟨fun _ hp => absurd hp List.not_mem_nil, fun _ ht => absurd ht (Finset.notMem_empty _)⟩

variable [Div W] [NatCast W]

theorem CoarseFrom.emit (h : CoarseFrom A c) : CoarseFrom A c.emit := by
  unfold Coarse.emit
  split
  · refine ⟨fun p hp => ?_, fun _ ht => absurd ht (Finset.notMem_empty _)⟩
    rcases List.mem_append.mp hp with hp | hp
    · exact h.out p hp
    · rw [List.mem_singleton.mp hp]
      intro t ht
      rcases Finset.mem_union.mp ht with ht | ht
      · exact h.sum t ht
      · exact absurd ht (Finset.notMem_empty _)
  · exact h

theorem CoarseFrom.advance (h : CoarseFrom A c) (ts : Int) (fuel : Nat) :
    CoarseFrom A (c.advance ts fuel) := by
  induction fuel generalizing c with
  | zero => exact h
  | succ fuel ih =>
    rw [Coarse.advance]
    split
    · exact ih ⟨h.emit.out, h.emit.sum⟩
    · exact h

variable [Add W]

theorem CoarseFrom.add (h : CoarseFrom A c) {p : Point (Tracked W)} (hp : From A p) :
    CoarseFrom A (c.add p) := by
  have hadv := h.advance p.ts (p.ts - c.bucketStart).toNat
  refine ⟨hadv.out, fun t ht => ?_⟩
  rcases Finset.mem_union.mp ht with ht | ht
  · exact hadv.sum t ht
  · exact hp t ht

theorem coarsePoints_from {points : List (Point (Tracked W))} (h : ∀ p ∈ points, From A p) :
    ∀ p ∈ coarsePoints points, From A p := by
  unfold coarsePoints
  split
  · exact fun _ hp => absurd hp List.not_mem_nil
  · rename_i first rest
    have hall : CoarseFrom A
        ((first :: rest).foldl Coarse.add ⟨[], minuteStart first.ts, 0, 0⟩) := by
      apply Folds.foldl_keeps (P := CoarseFrom A)
      · exact fun c p hp hc => hc.add (h p hp)
      · exact coarseFrom_start _
    exact hall.emit.out

end Arithmetic

end Tsdb.Origins
