import Mathlib

namespace Tsdb.Checked

def InBits (w : Nat) (n : Int) : Prop := -2 ^ w ≤ n ∧ n < 2 ^ w

instance (w : Nat) (n : Int) : Decidable (InBits w n) :=
  inferInstanceAs (Decidable (-2 ^ w ≤ n ∧ n < 2 ^ w))

/-- The result of an operation on such integers; `none` is an overflow, which has no meaning. -/
def checked (w : Nat) (n : Int) : Option Int := if InBits w n then some n else none

variable {w : Nat} {n : Int}

theorem checked_inBits (h : InBits w n) : checked w n = some n := if_pos h

theorem checked_overflow (h : ¬ InBits w n) : checked w n = none := if_neg h

@[simp] theorem checked_isSome : (checked w n).isSome ↔ InBits w n := by
  unfold checked
  split <;> simp_all

theorem checked_eq_some {m : Int} : checked w n = some m ↔ InBits w n ∧ n = m := by
  unfold checked
  split <;> simp_all

end Tsdb.Checked
