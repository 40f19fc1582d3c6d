import Mathlib

namespace Tsdb.BitField

/-- The positions `n - 1, ..., 0` of a bit sequence, most significant first. -/
def field (f : Nat → Bool) : Nat → List Bool
  | 0 => []
  | n + 1 => f n :: field f n

/-- The number a most-significant-first bit string denotes. -/
def value (bs : List Bool) : Nat := bs.foldl (fun acc b => 2 * acc + b.toNat) 0

def word (w : Nat) (bs : List Bool) : BitVec w := BitVec.ofNat w (value bs)

abbrev bits {w : Nat} (x : BitVec w) (n : Nat) : List Bool := field x.getLsbD n

@[simp] theorem field_length (f : Nat → Bool) (n : Nat) : (field f n).length = n := by
  induction n with
  | zero => rfl
  | succ n ih => simp [field, ih]

theorem field_congr {f g : Nat → Bool} {n : Nat} (h : ∀ i < n, f i = g i) :
    field f n = field g n := by
  induction n with
  | zero => rfl
  | succ n ih =>
    rw [field, field, h n (by omega), ih (fun i hi => h i (by omega))]

theorem field_add (f : Nat → Bool) (a b : Nat) :
    field f (a + b) = field (fun i => f (i + b)) a ++ field f b := by
  induction a with
  | zero => simp [field]
  | succ a ih => rw [Nat.succ_add, field, ih, field, List.cons_append]

theorem field_false (n : Nat) : field (fun _ => false) n = List.replicate n false := by
  induction n with
  | zero => rfl
  | succ n ih => rw [field, ih, List.replicate_succ]

theorem foldl_value (acc : Nat) (bs : List Bool) :
    bs.foldl (fun acc b => 2 * acc + b.toNat) acc = acc * 2 ^ bs.length + value bs := by
  induction bs generalizing acc with
  | nil => simp [value]
  | cons b bs ih =>
    have hv : value (b :: bs) = b.toNat * 2 ^ bs.length + value bs := by
      simpa [value] using ih b.toNat
    rw [List.foldl_cons, ih, hv, List.length_cons]
    ring

theorem value_append (xs ys : List Bool) :
    value (xs ++ ys) = value xs * 2 ^ ys.length + value ys := by
  rw [value, List.foldl_append, foldl_value]
  rfl

theorem value_cons (b : Bool) (bs : List Bool) :
    value (b :: bs) = b.toNat * 2 ^ bs.length + value bs := by
  simpa [value] using foldl_value b.toNat bs

theorem value_lt (bs : List Bool) : value bs < 2 ^ bs.length := by
  induction bs with
  | nil => simp [value]
  | cons b bs ih =>
    rw [value_cons, List.length_cons, Nat.pow_succ]
    cases b <;> simp <;> omega

theorem testBit_value_append (xs ys : List Bool) (i : Nat) :
    (value (xs ++ ys)).testBit i =
      if i < ys.length then (value ys).testBit i else (value xs).testBit (i - ys.length) := by
  rw [value_append, Nat.mul_comm]
  exact Nat.testBit_two_pow_mul_add _ (value_lt ys) i

theorem testBit_value_field (f : Nat → Bool) (n i : Nat) :
    (value (field f n)).testBit i = (decide (i < n) && f i) := by
  induction n generalizing i with
  | zero => simp [field, value]
  | succ n ih =>
    have h := testBit_value_append [f n] (field f n) i
    rw [List.singleton_append, field_length] at h
    rw [field, h]
    by_cases hi : i < n
    · simp [hi, ih, Nat.lt_succ_of_lt hi]
    · by_cases he : i = n
      · subst he
        cases f i <;> simp [value]
      · have hb : (value [f n]).testBit (i - n) = false :=
          Nat.testBit_lt_two_pow (lt_of_lt_of_le (value_lt [f n])
            (Nat.pow_le_pow_right (by omega) (by simp; omega)))
        simp [hi, hb, show ¬ i < n + 1 by omega]

theorem getLsbD_word_field (w : Nat) (f : Nat → Bool) (n i : Nat) :
    (word w (field f n)).getLsbD i = (decide (i < w) && (decide (i < n) && f i)) := by
  rw [word, BitVec.getLsbD_ofNat, testBit_value_field]

theorem word_bits {w : Nat} (x : BitVec w) (n : Nat) (v : Nat) :
    word v (bits x n) = (x.setWidth n).setWidth v := by
  apply BitVec.eq_of_getLsbD_eq
  intro i hi
  rw [getLsbD_word_field, BitVec.getLsbD_setWidth, BitVec.getLsbD_setWidth]

theorem word_append (w : Nat) (xs ys : List Bool) :
    word w (xs ++ ys) = (word w xs <<< ys.length) ||| word w ys := by
  apply BitVec.eq_of_getLsbD_eq
  intro i hi
  rw [BitVec.getLsbD_or, BitVec.getLsbD_shiftLeft]
  simp only [word, BitVec.getLsbD_ofNat, hi, decide_true, Bool.true_and, testBit_value_append]
  by_cases hl : i < ys.length
  · simp [hl]
  · have hz : (value ys).testBit i = false :=
      Nat.testBit_lt_two_pow (lt_of_lt_of_le (value_lt ys)
        (Nat.pow_le_pow_right (by omega) (by omega)))
    simp [hl, hz, show i - ys.length < w by omega]

end Tsdb.BitField
