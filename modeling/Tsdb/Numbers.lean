import Tsdb.CStrings

namespace Tsdb.Numbers

open CStrings

def isspace (c : Char) : Bool := c = ' ' || ('\t' ≤ c && c ≤ '\r')

/-- The digits at the start of a text; what follows is ignored, and no digits are 0. -/
def magnitude (t : Text) : Int := Nat.ofDigitChars 10 (t.takeWhile Char.isDigit) 0

/-- `strtol(t, NULL, 10)`: white space, a sign and digits. Outside of `long` it is the nearest. -/
def strtol (t : Text) : Int :=
  let n := match t.dropWhile isspace with
    | '-' :: rest => -magnitude rest
    | '+' :: rest => magnitude rest
    | rest => magnitude rest
  max (-2 ^ 63) (min n (2 ^ 63 - 1))

def atoi (t : Text) : Int := (strtol t).bmod (2 ^ 32)

def unsigned (t : Text) : Option Int :=
  if t ≠ [] ∧ t.all Char.isDigit then some (Nat.ofDigitChars 10 t 0 : Nat) else none

def numeral : Text → Option Int
  | '-' :: rest => (unsigned rest).map (- ·)
  | '+' :: rest => unsigned rest
  | rest => unsigned rest

def IsLong (t : Text) (n : Int) : Prop := numeral t = some n ∧ -2 ^ 63 ≤ n ∧ n < 2 ^ 63

def IsInt (t : Text) (n : Int) : Prop := numeral t = some n ∧ -2 ^ 31 ≤ n ∧ n < 2 ^ 31

theorem magnitude_unsigned {t : Text} {n : Int} (h : unsigned t = some n) : magnitude t = n := by
  unfold unsigned at h
  split at h
  · rename_i hdigits
    obtain rfl := Option.some.inj h
    rw [magnitude, List.takeWhile_eq_self_iff.mpr (List.all_eq_true.mp hdigits.2)]
  · cases h

theorem unsigned_first {t : Text} {n : Int} (h : unsigned t = some n) :
    ∃ c rest, t = c :: rest ∧ c.isDigit = true := by
  unfold unsigned at h
  split at h
  · rename_i hdigits
    obtain ⟨c, rest, rfl⟩ := List.exists_cons_of_ne_nil hdigits.1
    exact ⟨c, rest, rfl, List.all_eq_true.mp hdigits.2 c List.mem_cons_self⟩
  · cases h

theorem isspace_digit {c : Char} (h : c.isDigit = true) : isspace c = false := by
  rw [Char.isDigit, Bool.and_eq_true, decide_eq_true_iff, decide_eq_true_iff] at h
  have hlow : 48 ≤ c.val.toNat := h.1
  rw [isspace, Bool.or_eq_false_iff, decide_eq_false_iff_not]
  constructor
  · rintro rfl
    exact absurd hlow (by decide)
  · rw [Bool.and_eq_false_iff, decide_eq_false_iff_not, decide_eq_false_iff_not]
    refine .inr fun hle => ?_
    have hhigh : c.val.toNat ≤ 13 := hle
    omega

theorem strtol_numeral {t : Text} {n : Int} (h : numeral t = some n) :
    strtol t = max (-2 ^ 63) (min n (2 ^ 63 - 1)) := by
  unfold numeral at h
  split at h
  · obtain ⟨k, hk, rfl⟩ := Option.map_eq_some_iff.mp h
    simp only [strtol, List.dropWhile_cons_of_neg (show ¬isspace '-' = true by decide),
      magnitude_unsigned hk]
  · simp only [strtol, List.dropWhile_cons_of_neg (show ¬isspace '+' = true by decide),
      magnitude_unsigned h]
  · rename_i hminus hplus
    obtain ⟨c, rest, rfl, hc⟩ := unsigned_first h
    rw [strtol, List.dropWhile_cons_of_neg (by simp [isspace_digit hc])]
    split
    · rename_i heq
      exact absurd heq (hminus _)
    · rename_i heq
      exact absurd heq (hplus _)
    · rw [magnitude_unsigned h]

theorem strtol_eq {t : Text} {n : Int} (h : IsLong t n) : strtol t = n := by
  rw [strtol_numeral h.1]
  have := h.2
  omega

theorem atoi_eq {t : Text} {n : Int} (h : IsInt t n) : atoi t = n := by
  obtain ⟨hn, hlow, hhigh⟩ := h
  rw [atoi, strtol_eq ⟨hn, by omega, by omega⟩]
  exact Int.bmod_eq_of_le (by omega) (by omega)

end Tsdb.Numbers
