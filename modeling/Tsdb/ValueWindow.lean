import Tsdb.Folds
import Tsdb.ValueCodec

namespace Tsdb.ValueWindow

open BitField BitIO Value ValueCodec Folds

def nMeaningful (encoder : ValueEncoder) (xorVal : BitVec 64) : Int :=
  if encoder.prevLeading ≤ leadingZeros xorVal ∧ encoder.prevTrailing ≤ trailingZeros xorVal then
    64 - encoder.prevLeading - encoder.prevTrailing
  else 64 - leadingZeros xorVal - trailingZeros xorVal

theorem xorCode_length (encoder : ValueEncoder) {xorVal : BitVec 64} (hx : xorVal ≠ 0#64) :
    (xorCode encoder xorVal).length =
      (if encoder.prevLeading ≤ leadingZeros xorVal ∧
        encoder.prevTrailing ≤ trailingZeros xorVal then 2 else 13) +
        (nMeaningful encoder xorVal).toNat := by
  unfold xorCode nMeaningful
  rw [if_neg hx]
  split
  · simp
    omega
  · simp
    omega

def encoderAfter (values : List (BitVec 64)) : ValueEncoder × BitWriter :=
  values.foldl (fun s value => valEncoderWrite s.1 s.2 value) (valEncoderInit, bwCreate)

def emitted (before : List (BitVec 64)) (value : BitVec 64) : Int :=
  nMeaningful (encoderAfter before).1
    ((value &&& valueMask) ^^^ (encoderAfter before).1.prevValueBits)

def xors : List (BitVec 64) → List (BitVec 64)
  | u :: v :: values => ((v &&& valueMask) ^^^ (u &&& valueMask)) :: xors (v :: values)
  | _ => []

/-- The bits between the leading zeros, of which at most 31 count, and the trailing ones. -/
def width (xorVal : BitVec 64) : Int := 64 - leadingZeros xorVal - trailingZeros xorVal

def widest (xs : List (BitVec 64)) : Int :=
  ((xs.filter (· ≠ 0#64)).map width).foldr max 0

/-- No value is written with more bits than the widest XOR so far. -/
def Narrows (values : List (BitVec 64)) : Prop :=
  ∀ before u v after, values = before ++ u :: v :: after → v &&& valueMask ≠ u &&& valueMask →
    emitted (before ++ [u]) v ≤ widest (xors (before ++ [u, v]))

def NoChange (values : List (BitVec 64)) : Prop :=
  ∀ before u v after, values = before ++ u :: v :: after → v &&& valueMask = u &&& valueMask

theorem encoderAfter_window (values : List (BitVec 64)) :
    (encoderAfter values).1.prevLeading = 0 ∧ (encoderAfter values).1.prevTrailing = 0 := by
  apply foldl_keeps (P := fun s : ValueEncoder × BitWriter =>
    s.1.prevLeading = 0 ∧ s.1.prevTrailing = 0)
  · rintro ⟨encoder, bw⟩ value _ ⟨hleading, htrailing⟩
    dsimp only at hleading htrailing ⊢
    unfold valEncoderWrite
    dsimp only
    split
    · exact ⟨hleading, htrailing⟩
    · have hin (xorVal : BitVec 64) : nextWindow encoder xorVal = (0, 0) := by
        unfold nextWindow
        rw [hleading, htrailing, if_pos]
        exact .inr ⟨(leadingZeros_le xorVal).1, by simp [trailingZeros]⟩
      rw [valEncoderWriteXor_window, hin]
      exact ⟨rfl, rfl⟩
  · exact ⟨rfl, rfl⟩

theorem encoderAfter_prev (before : List (BitVec 64)) (u : BitVec 64) :
    (encoderAfter (before ++ [u])).1.prevValueBits = u &&& valueMask ∧
      (encoderAfter (before ++ [u])).1.isFirst = false := by
  unfold encoderAfter
  rw [List.foldl_append, List.foldl_cons, List.foldl_nil]
  unfold valEncoderWrite
  dsimp only
  split
  case isTrue => exact ⟨rfl, rfl⟩
  case isFalse hlater => exact ⟨rfl, Bool.not_eq_true _ ▸ hlater⟩

/-- The window never narrows: all 64 bits are written. -/
theorem emitted_eq (before : List (BitVec 64)) (value : BitVec 64) :
    emitted before value = 64 := by
  obtain ⟨hleading, htrailing⟩ := encoderAfter_window before
  unfold emitted nMeaningful
  rw [hleading, htrailing, if_pos]
  · rfl
  · exact ⟨(leadingZeros_le _).1, by simp [trailingZeros]⟩

theorem valCode_emitted (before : List (BitVec 64)) (u : BitVec 64) {v : BitVec 64}
    (hne : v &&& valueMask ≠ u &&& valueMask) :
    (valCode (encoderAfter (before ++ [u])).1 v).length = 2 + (emitted (before ++ [u]) v).toNat := by
  obtain ⟨hprev, hlater⟩ := encoderAfter_prev before u
  obtain ⟨hleading, htrailing⟩ := encoderAfter_window (before ++ [u])
  have hx : (v &&& valueMask) ^^^ (u &&& valueMask) ≠ 0#64 := by
    intro hzero
    exact hne (BitVec.xor_eq_zero_iff.mp hzero)
  unfold valCode emitted
  rw [hprev, if_neg (by simp [hlater]), xorCode_length _ hx, if_pos]
  rw [hleading, htrailing]
  exact ⟨(leadingZeros_le _).1, by simp [trailingZeros]⟩

theorem masked_low {xs : List (BitVec 64)} {x : BitVec 64} (hx : x ∈ xors xs) {i : Nat}
    (hi : i < 4) : x.getLsbD i = false := by
  induction xs with
  | nil => simp [xors] at hx
  | cons u values ih =>
    cases values with
    | nil => simp [xors] at hx
    | cons v values =>
      rcases List.mem_cons.mp hx with rfl | hx
      · have hmask : valueMask.getLsbD i = false := by
          interval_cases i <;> rfl
        simp [hmask]
      · exact ih hx

theorem width_le {xs : List (BitVec 64)} {x : BitVec 64} (hx : x ∈ xors xs) (h0 : x ≠ 0#64) :
    width x ≤ 60 := by
  have hset : x.getLsbD x.ctz.toNat = true := BitVec.getLsbD_true_ctz_of_ne_zero h0
  have hctz : 4 ≤ x.ctz.toNat := by
    by_contra hlow
    rw [masked_low hx (by omega)] at hset
    cases hset
  have hleading := (leadingZeros_le x).1
  unfold width trailingZeros
  omega

theorem widest_le (xs : List (BitVec 64)) : widest (xors xs) ≤ 60 := by
  have hall : ∀ n ∈ ((xors xs).filter (· ≠ 0#64)).map width, n ≤ 60 := by
    intro n hn
    obtain ⟨x, hx, rfl⟩ := List.mem_map.mp hn
    obtain ⟨hx, h0⟩ := List.mem_filter.mp hx
    exact width_le hx (of_decide_eq_true h0)
  unfold widest
  generalize ((xors xs).filter (· ≠ 0#64)).map width = ns at hall
  induction ns with
  | nil => decide
  | cons n ns ih =>
    rw [List.foldr_cons]
    exact max_le (hall n (by simp)) (ih fun m hm => hall m (List.mem_cons_of_mem _ hm))

/-- The bound on the written bits holds for a sequence only where it speaks of no position. -/
theorem narrows_iff (values : List (BitVec 64)) : Narrows values ↔ NoChange values := by
  constructor
  · intro h before u v after hvalues
    by_contra hne
    have hbound := h before u v after hvalues hne
    have hwidest := widest_le (before ++ [u, v])
    rw [emitted_eq] at hbound
    omega
  · intro h before u v after hvalues hne
    exact absurd (h before u v after hvalues) hne

/-- The double 1.0 behind 0.0 has ten bits between its zeros, and 64 are written. -/
theorem one_after_zero_wide : ¬ ∀ values : List (BitVec 64), Narrows values := by
  intro h
  have hbound := h [0, 0x3FF0000000000000] [] 0 0x3FF0000000000000 [] rfl (by decide)
  have hwidest := widest_le ([] ++ [0, 0x3FF0000000000000])
  rw [emitted_eq] at hbound
  omega

end Tsdb.ValueWindow
