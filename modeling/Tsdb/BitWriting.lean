import Tsdb.BitField
import Tsdb.BitIO

namespace Tsdb.BitWriting

open BitField BitIO

def octets (bytes : List (BitVec 8)) : List Bool := bytes.flatMap (fun b => bits b 8)

@[simp] theorem octets_length (bytes : List (BitVec 8)) :
    (octets bytes).length = 8 * bytes.length := by
  induction bytes with
  | nil => rfl
  | cons b bytes ih => simp [octets] at ih ⊢; omega

theorem octets_append (xs ys : List (BitVec 8)) : octets (xs ++ ys) = octets xs ++ octets ys := by
  simp [octets]

/-- The writer holds exactly the bit string `bs`: whole bytes in the buffer, the rest in
the high bits of the current byte, whose low bits are still clear. -/
structure Written (bs : List Bool) (bw : BitWriter) : Prop where
  filled_lt : bw.filledBits < 8
  clear : ∀ i, i + bw.filledBits < 8 → bw.currentByte.getLsbD i = false
  bits_eq : octets bw.buffer.data ++
    field (fun i => bw.currentByte.getLsbD (i + (8 - bw.filledBits))) bw.filledBits = bs

theorem written_create : Written [] bwCreate := by
  refine ⟨by decide, fun i _ => ?_, rfl⟩
  simp [bwCreate]

theorem getLsbD_mask (w take i : Nat) (h : take < w) :
    ((1#w <<< take) - 1#w).getLsbD i = decide (i < take) := by
  have hp : 2 ^ take < 2 ^ w := Nat.pow_lt_pow_right (by omega) h
  have hn : ((1#w <<< take) - 1#w).toNat = 2 ^ take - 1 := by
    have h1 : 1 % 2 ^ w = 1 := Nat.mod_eq_of_lt (Nat.one_lt_two_pow (by omega))
    have ht : 0 < 2 ^ take := Nat.two_pow_pos take
    rw [BitVec.toNat_sub, BitVec.toNat_shiftLeft]
    simp only [BitVec.toNat_ofNat, h1, Nat.shiftLeft_eq, one_mul, Nat.mod_eq_of_lt hp]
    rw [show 2 ^ w - 1 + 2 ^ take = 2 ^ take - 1 + 2 ^ w by omega, Nat.add_mod_right,
      Nat.mod_eq_of_lt (by omega)]
  rw [← BitVec.testBit_toNat, hn, Nat.testBit_two_pow_sub_one]

theorem bits_and_mask (x : BitVec 64) (n : Nat) (hn : n < 64) :
    bits (x &&& ((1#64 <<< n) - 1#64)) n = bits x n := by
  apply field_congr
  intro i hi
  rw [BitVec.getLsbD_and, getLsbD_mask 64 n i hn]
  simp [hi]

theorem getLsbD_fill (cur : BitVec 8) (value : BitVec 64) (free take shift i : Nat)
    (hf : free ≤ 8) (ht : take ≤ free) (hi : i < 8) :
    (cur ||| (((value >>> shift) &&&
        (if take = 64 then BitVec.allOnes 64 else (1#64 <<< take) - 1#64))
          <<< (free - take)).setWidth 8).getLsbD i =
      (cur.getLsbD i || (decide (free - take ≤ i ∧ i < free) &&
        value.getLsbD (i - (free - take) + shift))) := by
  rw [if_neg (by omega)]
  simp only [BitVec.getLsbD_or, BitVec.getLsbD_setWidth, BitVec.getLsbD_shiftLeft,
    BitVec.getLsbD_and, BitVec.getLsbD_ushiftRight, getLsbD_mask 64 take _ (by omega)]
  by_cases h1 : free - take ≤ i
  · by_cases h2 : i < free
    · have hs : ¬ i < free - take := by omega
      simp [h1, h2, hi, hs, show i < 64 by omega, show i - (free - take) < take by omega,
        Nat.add_comm shift]
    · simp [h2, show ¬ i - (free - take) < take by omega]
  · simp [h1, show i < free - take by omega]

theorem written_round {bs : List Bool} {bw : BitWriter} (h : Written bs bw) (value : BitVec 64)
    (take shift : Nat) (ht : take ≤ 8 - bw.filledBits) (cur : BitVec 8)
    (hc : cur = bw.currentByte ||| (((value >>> shift) &&&
        (if take = 64 then BitVec.allOnes 64 else (1#64 <<< take) - 1#64))
          <<< (8 - bw.filledBits - take)).setWidth 8) :
    (∀ i, i + (bw.filledBits + take) < 8 → cur.getLsbD i = false) ∧
      octets bw.buffer.data ++
        field (fun i => cur.getLsbD (i + (8 - (bw.filledBits + take)))) (bw.filledBits + take) =
      bs ++ field (fun i => value.getLsbD (i + shift)) take := by
  have hlt := h.filled_lt
  have hbit : ∀ i < 8, cur.getLsbD i = (bw.currentByte.getLsbD i ||
      (decide (8 - bw.filledBits - take ≤ i ∧ i < 8 - bw.filledBits) &&
        value.getLsbD (i - (8 - bw.filledBits - take) + shift))) := by
    intro i hi
    rw [hc]
    exact getLsbD_fill _ _ _ _ _ _ (by omega) ht hi
  constructor
  · intro i hi
    rw [hbit i (by omega), h.clear i (by omega)]
    simp [show ¬ 8 - bw.filledBits - take ≤ i by omega]
  · rw [← h.bits_eq, field_add, List.append_assoc]
    congr 2
    · apply field_congr
      intro i hi
      rw [hbit _ (by omega), show i + take + (8 - (bw.filledBits + take)) =
        i + (8 - bw.filledBits) by omega]
      simp [show ¬ i + (8 - bw.filledBits) < 8 - bw.filledBits by omega]
    · apply field_congr
      intro i hi
      rw [hbit _ (by omega), h.clear _ (by omega)]
      have hd : 8 - bw.filledBits - take ≤ i + (8 - (bw.filledBits + take)) ∧
          i + (8 - (bw.filledBits + take)) < 8 - bw.filledBits := by omega
      simp only [hd, and_self, decide_true, Bool.false_or, Bool.true_and]
      congr 1
      omega

theorem written_loop (fuel : Nat) {bs : List Bool} {bw : BitWriter} (h : Written bs bw)
    (value : BitVec 64) (n : Nat) (hn : n ≤ fuel) :
    Written (bs ++ bits value n) (bwWriteLoop fuel bw value n) := by
  induction fuel generalizing bs bw n with
  | zero =>
    obtain rfl : n = 0 := by omega
    simpa [bwWriteLoop, bits, field] using h
  | succ fuel ih =>
    rw [bwWriteLoop]
    by_cases h0 : n = 0
    · subst h0
      simpa [bits, field] using h
    · have hlt := h.filled_lt
      rw [if_neg h0]
      dsimp only
      generalize ht : (if n < 8 - bw.filledBits then n else 8 - bw.filledBits) = take
      have hle : take ≤ 8 - bw.filledBits ∧ take ≤ n ∧ 0 < take := by
        split at ht <;> omega
      obtain ⟨hclear, hbits⟩ := written_round h value take (n - take) hle.1 _ rfl
      have hsplit : bits value n =
          field (fun i => value.getLsbD (i + (n - take))) take ++ bits value (n - take) := by
        rw [← field_add, show take + (n - take) = n by omega]
      rw [hsplit, ← List.append_assoc]
      split
      · -- the byte is full and moves to the buffer
        rename_i hfull
        refine ih ⟨by simp, fun i _ => by simp, ?_⟩ _ (by omega)
        rw [← hbits, bufferAppend, octets_append, hfull]
        simp [octets, field]
      · rename_i hroom
        exact ih ⟨by dsimp only; omega, hclear, hbits⟩ _ (by omega)

theorem written_write {bs : List Bool} {bw : BitWriter} (h : Written bs bw)
    (value : BitVec 64) (n : Nat) : Written (bs ++ bits value n) (bwWrite bw value n) :=
  written_loop n h value n le_rfl

theorem octets_close {bs : List Bool} {bw : BitWriter} (h : Written bs bw) :
    octets (bwClose bw).buffer.data = bs ++ List.replicate (8 * (bwClose bw).buffer.data.length -
      bs.length) false ∧ 8 * (bwClose bw).buffer.data.length < bs.length + 8 := by
  have hlt := h.filled_lt
  have hl := congrArg List.length h.bits_eq
  simp only [List.length_append, octets_length, field_length] at hl
  unfold bwClose
  split
  · rename_i hpos
    have hlen : (bw.buffer.data ++ [bw.currentByte]).length = bw.buffer.data.length + 1 := by simp
    simp only [bufferAppend, octets_append, hlen]
    refine ⟨?_, by omega⟩
    rw [show 8 * (bw.buffer.data.length + 1) - bs.length = 8 - bw.filledBits by omega,
      ← h.bits_eq, List.append_assoc, ← field_false]
    congr 1
    have hb : octets [bw.currentByte] =
        field bw.currentByte.getLsbD (bw.filledBits + (8 - bw.filledBits)) := by
      rw [show bw.filledBits + (8 - bw.filledBits) = 8 by omega]
      simp [octets]
    rw [hb, field_add]
    congr 1
    exact field_congr fun i hi => h.clear i (by omega)
  · rename_i hzero
    have h0 : bw.filledBits = 0 := by omega
    refine ⟨?_, by omega⟩
    rw [← h.bits_eq]
    simp [h0, field]

end Tsdb.BitWriting
