import Mathlib

namespace Tsdb.LittleEndian

abbrev Byte := BitVec 8

def leBytes : Nat → Nat → List Byte
  | 0, _ => []
  | k + 1, n => BitVec.ofNat 8 n :: leBytes k (n / 256)

def leNat : List Byte → Nat
  | [] => 0
  | b :: bytes => b.toNat + 256 * leNat bytes

@[simp] theorem leBytes_length (k n : Nat) : (leBytes k n).length = k := by
  induction k generalizing n with
  | zero => rfl
  | succ k ih => rw [leBytes, List.length_cons, ih]

theorem leNat_leBytes (k n : Nat) : leNat (leBytes k n) = n % 256 ^ k := by
  induction k generalizing n with
  | zero => simp [leBytes, leNat, Nat.mod_one]
  | succ k ih =>
    rw [leBytes, leNat, ih, pow_succ', Nat.mod_mul]
    simp

theorem leBytes_leNat (bytes : List Byte) : leBytes bytes.length (leNat bytes) = bytes := by
  induction bytes with
  | nil => rfl
  | cons b bytes ih =>
    have hb := b.isLt
    have hdiv : (b.toNat + 256 * leNat bytes) / 256 = leNat bytes := by omega
    rw [leNat, List.length_cons, leBytes, hdiv, ih]
    congr 1
    apply BitVec.eq_of_toNat_eq
    rw [BitVec.toNat_ofNat]
    omega

theorem leNat_lt (bytes : List Byte) : leNat bytes < 256 ^ bytes.length := by
  induction bytes with
  | nil => exact Nat.one_pos
  | cons b bytes ih =>
    have hb := b.isLt
    rw [leNat, List.length_cons, pow_succ']
    omega

def wordBytes (w : BitVec 64) : List Byte := leBytes 8 w.toNat

def bytesWord (bytes : List Byte) : BitVec 64 := BitVec.ofNat 64 (leNat bytes)

@[simp] theorem wordBytes_length (w : BitVec 64) : (wordBytes w).length = 8 := leBytes_length 8 _

theorem bytesWord_wordBytes (w : BitVec 64) : bytesWord (wordBytes w) = w := by
  apply BitVec.eq_of_toNat_eq
  have hw := w.isLt
  rw [bytesWord, wordBytes, leNat_leBytes, BitVec.toNat_ofNat]
  omega

theorem wordBytes_bytesWord {bytes : List Byte} (h : bytes.length = 8) :
    wordBytes (bytesWord bytes) = bytes := by
  have hlt : leNat bytes < 2 ^ 64 := by simpa [h] using leNat_lt bytes
  have hback := leBytes_leNat bytes
  rw [h] at hback
  rw [wordBytes, bytesWord, BitVec.toNat_ofNat, Nat.mod_eq_of_lt hlt, hback]

theorem ofNat_leNat_leBytes {k : Nat} (w : BitVec (8 * k)) :
    BitVec.ofNat (8 * k) (leNat (leBytes k w.toNat)) = w := by
  apply BitVec.eq_of_toNat_eq
  have hw := w.isLt
  rw [leNat_leBytes, BitVec.toNat_ofNat, show (256 : Nat) = 2 ^ 8 from rfl, ← Nat.pow_mul,
    Nat.mod_mod, Nat.mod_eq_of_lt hw]

theorem leBytes_ofNat_leNat {k : Nat} {bytes : List Byte} (h : bytes.length = k) :
    leBytes k (BitVec.ofNat (8 * k) (leNat bytes)).toNat = bytes := by
  have hlt : leNat bytes < 2 ^ (8 * k) := by
    rw [Nat.pow_mul, ← h]
    exact leNat_lt bytes
  rw [BitVec.toNat_ofNat, Nat.mod_eq_of_lt hlt, ← h, leBytes_leNat]

end Tsdb.LittleEndian
