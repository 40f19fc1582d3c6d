import Tsdb.LittleEndian
import Tsdb.Sections

namespace Tsdb.WalBytes

open Head Files Wal Registry Sections LittleEndian

/-- A point with its double as the 64 bits that the log stores. -/
abbrev Sample := Point (BitVec 64)

def walRecordBytes : Nat := 16

/-- What `wal_append` writes: the timestamp as `int64_t`, then the double. -/
def recordBytes (point : Sample) : List Byte :=
  wordBytes (BitVec.ofInt 64 point.ts) ++ wordBytes point.value

/-- `fopen` with mode `ab` creates the file when there is none. -/
def walAppendBytes (file : Option (List Byte)) (point : Sample) : Option (List Byte) :=
  some (file.getD [] ++ recordBytes point)

/-- `fread` of one eight-byte item; `none` is a return value of zero. -/
def fread8 (file : List Byte) : Option (BitVec 64 × List Byte) :=
  if 8 ≤ file.length then some (bytesWord (file.take 8), file.drop 8) else none

def readRecord (file : List Byte) : Option (Sample × List Byte) :=
  (fread8 file).bind fun (ts64, file) =>
    (fread8 file).map fun (val, file) => (⟨ts64.toInt, val⟩, file)

def walReplayLoop : Nat → List Byte → HeadBlock (BitVec 64) → HeadBlock (BitVec 64)
  | 0, _, head => head
  | fuel + 1, file, head =>
    match readRecord file with
    | none => head
    | some (point, file) => walReplayLoop fuel file (replayRecord head point)

def walReplayBytes (file : Option (List Byte)) (head : HeadBlock (BitVec 64)) :
    HeadBlock (BitVec 64) :=
  match file with
  | none => head
  | some file => walReplayLoop file.length file head

def InLong (ts : Int) : Prop := -2 ^ 63 ≤ ts ∧ ts < 2 ^ 63

@[simp] theorem recordBytes_length (point : Sample) :
    (recordBytes point).length = walRecordBytes := by
  simp [recordBytes, walRecordBytes]

theorem records_length (records : List Sample) :
    (records.flatMap recordBytes).length = walRecordBytes * records.length := by
  induction records with
  | nil => rfl
  | cons p records ih =>
    rw [List.flatMap_cons, List.length_append, ih, recordBytes_length, List.length_cons]
    ring

theorem fread8_append {bytes rest : List Byte} (h : bytes.length = 8) :
    fread8 (bytes ++ rest) = some (bytesWord bytes, rest) := by
  have hle : 8 ≤ (bytes ++ rest).length := by simp [h]
  rw [fread8, if_pos hle, ← h, List.take_left, List.drop_left]

theorem fread8_some {file rest : List Byte} {w : BitVec 64} (h : fread8 file = some (w, rest)) :
    file = wordBytes w ++ rest := by
  unfold fread8 at h
  split at h
  case isTrue hle =>
    obtain ⟨rfl, rfl⟩ := Prod.mk.inj (Option.some.inj h)
    have hlen : (file.take 8).length = 8 := by simpa using hle
    rw [wordBytes_bytesWord hlen, List.take_append_drop]
  case isFalse => cases h

theorem readRecord_append {point : Sample} (h : InLong point.ts) (rest : List Byte) :
    readRecord (recordBytes point ++ rest) = some (point, rest) := by
  have hts : (BitVec.ofInt 64 point.ts).toInt = point.ts := by
    apply BitVec.toInt_ofInt_eq_self (by decide)
    · exact h.1
    · exact h.2
  rw [readRecord, recordBytes, List.append_assoc, fread8_append (wordBytes_length _),
    Option.bind_some]
  dsimp only
  rw [fread8_append (wordBytes_length _), Option.map_some, bytesWord_wordBytes,
    bytesWord_wordBytes, hts]

theorem readRecord_some {file rest : List Byte} {point : Sample}
    (h : readRecord file = some (point, rest)) :
    file = recordBytes point ++ rest ∧ InLong point.ts := by
  obtain ⟨⟨ts64, file'⟩, hts, h⟩ := Option.bind_eq_some_iff.mp h
  obtain ⟨⟨val, rest'⟩, hval, h⟩ := Option.map_eq_some_iff.mp h
  obtain ⟨rfl, rfl⟩ := Prod.mk.inj h
  refine ⟨?_, BitVec.le_toInt ts64, BitVec.toInt_lt⟩
  rw [fread8_some hts, fread8_some hval, recordBytes, BitVec.ofInt_toInt, List.append_assoc]

theorem readRecord_none {file : List Byte} (h : file.length < walRecordBytes) :
    readRecord file = none := by
  cases hr : readRecord file with
  | none => rfl
  | some out =>
    obtain ⟨hfile, _⟩ := readRecord_some hr
    rw [hfile, List.length_append, recordBytes_length] at h
    omega

theorem walReplayLoop_eq {records : List Sample} (hlong : ∀ p ∈ records, InLong p.ts)
    {tail : List Byte} (htail : tail.length < walRecordBytes) {fuel : Nat}
    (hfuel : records.length ≤ fuel) (head : HeadBlock (BitVec 64)) :
    walReplayLoop fuel (records.flatMap recordBytes ++ tail) head =
      records.foldl replayRecord head := by
  induction records generalizing fuel head with
  | nil =>
    cases fuel with
    | zero => rfl
    | succ fuel =>
      rw [walReplayLoop, List.flatMap_nil, List.nil_append, readRecord_none htail]
      rfl
  | cons p records ih =>
    cases fuel with
    | zero => simp at hfuel
    | succ fuel =>
      rw [walReplayLoop, List.flatMap_cons, List.append_assoc,
        readRecord_append (hlong p (by simp)), List.foldl_cons]
      apply ih (fun q hq => hlong q (List.mem_cons_of_mem _ hq))
      simpa using hfuel

theorem walReplayBytes_eq {records : List Sample} (hlong : ∀ p ∈ records, InLong p.ts)
    {tail : List Byte} (htail : tail.length < walRecordBytes) (head : HeadBlock (BitVec 64)) :
    walReplayBytes (some (records.flatMap recordBytes ++ tail)) head =
      records.foldl replayRecord head := by
  apply walReplayLoop_eq hlong htail
  rw [List.length_append, records_length, walRecordBytes]
  omega

theorem exists_records (file : List Byte) : ∃ records : List Sample, ∃ tail : List Byte,
    file = records.flatMap recordBytes ++ tail ∧ tail.length < walRecordBytes ∧
      ∀ p ∈ records, InLong p.ts := by
  induction hn : file.length using Nat.strong_induction_on generalizing file with
  | _ n ih =>
    cases hr : readRecord file with
    | none =>
      refine ⟨[], file, rfl, ?_, by simp⟩
      by_contra hlong
      have h8 : 8 ≤ file.length := by
        unfold walRecordBytes at hlong
        omega
      have h16 : 8 ≤ (file.drop 8).length := by
        rw [List.length_drop]
        unfold walRecordBytes at hlong
        omega
      simp only [readRecord, fread8, if_pos h8, Option.bind_some, if_pos h16, Option.map_some,
        reduceCtorEq] at hr
    | some out =>
      obtain ⟨point, rest⟩ := out
      obtain ⟨hfile, hlong⟩ := readRecord_some hr
      have hshort : rest.length < n := by
        rw [← hn, hfile, List.length_append, recordBytes_length, walRecordBytes]
        omega
      obtain ⟨records, tail, hrest, htail, hrecords⟩ := ih rest.length hshort rest rfl
      refine ⟨point :: records, tail, ?_, htail, ?_⟩
      · rw [hfile, hrest, List.flatMap_cons, List.append_assoc]
      · intro p hp
        cases List.mem_cons.mp hp with
        | inl h => exact h ▸ hlong
        | inr h => exact hrecords p h

def logBytes (wal : Option (List Sample)) : Option (List Byte) :=
  wal.map (List.flatMap recordBytes)

theorem logBytes_append (dir : Dir (BitVec 64)) (point : Sample) :
    logBytes (walAppend dir point).wal = walAppendBytes (logBytes dir.wal) point := by
  cases hw : dir.wal <;> simp [logBytes, walAppend, walAppendBytes, Dir.mkdir, hw]

theorem walReplay_bytes {dir : Dir (BitVec 64)} (hlong : ∀ p ∈ dir.wal.getD [], InLong p.ts)
    (head : HeadBlock (BitVec 64)) : walReplayBytes (logBytes dir.wal) head = walReplay dir head := by
  unfold walReplay
  cases hw : dir.wal with
  | none => rfl
  | some records =>
    rw [hw] at hlong
    have h := walReplayBytes_eq hlong (show ([] : List Byte).length < walRecordBytes by decide) head
    rwa [List.append_nil] at h

end Tsdb.WalBytes
