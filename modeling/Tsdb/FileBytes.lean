import Tsdb.Exactness
import Tsdb.StoredTimes
import Tsdb.WalBytes

namespace Tsdb.FileBytes

open Head BitIO Timestamp Value ChunkCodec Chunk ChunkLossless StoredTimes LittleEndian WalBytes
open Files (ChunkFile ChunkData)

def headerSize : Nat := 32

/-- The header as it lies in memory. Four bytes that nothing sets stand between `chunkid` and
`startts`. -/
def headerBytes (pad : List Byte) (header : ChunkHeader) : List Byte :=
  leBytes 4 header.chunkId.toNat ++ (pad ++ (wordBytes header.startTs ++
    (wordBytes header.endTs ++ (leBytes 4 header.sizeBytes.toNat ++
      leBytes 4 header.pointCount.toNat))))

def fieldBytes (offset size : Nat) (bytes : List Byte) : List Byte :=
  (bytes.drop offset).take size

def headerOf (bytes : List Byte) : ChunkHeader where
  chunkId := BitVec.ofNat 32 (leNat (fieldBytes 0 4 bytes))
  startTs := bytesWord (fieldBytes 8 8 bytes)
  endTs := bytesWord (fieldBytes 16 8 bytes)
  sizeBytes := BitVec.ofNat 32 (leNat (fieldBytes 24 4 bytes))
  pointCount := BitVec.ofNat 32 (leNat (fieldBytes 28 4 bytes))

/-- What the two `fread`s of `chunkread` have before them. -/
def ofBytes (file : List Byte) : ChunkBytes :=
  ⟨if headerSize ≤ file.length then some (headerOf file) else none, file.drop headerSize⟩

def toBytes (pad : List Byte) (file : ChunkBytes) : List Byte :=
  (file.header.map (headerBytes pad)).getD [] ++ file.payload

theorem headerBytes_length {pad : List Byte} (hpad : pad.length = 4) (header : ChunkHeader) :
    (headerBytes pad header).length = headerSize := by
  simp [headerBytes, hpad, headerSize]

theorem fieldBytes_skip {offset : Nat} (size : Nat) {before : List Byte}
    (h : before.length ≤ offset) (after : List Byte) :
    fieldBytes offset size (before ++ after) = fieldBytes (offset - before.length) size after := by
  rw [fieldBytes, List.drop_append, List.drop_eq_nil_of_le h, List.nil_append, fieldBytes]

theorem fieldBytes_here {size : Nat} {field : List Byte} (h : field.length = size)
    (after : List Byte) : fieldBytes 0 size (field ++ after) = field := by
  rw [fieldBytes, List.drop_zero, ← h, List.take_left]

theorem headerOf_headerBytes {pad : List Byte} (hpad : pad.length = 4) (header : ChunkHeader)
    (rest : List Byte) : headerOf (headerBytes pad header ++ rest) = header := by
  have hword (w : BitVec 32) : BitVec.ofNat 32 (leNat (leBytes 4 w.toNat)) = w :=
    ofNat_leNat_leBytes (k := 4) w
  simp [headerOf, headerBytes, fieldBytes_skip, fieldBytes_here, hpad, hword, bytesWord_wordBytes]

theorem headerBytes_headerOf {file : List Byte} (h : headerSize ≤ file.length) :
    headerBytes (fieldBytes 4 4 file) (headerOf file) ++ file.drop headerSize = file := by
  have hlen (offset size : Nat) (hfit : offset + size ≤ headerSize) :
      (fieldBytes offset size file).length = size := by
    rw [fieldBytes, List.length_take, List.length_drop]
    omega
  have hword (offset : Nat) (hfit : offset + 4 ≤ headerSize) :
      leBytes 4 (BitVec.ofNat 32 (leNat (fieldBytes offset 4 file))).toNat =
        fieldBytes offset 4 file :=
    leBytes_ofNat_leNat (hlen offset 4 hfit)
  have hjoin (offset size : Nat) :
      fieldBytes offset size file ++ file.drop (offset + size) = file.drop offset := by
    rw [fieldBytes, ← List.drop_drop, List.take_append_drop]
  simp only [headerBytes, headerOf, List.append_assoc]
  rw [hword 0 (by decide), hword 24 (by decide), hword 28 (by decide),
    wordBytes_bytesWord (hlen 8 8 (by decide)), wordBytes_bytesWord (hlen 16 8 (by decide)),
    show headerSize = 28 + 4 from rfl, hjoin 28 4, hjoin 24 4, hjoin 16 8, hjoin 8 8, hjoin 4 4,
    hjoin 0 4, List.drop_zero]

theorem ofBytes_append {pad : List Byte} (hpad : pad.length = 4) (header : ChunkHeader)
    (rest : List Byte) : ofBytes (headerBytes pad header ++ rest) = ⟨some header, rest⟩ := by
  have hlen := headerBytes_length hpad header
  rw [ofBytes, List.length_append, hlen, if_pos (Nat.le_add_right _ _), headerOf_headerBytes hpad,
    ← hlen, List.drop_left]

theorem ofBytes_short {file : List Byte} (h : file.length < headerSize) :
    chunkRead (ofBytes file) = none := by
  rw [ofBytes, if_neg (Nat.not_le.mpr h), chunkRead]

theorem chunkRead_iff {file payload : List Byte} {header : ChunkHeader} :
    chunkRead (ofBytes file) = some (header, payload) ↔
      payload.length = header.sizeBytes.toNat ∧ ∃ pad tail, pad.length = 4 ∧
        file = headerBytes pad header ++ (payload ++ tail) := by
  constructor
  · intro h
    by_cases hlen : headerSize ≤ file.length
    · rw [ofBytes, if_pos hlen, chunkRead] at h
      dsimp only at h
      obtain ⟨hfit, h⟩ := Option.ite_none_left_eq_some.mp h
      obtain ⟨rfl, rfl⟩ := Prod.mk.inj (Option.some.inj h)
      refine ⟨List.length_take_of_le (Nat.not_lt.mp hfit), fieldBytes 4 4 file,
        (file.drop headerSize).drop (headerOf file).sizeBytes.toNat, ?_, ?_⟩
      · rw [fieldBytes, List.length_take, List.length_drop]
        unfold headerSize at hlen
        omega
      · rw [List.take_append_drop, headerBytes_headerOf hlen]
    · rw [ofBytes_short (Nat.not_le.mp hlen)] at h
      cases h
  · rintro ⟨hsize, pad, tail, hpad, rfl⟩
    rw [ofBytes_append hpad, chunkRead]
    dsimp only
    rw [List.length_append, if_neg (by omega), ← hsize, List.take_left]

/-- A file that ends before its payload does is refused. -/
theorem chunkRead_cut {pad payload : List Byte} (hpad : pad.length = 4) {header : ChunkHeader}
    (hsize : payload.length = header.sizeBytes.toNat) {n : Nat}
    (h : n < (headerBytes pad header ++ payload).length) :
    chunkRead (ofBytes ((headerBytes pad header ++ payload).take n)) = none := by
  have hlen := headerBytes_length hpad header
  rw [List.length_append, hlen] at h
  by_cases hshort : n < headerSize
  · apply ofBytes_short
    rw [List.length_take]
    omega
  · have hrest : (payload.take (n - headerSize)).length < header.sizeBytes.toNat := by
      rw [List.length_take]
      omega
    rw [List.take_append, hlen, List.take_of_length_le (by omega), ofBytes_append hpad, chunkRead]
    dsimp only
    rw [if_pos hrest]

def chunkFile (file : List Byte) : ChunkFile (BitVec 64) :=
  match chunkRead (ofBytes file) with
  | none => .torn
  | some (header, payload) =>
    let points := (decodePoints header.pointCount.toNat ⟨payload, 0⟩).1
    .whole ⟨header.startTs.toInt, header.endTs.toInt, points.map fun p => ⟨p.1.toInt, p.2⟩⟩

def words (points : List Sample) : List (BitVec 64 × BitVec 64) :=
  points.map fun p => (BitVec.ofInt 64 p.ts, p.value)

def flushBytes (id : Nat) (pad : List Byte) (points : List Sample) : List Byte :=
  ((flushToChunk (BitVec.ofNat 32 id) (words points)).map (toBytes pad)).getD []

def kept (points : List Sample) : List Sample :=
  ((stored (points.map Point.ts)).zip (points.map fun p => p.value &&& valueMask)).map
    fun p => ⟨p.1, p.2⟩

theorem kept_exact {points : List Sample} (hlong : ∀ p ∈ points, InLong p.ts)
    (h : Exactness.Exact id points) : kept points = points := by
  have htimes : stored (points.map Point.ts) = points.map Point.ts := by
    apply stored_eq_self
    · intro t ht
      obtain ⟨p, hp, rfl⟩ := List.mem_map.mp ht
      exact hlong p hp
    · rw [List.map_map]
      exact h.1
  have hvalues : (points.map fun p => p.value &&& valueMask) = points.map Point.value :=
    List.map_congr_left fun p hp => (mask_eq_iff p.value).mpr (h.2 p hp)
  rw [kept, htimes, hvalues, List.zip_map', List.map_map]
  exact List.map_id points

theorem kept_decoded (points : List Sample) :
    ((recovered tsEncoderInit tsDecoderInit ((words points).map Prod.fst)).zip
      ((words points).map fun p => p.2 &&& valueMask)).map (fun p => (⟨p.1.toInt, p.2⟩ : Sample)) =
        kept points := by
  have htimes : (words points).map Prod.fst = (points.map Point.ts).map (BitVec.ofInt 64) := by
    simp [words]
  have hvalues : ((words points).map fun p => p.2 &&& valueMask) =
      points.map fun p => p.value &&& valueMask := by simp [words]
  rw [kept, htimes, hvalues, ← recovered_stored, List.zip_map_left,
    List.map_map (f := Prod.map BitVec.toInt id)]
  rfl

theorem flushBytes_eq (id : Nat) (pad : List Byte) {points : List Sample} {first last : Sample}
    (hfirst : first ∈ points.head?) (hlast : last ∈ points.getLast?)
    (hroom : points.length ≤ headCapacity) :
    ∃ header payload, flushBytes id pad points = headerBytes pad header ++ payload ∧
      payload.length = header.sizeBytes.toNat ∧
      header.startTs = BitVec.ofInt 64 first.ts ∧ header.endTs = BitVec.ofInt 64 last.ts ∧
      (decodePoints header.pointCount.toNat ⟨payload, 0⟩).1.map (fun p => ⟨p.1.toInt, p.2⟩) =
        kept points := by
  have hlen : (words points).length = points.length := List.length_map _
  have hw : (words points).length < 2 ^ 32 := by
    unfold headCapacity at hroom
    omega
  have hwfirst : (words points).head? = some (BitVec.ofInt 64 first.ts, first.value) := by
    rw [words, List.head?_map, Option.mem_def.mp hfirst, Option.map_some]
  have hwlast : (words points).getLast? = some (BitVec.ofInt 64 last.ts, last.value) := by
    rw [words, List.getLast?_map, Option.mem_def.mp hlast, Option.map_some]
  have hsmall := (decode_encode (words points) _ rfl).2.2.2
  have hcount : (BitVec.ofNat 32 (words points).length).toNat = (words points).length := by
    rw [BitVec.toNat_ofNat, Nat.mod_eq_of_lt hw]
  have hsize : (BitVec.ofNat 32 (bwClose (encodePoints (words points))).buffer.data.length).toNat =
      (bwClose (encodePoints (words points))).buffer.data.length := by
    rw [BitVec.toNat_ofNat]
    unfold headCapacity at hroom
    exact Nat.mod_eq_of_lt (by omega)
  rw [flushBytes, flushToChunk, hwfirst, hwlast]
  refine ⟨_, _, rfl, ?_, rfl, rfl, ?_⟩
  · dsimp only [chunkWrite]
    rw [hsize, List.take_length]
  · dsimp only [chunkWrite]
    rw [hsize, List.take_length, hcount, (decode_encode (words points) ⟨_, 0⟩ rfl).1,
      kept_decoded]

section Flush

variable {id : Nat} {pad : List Byte} {points : List Sample} {first last : Sample}

theorem chunkFile_cut (hpad : pad.length = 4) (hfirst : first ∈ points.head?)
    (hlast : last ∈ points.getLast?) (hroom : points.length ≤ headCapacity) {n : Nat}
    (hcut : n < (flushBytes id pad points).length) :
    chunkFile ((flushBytes id pad points).take n) = .torn := by
  obtain ⟨header, payload, hbytes, hsize, _⟩ := flushBytes_eq id pad hfirst hlast hroom
  rw [hbytes] at hcut ⊢
  rw [chunkFile, chunkRead_cut hpad hsize hcut]

theorem chunkFile_flush (hpad : pad.length = 4) (hfirst : first ∈ points.head?)
    (hlast : last ∈ points.getLast?) (hroom : points.length ≤ headCapacity)
    (hlong : ∀ p ∈ points, InLong p.ts) :
    chunkFile (flushBytes id pad points) = .whole ⟨first.ts, last.ts, kept points⟩ := by
  obtain ⟨header, payload, hbytes, hsize, hstart, hend, hpoints⟩ :=
    flushBytes_eq id pad hfirst hlast hroom
  have hback (p : Sample) (hp : p ∈ points) : (BitVec.ofInt 64 p.ts).toInt = p.ts := by
    obtain ⟨hlow, hhigh⟩ := hlong p hp
    exact BitVec.toInt_ofInt_eq_self (by decide) hlow hhigh
  have hread : chunkRead (ofBytes (flushBytes id pad points)) = some (header, payload) := by
    rw [hbytes, chunkRead_iff]
    exact ⟨hsize, pad, [], hpad, by rw [List.append_nil]⟩
  rw [chunkFile, hread]
  dsimp only
  rw [hpoints, hstart, hend, hback first (List.mem_of_mem_head? hfirst),
    hback last (List.mem_of_mem_getLast? hlast)]

end Flush

/-- A chunk file is there as a whole or not at all: cut short at any byte it is refused, and
complete it gives its range, and all its points as far as a chunk keeps them. -/
theorem chunkFile_take (id : Nat) {pad : List Byte} (hpad : pad.length = 4)
    {points : List Sample} {first last : Sample} (hfirst : first ∈ points.head?)
    (hlast : last ∈ points.getLast?) (hroom : points.length ≤ headCapacity)
    (hlong : ∀ p ∈ points, InLong p.ts) (n : Nat) :
    chunkFile ((flushBytes id pad points).take n) =
      if n < (flushBytes id pad points).length then .torn
      else .whole ⟨first.ts, last.ts, kept points⟩ := by
  split
  case isTrue hcut =>
    exact chunkFile_cut hpad hfirst hlast hroom hcut
  case isFalse hcut =>
    rw [List.take_of_length_le (Nat.not_lt.mp hcut)]
    exact chunkFile_flush hpad hfirst hlast hroom hlong

private def twoSamples : List Sample := [⟨100, 0x4045400000000000⟩, ⟨110, 0xC000000000000000⟩]

/-- A file cut short at byte 50, and the complete one. -/
theorem chunkFile_take_two_points :
    50 < (flushBytes 100 [1, 2, 3, 4] twoSamples).length ∧
      chunkFile ((flushBytes 100 [1, 2, 3, 4] twoSamples).take 50) = .torn ∧
      chunkFile (flushBytes 100 [1, 2, 3, 4] twoSamples) = .whole ⟨100, 110, twoSamples⟩ := by
  have hlong : ∀ p ∈ twoSamples, InLong p.ts := by simp [twoSamples, InLong]
  have hlen : 50 < (flushBytes 100 [1, 2, 3, 4] twoSamples).length := by decide
  have htake := @chunkFile_take 100 [1, 2, 3, 4] (by decide) twoSamples _ _ rfl rfl (by decide) hlong
  have hcut := htake 50
  have hwhole := htake (flushBytes 100 [1, 2, 3, 4] twoSamples).length
  rw [if_pos hlen] at hcut
  rw [if_neg (lt_irrefl _), List.take_length, kept_exact hlong (by decide)] at hwhole
  exact ⟨hlen, hcut, hwhole⟩

end Tsdb.FileBytes
