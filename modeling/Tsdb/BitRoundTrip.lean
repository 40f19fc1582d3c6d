import Tsdb.BitReading

namespace Tsdb.BitRoundTrip

open BitField BitIO BitWriting BitReading

/-- What one call of `bwWrite` is given: any word, bits above the width included. -/
structure Entry where
  value : BitVec 64
  width : Nat
  width_le : width ≤ 64

def writeAll (bw : BitWriter) (entries : List Entry) : BitWriter :=
  entries.foldl (fun bw entry => bwWrite bw entry.value entry.width) bw

def readAll (br : BitReader) : List Nat → List (BitVec 64) × BitReader
  | [] => ([], br)
  | width :: widths =>
    let rest := readAll (brRead br width).2 widths
    ((brRead br width).1 :: rest.1, rest.2)

def totalBits (entries : List Entry) : Nat := (entries.map Entry.width).sum

/-- The writer between two calls: its byte is not full, and what is not filled is zero. -/
structure Settled (bw : BitWriter) : Prop where
  filled_le : bw.filledBits ≤ 7
  unfilled : ∀ i < 8 - bw.filledBits, bw.currentByte.getLsbD i = false

def code (entries : List Entry) : List Bool :=
  entries.flatMap fun entry => bits entry.value entry.width

theorem code_length (entries : List Entry) : (code entries).length = totalBits entries := by
  induction entries with
  | nil => rfl
  | cons entry entries ih =>
    rw [code, List.flatMap_cons, List.length_append, field_length]
    exact congrArg (entry.width + ·) ih

theorem written_all (entries : List Entry) {bs : List Bool} {bw : BitWriter}
    (h : Written bs bw) : Written (bs ++ code entries) (writeAll bw entries) := by
  induction entries generalizing bs bw with
  | nil => simpa [code, writeAll] using h
  | cons entry entries ih =>
    have hrest := ih (written_write h entry.value entry.width)
    rwa [List.append_assoc] at hrest

theorem ready_all (entries : List Entry) {buf : ByteBuffer} {more : List Bool} {br : BitReader}
    (h : Ready buf (code entries ++ more) br) :
    ∃ br', readAll br (entries.map Entry.width) =
        (entries.map fun entry => (entry.value.setWidth entry.width).setWidth 64, br') ∧
      Ready buf more br' := by
  induction entries generalizing br with
  | nil => exact ⟨br, rfl, h⟩
  | cons entry entries ih =>
    rw [code, List.flatMap_cons, List.append_assoc] at h
    obtain ⟨br₁, hfirst, hready⟩ := ready_bits entry.value entry.width h
    obtain ⟨br₂, hrest, hend⟩ := ih hready
    refine ⟨br₂, ?_, hend⟩
    rw [List.map_cons, readAll, hfirst]
    dsimp only
    rw [hrest]
    rfl

theorem toNat_setWidth_setWidth (x : BitVec 64) (n : Nat) :
    ((x.setWidth n).setWidth 64).toNat = x.toNat % 2 ^ n := by
  have hlt : x.toNat % 2 ^ n < 2 ^ 64 := lt_of_le_of_lt (Nat.mod_le _ _) x.isLt
  rw [BitVec.toNat_setWidth, BitVec.toNat_setWidth, Nat.mod_eq_of_lt hlt]

theorem settled_of_written {bs : List Bool} {bw : BitWriter} (h : Written bs bw) :
    Settled bw := by
  have hlt := h.filled_lt
  refine ⟨by omega, fun i hi => h.clear i (by omega)⟩

theorem close_length {bs : List Bool} {bw : BitWriter} (h : Written bs bw) :
    (bwClose bw).buffer.data.length = bs.length ⌈/⌉ 8 := by
  obtain ⟨hpad, hlt⟩ := octets_close h
  have hlen := congrArg List.length hpad
  rw [octets_length, List.length_append, List.length_replicate] at hlen
  rw [Nat.ceilDiv_eq_add_pred_div]
  omega

/-- Whatever the widths, and wherever in a byte a value begins. -/
theorem bits_round_trip (entries : List Entry) :
    (readAll (brCreate (bwClose (writeAll bwCreate entries)).buffer)
        (entries.map Entry.width)).1.map BitVec.toNat =
      (entries.map fun entry => entry.value.toNat % 2 ^ entry.width) ∧
    (∀ before after, entries = before ++ after → Settled (writeAll bwCreate before)) ∧
    (bwClose (writeAll bwCreate entries)).buffer.data.length = totalBits entries ⌈/⌉ 8 := by
  have hcode (entries : List Entry) : Written (code entries) (writeAll bwCreate entries) :=
    written_all entries written_create
  refine ⟨?_, fun before _ _ => settled_of_written (hcode before), ?_⟩
  · have hready := ready_create (bwClose (writeAll bwCreate entries)).buffer
    rw [(octets_close (hcode entries)).1] at hready
    obtain ⟨br, hread, _⟩ := ready_all entries hready
    rw [hread, List.map_map]
    exact List.map_congr_left fun entry _ => toNat_setWidth_setWidth entry.value entry.width
  · rw [close_length (hcode entries), code_length]

example : (bwClose (writeAll bwCreate
    [⟨0xFF, 3, by decide⟩, ⟨5, 0, by decide⟩, ⟨0xFF03, 9, by decide⟩])).buffer.data =
      [0xF0, 0x30] := by decide

end Tsdb.BitRoundTrip
