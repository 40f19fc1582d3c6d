import Tsdb.BitWriting

namespace Tsdb.BitReading

open BitField BitIO BitWriting

def position (br : BitReader) : Nat := 8 * br.byteOffset + br.bitsConsumed

/-- The reader stands before exactly the bits `more` of `buf` and has never met its end. -/
structure Ready (buf : ByteBuffer) (more : List Bool) (br : BitReader) : Prop where
  buffer_eq : br.buffer = buf
  consumed_lt : br.bitsConsumed < 8
  inside : position br ≤ 8 * buf.data.length
  rest_eq : (octets (buf.data.drop br.byteOffset)).drop br.bitsConsumed = more
  clean : br.hitEnd = false

theorem ready_create (buf : ByteBuffer) : Ready buf (octets buf.data) (brCreate buf) :=
  ⟨rfl, by simp [brCreate], by simp [position, brCreate], by simp [brCreate], rfl⟩

theorem position_ready {buf : ByteBuffer} {more : List Bool} {br : BitReader}
    (h : Ready buf more br) : position br + more.length = 8 * buf.data.length := by
  have hi := h.inside
  unfold position at hi ⊢
  rw [← h.rest_eq, List.length_drop, octets_length, List.length_drop]
  omega

theorem getLsbD_take (current : BitVec 8) (avail take i : Nat) (ha : avail ≤ 8)
    (ht : take ≤ avail) :
    ((current >>> (avail - take)) &&& (if take = 8 then 0xFF#8 else (1#8 <<< take) - 1#8)).getLsbD i =
      (decide (i < take) && current.getLsbD (i + (avail - take))) := by
  rw [BitVec.getLsbD_and, BitVec.getLsbD_ushiftRight, Bool.and_comm, Nat.add_comm]
  by_cases h8 : take = 8
  · have hall : (0xFF#8).getLsbD i = decide (i < 8) := by
      rw [show (0xFF#8) = BitVec.allOnes 8 by decide, BitVec.getLsbD_allOnes]
    rw [if_pos h8, hall, h8]
  · rw [if_neg h8, getLsbD_mask 8 take i (by omega)]

theorem current_byte {buf : ByteBuffer} {more : List Bool} {br : BitReader}
    (h : Ready buf more br) (hne : more ≠ []) :
    ∃ current, br.buffer.data[br.byteOffset]? = some current ∧
      more = field current.getLsbD (8 - br.bitsConsumed) ++
        octets (buf.data.drop (br.byteOffset + 1)) := by
  have hp := position_ready h
  have hpos : 0 < more.length := List.length_pos_iff.mpr hne
  have hc := h.consumed_lt
  have hlt : br.byteOffset < buf.data.length := by
    unfold position at hp
    omega
  refine ⟨buf.data[br.byteOffset], ?_, ?_⟩
  · rw [h.buffer_eq, List.getElem?_eq_getElem hlt]
  · have hsplit : bits buf.data[br.byteOffset] 8 =
        field (fun i => buf.data[br.byteOffset].getLsbD (i + (8 - br.bitsConsumed)))
          br.bitsConsumed ++ field buf.data[br.byteOffset].getLsbD (8 - br.bitsConsumed) := by
      rw [← field_add, show br.bitsConsumed + (8 - br.bitsConsumed) = 8 by omega]
    rw [← h.rest_eq, List.drop_eq_getElem_cons hlt, octets, List.flatMap_cons, hsplit,
      List.append_assoc, List.drop_append_of_le_length (by simp), List.drop_of_length_le (by simp),
      List.nil_append]
    rfl

def taken (br : BitReader) (take : Nat) : BitReader :=
  if br.bitsConsumed + take = 8 then
    { br with bitsConsumed := 0, byteOffset := br.byteOffset + 1 }
  else { br with bitsConsumed := br.bitsConsumed + take }

theorem byte_step {buf : ByteBuffer} {more : List Bool} {br : BitReader} {take : Nat}
    (h : Ready buf more br) (hne : more ≠ []) (htake : take ≤ 8 - br.bitsConsumed) :
    ∃ current, br.buffer.data[br.byteOffset]? = some current ∧ take ≤ more.length ∧
      (∀ acc, (word 64 acc <<< take) ||| (((current >>> (8 - br.bitsConsumed - take)) &&&
          (if take = 8 then 0xFF#8 else (1#8 <<< take) - 1#8)).setWidth 64) =
        word 64 (acc ++ more.take take)) ∧
      Ready buf (more.drop take) (taken br take) := by
  have hc := h.consumed_lt
  obtain ⟨current, hcur, hmore⟩ := current_byte h hne
  have hsplit : field current.getLsbD (8 - br.bitsConsumed) =
      field (fun i => current.getLsbD (i + (8 - br.bitsConsumed - take))) take ++
        field current.getLsbD (8 - br.bitsConsumed - take) := by
    rw [← field_add, show take + (8 - br.bitsConsumed - take) = 8 - br.bitsConsumed by omega]
  have hlen : take ≤ more.length := by
    rw [hmore, List.length_append, field_length]
    omega
  have hfront := hmore
  rw [hsplit, List.append_assoc, ← List.take_append_drop take more] at hfront
  obtain ⟨hfirst, hlast⟩ := List.append_inj hfront (by simp; omega)
  refine ⟨current, hcur, hlen, fun acc => ?_, ?_⟩
  · rw [word_append, List.length_take, Nat.min_eq_left hlen]
    congr 1
    apply BitVec.eq_of_getLsbD_eq
    intro i hi
    rw [BitVec.getLsbD_setWidth, getLsbD_take _ _ _ _ (by omega) htake, hfirst, getLsbD_word_field]
  · have hin := position_ready h
    unfold position at hin
    unfold taken
    split
    · rename_i hfull
      refine ⟨h.buffer_eq, by simp, ?_, ?_, h.clean⟩
      · simp only [position]; omega
      · simp only [List.drop_zero, hlast, show 8 - br.bitsConsumed - take = 0 by omega]
        rfl
    · rename_i hroom
      refine ⟨h.buffer_eq, by dsimp only; omega, ?_, ?_, h.clean⟩
      · simp only [position]; omega
      · have hd := congrArg (List.drop take) h.rest_eq
        rwa [List.drop_drop] at hd

theorem brReadLoop_taken (fuel : Nat) {br : BitReader} {result next : BitVec 64} {n take : Nat}
    {current : BitVec 8} (h0 : n ≠ 0) (hcur : br.buffer.data[br.byteOffset]? = some current)
    (ht : (if n < 8 - br.bitsConsumed then n else 8 - br.bitsConsumed) = take)
    (hnext : (result <<< take) ||| (((current >>> (8 - br.bitsConsumed - take)) &&&
      (if take = 8 then 0xFF#8 else (1#8 <<< take) - 1#8)).setWidth 64) = next) :
    brReadLoop (fuel + 1) br result n = brReadLoop fuel (taken br take) next (n - take) := by
  rw [brReadLoop, if_neg h0, hcur]
  dsimp only
  rw [ht, hnext, taken]
  by_cases hfull : br.bitsConsumed + take = 8
  · rw [if_pos hfull, if_pos hfull]
  · rw [if_neg hfull, if_neg hfull]

/-- The reader stands before the bits `more`, whether or not it has met the end. -/
def Stands (more : List Bool) (br : BitReader) : Prop :=
  Ready br.buffer more { br with hitEnd := false }

theorem stands_create (buf : ByteBuffer) : Stands (octets buf.data) (brCreate buf) :=
  ready_create buf

theorem ready_iff {buf : ByteBuffer} {more : List Bool} {br : BitReader} :
    Ready buf more br ↔ Stands more br ∧ br.buffer = buf ∧ br.hitEnd = false := by
  constructor
  · rintro ⟨rfl, hconsumed, hinside, hrest, hclean⟩
    exact ⟨⟨rfl, hconsumed, hinside, hrest, rfl⟩, rfl, hclean⟩
  · rintro ⟨h, rfl, hclean⟩
    exact ⟨rfl, h.consumed_lt, h.inside, h.rest_eq, hclean⟩

/-- At the end of the buffer a read stops with the bits it has got, and only there it meets the
end. -/
theorem stands_loop (fuel : Nat) {more : List Bool} {br : BitReader} (acc : List Bool) (n : Nat)
    (h : Stands more br) (hn : n ≤ fuel) :
    (brReadLoop fuel br (word 64 acc) n).1 = word 64 (acc ++ more.take n) ∧
      Stands (more.drop n) (brReadLoop fuel br (word 64 acc) n).2 ∧
      (brReadLoop fuel br (word 64 acc) n).2.buffer = br.buffer ∧
      (n ≤ more.length → (brReadLoop fuel br (word 64 acc) n).2.hitEnd = br.hitEnd) := by
  induction fuel generalizing br more acc n with
  | zero =>
    obtain rfl : n = 0 := by omega
    simpa [brReadLoop] using h
  | succ fuel ih =>
    by_cases h0 : n = 0
    · subst h0
      simpa [brReadLoop] using h
    have hc := h.consumed_lt
    dsimp only at hc
    by_cases hend : more = []
    · have hin := position_ready h
      have hnone : br.buffer.data[br.byteOffset]? = none := by
        apply List.getElem?_eq_none
        rw [hend] at hin
        unfold position at hin
        dsimp only [List.length_nil] at hin
        omega
      unfold brReadLoop
      rw [if_neg h0, hnone, hend]
      dsimp only
      rw [List.take_nil, List.append_nil, List.drop_nil]
      exact ⟨rfl, hend ▸ h, rfl, fun hle => absurd (Nat.le_zero.mp hle) h0⟩
    · generalize ht : (if n < 8 - br.bitsConsumed then n else 8 - br.bitsConsumed) = take
      have hle : take ≤ 8 - br.bitsConsumed ∧ take ≤ n ∧ 0 < take := by
        split at ht <;> omega
      obtain ⟨current, hcur, hlen, hword, hready⟩ := byte_step h hend hle.1
      dsimp only at hcur hword
      have hkept : (taken br take).buffer = br.buffer ∧ (taken br take).hitEnd = br.hitEnd := by
        unfold taken
        split <;> exact ⟨rfl, rfl⟩
      have hnext : Stands (more.drop take) (taken br take) := by
        unfold Stands taken at *
        dsimp only at hready ⊢
        split <;> simp_all
      obtain ⟨hread, hstands, hbuffer, hclean⟩ :=
        ih (acc ++ more.take take) (n - take) hnext (by omega)
      rw [List.length_drop] at hclean
      have hbits : acc ++ more.take n =
          (acc ++ more.take take) ++ (more.drop take).take (n - take) := by
        rw [List.append_assoc, ← List.take_add, show take + (n - take) = n by omega]
      have hdrop : more.drop n = (more.drop take).drop (n - take) := by
        rw [List.drop_drop, show take + (n - take) = n by omega]
      rw [brReadLoop_taken fuel h0 hcur ht (hword acc), hbits, hdrop]
      exact ⟨hread, hstands, hbuffer.trans hkept.1,
        fun hn => (hclean (by omega)).trans hkept.2⟩

theorem stands_read {more : List Bool} {br : BitReader} (h : Stands more br) (n : Nat) :
    (brRead br n).1 = word 64 (more.take n) ∧ Stands (more.drop n) (brRead br n).2 := by
  obtain ⟨hread, hstands, _⟩ := stands_loop n [] n h le_rfl
  exact ⟨hread, hstands⟩

theorem ready_read {buf : ByteBuffer} {bs more : List Bool} {br : BitReader}
    (h : Ready buf (bs ++ more) br) :
    (brRead br bs.length).1 = word 64 bs ∧ Ready buf more (brRead br bs.length).2 := by
  obtain ⟨hstands, hbuffer, hclean⟩ := ready_iff.mp h
  obtain ⟨hread, hnext, hsame, hend⟩ := stands_loop bs.length [] bs.length hstands le_rfl
  rw [List.take_left, List.nil_append] at hread
  rw [List.drop_left] at hnext
  have hlen : bs.length ≤ (bs ++ more).length := List.length_append ▸ Nat.le_add_right _ _
  exact ⟨hread, ready_iff.mpr ⟨hnext, hsame.trans hbuffer, (hend hlen).trans hclean⟩⟩

theorem ready_bits {buf : ByteBuffer} {more : List Bool} {br : BitReader}
    (x : BitVec 64) (n : Nat) (h : Ready buf (bits x n ++ more) br) :
    ∃ br', brRead br n = ((x.setWidth n).setWidth 64, br') ∧ Ready buf more br' := by
  have hr := ready_read h
  rw [field_length, word_bits] at hr
  exact ⟨_, Prod.ext hr.1 rfl, hr.2⟩

theorem ready_bit {buf : ByteBuffer} {more : List Bool} {br : BitReader} (b : Bool)
    (h : Ready buf (b :: more) br) :
    ∃ br', brRead br 1 = (if b then 1 else 0, br') ∧ Ready buf more br' := by
  have hr := @ready_read buf [b] more br h
  refine ⟨_, Prod.ext (hr.1.trans ?_) rfl, hr.2⟩
  cases b <;> rfl

end Tsdb.BitReading
