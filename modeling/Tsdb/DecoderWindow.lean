import Tsdb.CheckedDecoder

namespace Tsdb.DecoderWindow

open BitField BitIO BitWriting BitReading Timestamp Value Chunk CheckedDecoder

def afterDifference : List Bool → List Bool
  | false :: bs => bs.drop 7
  | true :: false :: bs => bs.drop 9
  | true :: true :: false :: bs => bs.drop 12
  | true :: true :: true :: bs => bs.drop 32
  | _ => []

def afterTimestamp (i : Nat) (bs : List Bool) : List Bool :=
  if i = 0 then bs.drop 64
  else if i = 1 then bs.drop 14
  else
    match bs with
    | true :: bs => afterDifference bs
    | bs => bs.drop 1

def fieldAt (bs : List Bool) (n : Nat) : Nat := value (bs.take n)

def windowWidth (raw : Nat) : Nat := if raw = 0 then 64 else raw

/-- The windows that the bits of `count` points from point `i` on set, each with its leading zeros
and its width. A value without a window of its own has the width of the last one. -/
def windows : Nat → Nat → Nat → List Bool → List (Nat × Nat)
  | 0, _, _, _ => []
  | count + 1, i, width, bs =>
    if i = 0 then windows count 1 width ((afterTimestamp 0 bs).drop 64)
    else
      match afterTimestamp i bs with
      | false :: bs => windows count (i + 1) width bs
      | true :: true :: bs =>
        let width := windowWidth (fieldAt (bs.drop 5) 6)
        (fieldAt bs 5, width) :: windows count (i + 1) width (bs.drop (11 + width))
      | true :: false :: bs => windows count (i + 1) width (bs.drop width)
      | _ => windows count (i + 1) width []

theorem word_take_one (bs : List Bool) : word 64 (bs.take 1) = 0#64 ↔ bs.head? ≠ some true := by
  cases bs with
  | nil => simp [word, value]
  | cons b bs => cases b <;> simp [word, value]

theorem fieldAt_toNat (bs : List Bool) {n : Nat} (hn : n ≤ 64) :
    (word 64 (bs.take n)).toNat = fieldAt bs n := by
  rw [word, BitVec.toNat_ofNat, fieldAt]
  apply Nat.mod_eq_of_lt
  apply (value_lt _).trans_le
  apply Nat.pow_le_pow_right (by decide)
  rw [List.length_take]
  omega

theorem fieldAt_lt (bs : List Bool) (n : Nat) : fieldAt bs n < 2 ^ n := by
  apply (value_lt _).trans_le
  apply Nat.pow_le_pow_right (by decide)
  rw [List.length_take]
  omega

variable {bs : List Bool} {br : BitReader} {decoder : ValueDecoder}

theorem stands_readInt (h : Stands bs br) {n : Nat} (hn : n ≤ 64) {nBits : Int}
    (hnBits : nBits = n) :
    ∃ br', brReadInt br nBits = some (word 64 (bs.take n), br') ∧ Stands (bs.drop n) br' := by
  obtain ⟨hread, hnext⟩ := stands_read h n
  refine ⟨_, ?_, hnext⟩
  rw [hnBits, brReadInt, if_pos ⟨by omega, by omega⟩, Int.toNat_natCast]
  exact congrArg some (Prod.ext hread rfl)

theorem stands_bit {b : Bool} (h : Stands (b :: bs) br) :
    ∃ bit br', brReadInt br 1 = some (bit, br') ∧ (bit = 0#64 ↔ b = false) ∧ Stands bs br' := by
  obtain ⟨br', hread, hnext⟩ := stands_readInt h (by decide) (Nat.cast_one (R := Int)).symm
  refine ⟨_, br', hread, ?_, hnext⟩
  rw [word_take_one]
  simp

theorem stands_clear (h : Stands bs br) (hbit : bs.head? ≠ some true) :
    ∃ br', brReadInt br 1 = some (0#64, br') ∧ Stands (bs.drop 1) br' := by
  obtain ⟨br', hread, hnext⟩ := stands_readInt h (by decide) (Nat.cast_one (R := Int)).symm
  rw [(word_take_one bs).mpr hbit] at hread
  exact ⟨br', hread, hnext⟩

theorem readXor_same (h : Stands bs br) (hbit : bs.head? ≠ some true) :
    ∃ br', readXor decoder br = some (0, decoder.prevLeading, decoder.prevTrailing, br') ∧
      Stands (bs.drop 1) br' := by
  obtain ⟨br', hread, hnext⟩ := stands_clear h hbit
  refine ⟨br', ?_, hnext⟩
  unfold readXor
  rw [hread]
  rfl

theorem readXor_again (h : Stands (true :: bs) br) (hbit : bs.head? ≠ some true)
    (hwindow : KeepsWindow decoder) {width : Nat}
    (hwidth : 64 - decoder.prevLeading - decoder.prevTrailing = width) :
    ∃ xorVal br', readXor decoder br =
        some (xorVal, decoder.prevLeading, decoder.prevTrailing, br') ∧
      Stands (bs.drop (1 + width)) br' := by
  obtain ⟨hleading, htrailing, hsum⟩ := hwindow
  obtain ⟨bit0, br₀, hread0, hset, hnext⟩ := stands_bit h
  obtain ⟨br₁, hread1, hnext⟩ := stands_clear hnext hbit
  obtain ⟨br', hread, hnext⟩ := stands_readInt hnext (by omega) hwidth
  rw [List.drop_drop] at hnext
  refine ⟨word 64 ((bs.drop 1).take width) <<< decoder.prevTrailing.toNat, br', ?_, hnext⟩
  unfold readXor
  rw [hread0, Option.bind_eq_bind, Option.bind_some]
  dsimp only
  rw [if_neg (by rw [hset]; decide), hread1, Option.bind_eq_bind, Option.bind_some]
  dsimp only
  rw [if_pos rfl, hread, Option.bind_some]
  dsimp only
  rw [shiftLeft, if_pos ⟨htrailing, by omega⟩]
  rfl

theorem readXor_window (h : Stands (true :: true :: bs) br) {leading width : Nat}
    (hleading : fieldAt bs 5 = leading) (hwidth : windowWidth (fieldAt (bs.drop 5) 6) = width) :
    (leading + width ≤ 64 → ∃ xorVal br',
        readXor decoder br =
            some (xorVal, (leading : Int), 64 - (leading : Int) - width, br') ∧
          Stands (bs.drop (11 + width)) br') ∧
      (¬ leading + width ≤ 64 → readXor decoder br = none) := by
  have hraw := fieldAt_lt (bs.drop 5) 6
  have hle : 0 < width ∧ width ≤ 64 := by
    unfold windowWidth at hwidth
    split at hwidth <;> omega
  obtain ⟨bit0, br₀, hread0, hset0, hnext⟩ := stands_bit h
  obtain ⟨bit1, br₁, hread1, hset1, hnext⟩ := stands_bit hnext
  obtain ⟨br₂, hread2, hnext⟩ := stands_readInt hnext (by decide) (rfl : (5 : Int) = (5 : Nat))
  obtain ⟨br₃, hread3, hnext⟩ := stands_readInt hnext (by decide) (rfl : (6 : Int) = (6 : Nat))
  obtain ⟨br', hread, hnext⟩ := stands_readInt hnext hle.2 rfl
  rw [List.drop_drop, List.drop_drop, ← Nat.add_assoc] at hnext
  have hrawLeading : (word 64 (bs.take 5)).toNat = leading :=
    (fieldAt_toNat bs (by decide)).trans hleading
  have hrawWidth : (if word 64 ((bs.drop 5).take 6) = 0#64 then (64 : Int)
      else ((word 64 ((bs.drop 5).take 6)).toNat : Int)) = width := by
    rw [← hwidth, windowWidth, ← fieldAt_toNat _ (by decide)]
    split
    case isTrue hzero => rw [hzero]; rfl
    case isFalse hne =>
      rw [if_neg]
      intro hzero
      exact hne (BitVec.eq_of_toNat_eq hzero)
  have hdecoded : readXor decoder br =
      (shiftLeft (word 64 ((bs.drop (5 + 6)).take width)) (64 - (leading : Int) - width)).map
        fun xorVal => (xorVal, (leading : Int), 64 - (leading : Int) - width, br') := by
    unfold readXor
    rw [hread0, Option.bind_eq_bind, Option.bind_some]
    dsimp only
    rw [if_neg (by rw [hset0]; decide), hread1, Option.bind_eq_bind, Option.bind_some]
    dsimp only
    rw [if_neg (by rw [hset1]; decide), hread2, Option.bind_some]
    dsimp only
    rw [hread3, Option.bind_some]
    dsimp only
    rw [hrawLeading, hrawWidth, hread, Option.bind_some, List.drop_drop, Option.map_eq_bind]
    rfl
  rw [hdecoded, shiftLeft]
  constructor
  · intro hfits
    refine ⟨word 64 ((bs.drop (5 + 6)).take width) <<< (64 - (leading : Int) - width).toNat,
      br', ?_, hnext⟩
    rw [if_pos ⟨by omega, by omega⟩]
    rfl
  · intro hwide
    rw [if_neg (by omega)]
    rfl

structure At (i : Nat) (tsDec : TimestampDecoder) (valDec : ValueDecoder) : Prop where
  tsFirst : tsDec.isFirst = true ↔ i = 0
  tsSecond : tsDec.isSecond = true ↔ i = 1
  valFirst : valDec.isFirst = true ↔ i = 0

theorem read_bit (h : Stands bs br) :
    ((brRead br 1).1 = 0 ↔ bs.head? ≠ some true) ∧ Stands (bs.drop 1) (brRead br 1).2 := by
  obtain ⟨hread, hnext⟩ := stands_read h 1
  exact ⟨hread ▸ word_take_one bs, hnext⟩

theorem stands_difference (h : Stands bs br) :
    Stands (afterDifference bs) (tsDecoderReadD br).2 := by
  obtain ⟨hbit1, hnext1⟩ := read_bit h
  obtain ⟨hbit2, hnext2⟩ := read_bit hnext1
  obtain ⟨hbit3, hnext3⟩ := read_bit hnext2
  unfold tsDecoderReadD
  dsimp only
  by_cases h1 : bs.head? = some true
  case neg =>
    rw [if_pos (hbit1.mpr h1)]
    have hbits : afterDifference bs = (bs.drop 1).drop 7 := by
      cases bs with
      | nil => rfl
      | cons b bs => cases b <;> simp_all [afterDifference]
    rw [hbits]
    exact (stands_read hnext1 7).2
  obtain ⟨bs₁, rfl⟩ := List.head?_eq_some_iff.mp h1
  rw [if_neg (fun hz => hbit1.mp hz h1)]
  by_cases h2 : bs₁.head? = some true
  case neg =>
    rw [if_pos (hbit2.mpr h2)]
    have hbits : afterDifference (true :: bs₁) = (bs₁.drop 1).drop 9 := by
      cases bs₁ with
      | nil => rfl
      | cons b bs => cases b <;> simp_all [afterDifference]
    rw [hbits]
    exact (stands_read hnext2 9).2
  obtain ⟨bs₂, rfl⟩ := List.head?_eq_some_iff.mp h2
  rw [if_neg (fun hz => hbit2.mp hz h2)]
  by_cases h3 : bs₂.head? = some true
  case neg =>
    rw [if_pos (hbit3.mpr h3)]
    have hbits : afterDifference (true :: true :: bs₂) = (bs₂.drop 1).drop 12 := by
      cases bs₂ with
      | nil => rfl
      | cons b bs => cases b <;> simp_all [afterDifference]
    rw [hbits]
    exact (stands_read hnext3 12).2
  obtain ⟨bs₃, rfl⟩ := List.head?_eq_some_iff.mp h3
  rw [if_neg (fun hz => hbit3.mp hz h3)]
  exact (stands_read hnext3 32).2

theorem stands_timestamp {i : Nat} {tsDec : TimestampDecoder} {valDec : ValueDecoder}
    (hat : At i tsDec valDec) (h : Stands bs br) :
    Stands (afterTimestamp i bs) (tsDecoderRead tsDec br).2.2 ∧
      (tsDecoderRead tsDec br).2.1.isFirst = false ∧
      ((tsDecoderRead tsDec br).2.1.isSecond = true ↔ i = 0) := by
  obtain ⟨hfirst, hsecond, _⟩ := hat
  unfold tsDecoderRead afterTimestamp
  by_cases h0 : i = 0
  · rw [if_pos (hfirst.mpr h0), if_pos h0]
    exact ⟨(stands_read h 64).2, rfl, by simp [h0]⟩
  have hnot : ¬ tsDec.isFirst = true := fun hf => h0 (hfirst.mp hf)
  rw [if_neg hnot, if_neg h0]
  by_cases h1 : i = 1
  · rw [if_pos (hsecond.mpr h1), if_pos h1]
    exact ⟨(stands_read h 14).2, by simpa using hnot, by simp [h0]⟩
  have hlate : ¬ tsDec.isSecond = true := fun hs => h1 (hsecond.mp hs)
  rw [if_neg hlate, if_neg h1]
  obtain ⟨hbit, hnext⟩ := read_bit h
  dsimp only
  by_cases hb : bs.head? = some true
  · obtain ⟨bs', rfl⟩ := List.head?_eq_some_iff.mp hb
    rw [if_neg (fun hz => hbit.mp hz hb)]
    exact ⟨stands_difference hnext, by simpa using hnot, by simpa [h0] using hlate⟩
  · rw [if_pos (hbit.mpr hb)]
    refine ⟨?_, by simpa using hnot, by simpa [h0] using hlate⟩
    split
    · exact absurd rfl hb
    · exact hnext

theorem valRead_later (hlater : decoder.isFirst = false) {xorVal : BitVec 64}
    {leading trailing : Int} {br' : BitReader}
    (hxor : readXor decoder br = some (xorVal, leading, trailing, br')) :
    ∃ value valDec', valRead decoder br = some (value, valDec', br') ∧
      valDec'.isFirst = false ∧ valDec'.prevLeading = leading ∧
      valDec'.prevTrailing = trailing := by
  refine ⟨decoder.prevValueBits ^^^ xorVal, { decoder with
    prevValueBits := decoder.prevValueBits ^^^ xorVal
    prevLeading := leading
    prevTrailing := trailing }, ?_, hlater, rfl, rfl⟩
  unfold valRead
  rw [if_neg (by simp [hlater]), hxor]
  rfl

theorem valRead_none (hlater : decoder.isFirst = false) (hxor : readXor decoder br = none) :
    valRead decoder br = none := by
  unfold valRead
  rw [if_neg (by simp [hlater]), hxor]
  rfl

theorem valRead_first (hfirst : decoder.isFirst = true) (h : Stands bs br) :
    ∃ value valDec' br', valRead decoder br = some (value, valDec', br') ∧
      valDec'.isFirst = false ∧ valDec'.prevLeading = decoder.prevLeading ∧
      valDec'.prevTrailing = decoder.prevTrailing ∧ Stands (bs.drop 64) br' := by
  obtain ⟨br', hread, hnext⟩ := stands_readInt h (by decide) (rfl : (64 : Int) = (64 : Nat))
  refine ⟨word 64 (bs.take 64) &&& valueMask, { decoder with
    prevValueBits := word 64 (bs.take 64) &&& valueMask
    isFirst := false }, br', ?_, rfl, rfl, rfl, hnext⟩
  unfold valRead
  rw [if_pos hfirst, hread]
  rfl

theorem wellDefined_from (count : Nat) {i width : Nat} {bs : List Bool} {br : BitReader}
    {tsDec : TimestampDecoder} {valDec : ValueDecoder} (hat : At i tsDec valDec)
    (h : Stands bs br) (hwindow : KeepsWindow valDec)
    (hwidth : 64 - valDec.prevLeading - valDec.prevTrailing = width) :
    WellDefined count tsDec valDec br ↔ ∀ w ∈ windows count i width bs, w.1 + w.2 ≤ 64 := by
  induction count generalizing i width bs br tsDec valDec with
  | zero =>
    simp only [WellDefined, windows, List.not_mem_nil, false_implies, implies_true, iff_true]
    exact hwindow
  | succ count ih =>
    obtain ⟨hstands, htsFirst, htsSecond⟩ := stands_timestamp hat h
    have hnext {valDec' : ValueDecoder} (hvalFirst : valDec'.isFirst = false) :
        At (i + 1) (tsDecoderRead tsDec br).2.1 valDec' := by
      refine ⟨?_, ?_, ?_⟩
      · simp [htsFirst]
      · simpa using htsSecond
      · simp [hvalFirst]
    -- Without a window of its own the value leaves the window as it stands.
    have hkept {value : BitVec 64} {valDec' : ValueDecoder} {br' : BitReader} {bs' : List Bool}
        (hread : valRead valDec (tsDecoderRead tsDec br).2.2 = some (value, valDec', br'))
        (hfirst : valDec'.isFirst = false) (hleading : valDec'.prevLeading = valDec.prevLeading)
        (htrailing : valDec'.prevTrailing = valDec.prevTrailing) (hrest : Stands bs' br') :
        WellDefined (count + 1) tsDec valDec br ↔
          ∀ w ∈ windows count (i + 1) width bs', w.1 + w.2 ≤ 64 := by
      rw [wellDefined_succ hwindow hread]
      apply ih (hnext hfirst) hrest (hwindow.of_same hleading htrailing)
      rw [hleading, htrailing, hwidth]
    by_cases h0 : i = 0
    case pos =>
      subst h0
      obtain ⟨value, valDec', br', hread, hfirst, hleading, htrailing, hrest⟩ :=
        valRead_first (hat.valFirst.mpr rfl) hstands
      rw [windows, if_pos rfl]
      exact hkept hread hfirst hleading htrailing hrest
    have hlater : valDec.isFirst = false := by
      rw [← Bool.not_eq_true]
      exact fun hf => h0 (hat.valFirst.mp hf)
    have hsame {xorVal : BitVec 64} {br' : BitReader} {bs' : List Bool}
        (hxor : readXor valDec (tsDecoderRead tsDec br).2.2 =
          some (xorVal, valDec.prevLeading, valDec.prevTrailing, br')) (hrest : Stands bs' br') :
        WellDefined (count + 1) tsDec valDec br ↔
          ∀ w ∈ windows count (i + 1) width bs', w.1 + w.2 ≤ 64 := by
      obtain ⟨value, valDec', hread, hfirst, hleading, htrailing⟩ := valRead_later hlater hxor
      exact hkept hread hfirst hleading htrailing hrest
    rw [windows, if_neg h0]
    cases hbits : afterTimestamp i bs with
    | nil =>
      rw [hbits] at hstands
      obtain ⟨br', hxor, hrest⟩ := readXor_same hstands (by simp)
      exact hsame hxor hrest
    | cons b bs' =>
      rw [hbits] at hstands
      cases b with
      | false =>
        obtain ⟨br', hxor, hrest⟩ := readXor_same hstands (by simp)
        exact hsame hxor hrest
      | true =>
        cases bs' with
        | nil =>
          obtain ⟨xorVal, br', hxor, hrest⟩ := readXor_again hstands (by simp) hwindow hwidth
          rw [List.drop_nil] at hrest
          exact hsame hxor hrest
        | cons b bs' =>
          cases b with
          | false =>
            obtain ⟨xorVal, br', hxor, hrest⟩ := readXor_again hstands (by simp) hwindow hwidth
            rw [Nat.add_comm, List.drop_succ_cons] at hrest
            exact hsame hxor hrest
          | true =>
            obtain ⟨hfits, hwide⟩ := readXor_window hstands rfl rfl
            dsimp only
            rw [List.forall_mem_cons]
            by_cases hle : fieldAt bs' 5 + windowWidth (fieldAt (bs'.drop 5) 6) ≤ 64
            case neg =>
              have hnot : ¬ WellDefined (count + 1) tsDec valDec br :=
                not_wellDefined (valRead_none hlater (hwide hle))
              exact iff_of_false hnot fun hall => hle hall.1
            obtain ⟨xorVal, br', hxor, hrest⟩ := hfits hle
            obtain ⟨value, valDec', hread, hfirst, hleading, htrailing⟩ := valRead_later hlater hxor
            have hpos : 0 < windowWidth (fieldAt (bs'.drop 5) 6) := by
              unfold windowWidth
              split <;> omega
            rw [wellDefined_succ hwindow hread, and_iff_right hle]
            apply ih (hnext hfirst) hrest
            · exact ⟨by omega, by omega, by omega⟩
            · omega

/-- Every window in the payload of an accepted chunk file, up to its last point, fits into the 64
bits of a value. -/
def WindowsFit (file : ChunkBytes) : Prop :=
  ∀ header payload, chunkRead file = some (header, payload) →
    ∀ w ∈ windows header.pointCount.toNat 0 64 (octets payload), w.1 + w.2 ≤ 64

theorem decodesWell_iff (file : ChunkBytes) : DecodesWell file ↔ WindowsFit file := by
  apply forall₃_congr
  intro header payload hread
  apply wellDefined_from
  · exact ⟨by decide, by decide, by decide⟩
  · exact stands_create _
  · exact ⟨by decide, by decide, by decide⟩
  · decide

def wideFile : ChunkBytes :=
  ⟨some ⟨1, 0, 0, 20, 2⟩, List.replicate 16 0 ++ [0x00, 0x03, 0xF8, 0x00]⟩

/-- Its shift amount is `64 - 31 - 64`. -/
theorem wide_window_decoded : ¬ DecodesWell wideFile := by
  intro hwell
  have hpoints := wellDefined_readPoints (hwell _ _ rfl)
  have hnone : readPoints 2 tsDecoderInit valDecoderInit
      (brCreate ⟨wideFile.payload, 0⟩) = none := by decide
  cases hnone.symm.trans hpoints

end Tsdb.DecoderWindow
