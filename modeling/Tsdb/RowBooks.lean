import Tsdb.Checked
import Tsdb.GetSize

namespace Tsdb.RowBooks

open CStrings CStrings.TextBuffer Head Files Query GetAnswer GetSize Checked

variable {V : Type} (fmt : V → Text) (start stop : Int)

/-- A row loop between two rows: its buffer, the length it keeps of the text there, and how many
rows there are. -/
structure Rows where
  buf : TextBuffer
  length : Nat
  count : Nat
  deriving DecidableEq, Repr

/-- `capacity *= 2` of type `int`, when there are fewer than `need` bytes. -/
def double (buf : TextBuffer) (need : Nat) : Option TextBuffer :=
  if buf.capacity < need then
    (checked 31 (buf.capacity * 2)).map fun capacity => buf.realloc capacity.toNat
  else some buf

/-- One row of `GET_value`. -/
def headStep (p : Point V) (s : Rows) : Option Rows := do
  let tmp ← headRow fmt p
  let needed := tmp.length + 2
  let range ← double s.buf (s.length + needed + 1)
  let range ← range.strcpyAt s.length (tmp ++ ['\n'])
  some ⟨range, s.length + tmp.length + 1, s.count + 1⟩

/-- What `GET_value` appends behind its rows. -/
def footer (s : Rows) : Option (Text × Nat) :=
  (s.buf.strcat ['(']).bind fun range => (range.strcat (decimal s.count)).bind fun range =>
    (range.strcat " points)\n".toList).map fun range => (range.text, s.count)

/-- One row of `decompressChunk`. -/
def chunkStep (p : Point V) (s : Rows) : Option Rows := do
  let temp := (row fmt p).take 127
  let n := (row fmt p).length
  let chunkResult ← double s.buf (s.length + n + 1)
  let chunkResult ← chunkResult.strcpyAt s.length temp
  some ⟨chunkResult, s.length + n, s.count + 1⟩

/-- The running length is that of the text, and the terminator is in the buffer too. -/
structure Books (s : Rows) : Prop where
  length : s.length = s.buf.text.length
  room : s.length + 1 ≤ s.buf.capacity

/-- The loop over the points never leaves a buffer or the range of `int`, its books are in order
before and after each row, and `done` holds at its end. -/
def Keeps (step : Point V → Rows → Option Rows) (done : Rows → Prop) :
    List (Point V) → Rows → Prop
  | [], s => Books s ∧ done s
  | p :: points, s => Books s ∧
    if InRange start stop p then ∃ s', step p s = some s' ∧ Keeps step done points s'
    else Keeps step done points s

def BooksKept (head : HeadBlock V) (data : ChunkData V) : Prop :=
  Keeps start stop (headStep fmt) (fun s => ∃ ram, footer s = some ram) head.points
      ⟨.new 128, 0, 0⟩ ∧
    Keeps start stop (chunkStep fmt) (fun _ => True) data.points ⟨.new 1024, 0, 0⟩

variable {fmt start stop}

theorem double_some {buf buf' : TextBuffer} {need : Nat} (h : double buf need = some buf') :
    buf' = buf.grow need (buf.capacity * 2) := by
  unfold double at h
  unfold TextBuffer.grow
  split at h
  case isTrue hsmall =>
    obtain ⟨capacity, hcapacity, rfl⟩ := Option.map_eq_some_iff.mp h
    obtain ⟨-, rfl⟩ := checked_eq_some.mp hcapacity
    rw [if_pos hsmall]
    congr 1
  case isFalse hroom =>
    rw [if_neg hroom]
    exact (Option.some.inj h).symm

/-- Doubling comes to 2 ^ 30 exactly, which is the last capacity of type `int`. -/
theorem double_cases {base need need' : Nat} {buf : TextBuffer}
    (hbase : ∃ j, base * 2 ^ j = 2 ^ 30) (h : FirstFit base need buf.capacity)
    (hcap : buf.capacity ≤ 2 ^ 30) (hle : need ≤ need') (hstep : need' ≤ buf.capacity * 2) :
    (need' ≤ 2 ^ 30 → ∃ buf', double buf need' = some buf' ∧ buf'.text = buf.text ∧
        FirstFit base need' buf'.capacity ∧ buf'.capacity ≤ 2 ^ 30) ∧
      (¬ need' ≤ 2 ^ 30 → double buf need' = none) := by
  have hnext : buf.capacity < 2 ^ 30 → buf.capacity * 2 ≤ 2 ^ 30 := by
    obtain ⟨j, hj⟩ := hbase
    obtain ⟨-, k, hk, -⟩ := h
    intro hlt
    have hkj : k < j := by
      by_contra hge
      have := Nat.mul_le_mul_left base (Nat.pow_le_pow_right (n := 2) (by decide) (not_lt.mp hge))
      omega
    calc buf.capacity * 2 = base * 2 ^ (k + 1) := by rw [hk, Nat.pow_succ, Nat.mul_assoc]
      _ ≤ base * 2 ^ j := Nat.mul_le_mul_left base (Nat.pow_le_pow_right (by decide) hkj)
      _ = 2 ^ 30 := hj
  unfold double
  constructor
  · intro hfits
    have hgrown := h.grow hle hstep
    refine ⟨buf.grow need' (buf.capacity * 2), ?_, grow_text _ _ _, hgrown, ?_⟩
    · unfold TextBuffer.grow
      split
      case isTrue hsmall =>
        have := hnext (by omega)
        rw [checked_inBits ⟨by omega, by omega⟩]
        rfl
      case isFalse => rfl
    · unfold TextBuffer.grow TextBuffer.realloc
      split
      case isTrue hsmall => exact hnext (by omega)
      case isFalse => exact hcap
  · intro hfull
    have hlast : ¬ buf.capacity < 2 ^ 30 := fun hlt => by
      have := hnext hlt
      omega
    rw [if_pos (by omega), checked_overflow]
    · rfl
    · rintro ⟨-, hlt⟩
      omega

theorem base_le {base need capacity : Nat} (h : FirstFit base need capacity) :
    base ≤ capacity := by
  obtain ⟨-, k, rfl, -⟩ := h
  exact Nat.le_mul_of_pos_right base (Nat.two_pow_pos k)

structure Grown (base extra : Nat) (s : Rows) : Prop where
  books : Books s
  fit : FirstFit base (s.length + extra) s.buf.capacity
  cap : s.buf.capacity ≤ 2 ^ 30

/-- What the row builders share: a row up to the limit is appended as long as the buffer can grow,
and a longer one ends the bookkeeping. -/
structure Builds (fmt : V → Text) (step : Point V → Rows → Option Rows) (base extra limit : Nat) :
    Prop where
  appends : ∀ p s, Grown base extra s → (row fmt p).length ≤ limit →
    s.length + (row fmt p).length + extra ≤ 2 ^ 30 →
    ∃ s', step p s = some s' ∧ Grown base extra s' ∧ s'.buf.text = s.buf.text ++ row fmt p ∧
      s'.count = s.count + 1
  full : ∀ p s, Grown base extra s → (row fmt p).length ≤ limit →
    ¬ s.length + (row fmt p).length + extra ≤ 2 ^ 30 → step p s = none
  long : ∀ p s, Grown base extra s → ¬ (row fmt p).length ≤ limit →
    ∀ s', step p s = some s' → ¬ Books s'

theorem Keeps.books {step : Point V → Rows → Option Rows} {done : Rows → Prop}
    {points : List (Point V)} {s : Rows} (h : Keeps start stop step done points s) : Books s := by
  cases points with
  | nil => exact h.1
  | cons p points => exact h.1

theorem Builds.keeps_iff {step : Point V → Rows → Option Rows} {base extra limit : Nat}
    (h : Builds fmt step base extra limit) {done : Rows → Prop} {atEnd : Prop}
    {points : List (Point V)} {s : Rows} (hs : Grown base extra s)
    (hdone : ∀ s', Grown base extra s' →
      s'.buf.text = s.buf.text ++ rowsText fmt start stop points →
      s'.count = s.count + (inRange start stop points).length → (done s' ↔ atEnd)) :
    Keeps start stop step done points s ↔
      (∀ p ∈ inRange start stop points, (row fmt p).length ≤ limit) ∧
        s.length + (rowsText fmt start stop points).length + extra ≤ 2 ^ 30 ∧ atEnd := by
  induction points generalizing s with
  | nil =>
    have hroom := hs.fit.1.trans hs.cap
    rw [Keeps, and_iff_right hs.books, hdone s hs (by simp [rowsText]) (by simp [inRange])]
    exact ⟨fun hat => ⟨by simp [inRange], hroom, hat⟩, fun hall => hall.2.2⟩
  | cons p points ih =>
    rw [Keeps, and_iff_right hs.books]
    by_cases hin : InRange start stop p
    case neg =>
      have hrange : inRange start stop (p :: points) = inRange start stop points := by
        simp [inRange, hin]
      have hrows : rowsText fmt start stop (p :: points) = rowsText fmt start stop points := by
        rw [rowsText_cons, if_neg hin, List.nil_append]
      rw [hrange, hrows] at hdone
      rw [if_neg hin, hrange, hrows]
      exact ih hs hdone
    have hrange : inRange start stop (p :: points) = p :: inRange start stop points := by
      simp [inRange, hin]
    have hrows : rowsText fmt start stop (p :: points) =
        row fmt p ++ rowsText fmt start stop points := by
      rw [rowsText_cons, if_pos hin]
    rw [if_pos hin, hrange, hrows, List.forall_mem_cons, List.length_append]
    by_cases hrow : (row fmt p).length ≤ limit
    case neg =>
      apply iff_of_false
      · rintro ⟨s', hstep, hrest⟩
        exact h.long p s hs hrow s' hstep hrest.books
      · exact fun hall => hrow hall.1.1
    by_cases hroom : s.length + (row fmt p).length + extra ≤ 2 ^ 30
    case neg =>
      apply iff_of_false
      · rintro ⟨s', hstep, -⟩
        cases (h.full p s hs hrow hroom).symm.trans hstep
      · rintro ⟨-, hfits, -⟩
        omega
    obtain ⟨s', hstep, hs', htext, hcount⟩ := h.appends p s hs hrow hroom
    have hlength : s'.length = s.length + (row fmt p).length := by
      rw [hs'.books.length, hs.books.length, htext, List.length_append]
    have hrest := ih hs' fun s'' hs'' htext' hcount' => by
      apply hdone s'' hs''
      · rw [htext', htext, hrows, List.append_assoc]
      · rw [hcount', hcount, hrange, List.length_cons]
        omega
    rw [hlength, Nat.add_assoc s.length] at hrest
    rw [and_iff_right hrow, ← hrest]
    constructor
    · rintro ⟨s₁, hstep₁, hkeeps⟩
      cases hstep.symm.trans hstep₁
      exact hkeeps
    · exact fun hkeeps => ⟨s', hstep, hkeeps⟩

def append (extra : Nat) (t : Text) (s : Rows) : Option Rows :=
  (double s.buf (s.length + t.length + extra)).bind fun buf =>
    (buf.strcpyAt s.length t).bind fun buf => some ⟨buf, s.length + t.length, s.count + 1⟩

theorem builds_append {step : Point V → Rows → Option Rows} {base extra limit : Nat}
    (hbase : ∃ j, base * 2 ^ j = 2 ^ 30) (hlimit : limit ≤ base) (hextra : 1 ≤ extra)
    (hstep : ∀ p s, (row fmt p).length ≤ limit → step p s = append extra (row fmt p) s)
    (hlong : ∀ p s, Grown base extra s → ¬ (row fmt p).length ≤ limit →
      ∀ s', step p s = some s' → ¬ Books s') : Builds fmt step base extra limit where
  appends p s hs hrow hroom := by
    obtain ⟨⟨hlength, -⟩, hfit, hcap⟩ := hs
    have hle := base_le hfit
    obtain ⟨buf, hdouble, htext, hfit', hcap'⟩ :=
      (double_cases hbase hfit hcap (by omega) (by have := hfit.1; omega)).1 hroom
    have hneed := hfit'.1
    refine ⟨⟨⟨buf.capacity, s.buf.text ++ row fmt p⟩, s.length + (row fmt p).length,
      s.count + 1⟩, ?_, ⟨⟨?_, ?_⟩, hfit', hcap'⟩, rfl, rfl⟩
    · rw [hstep p s hrow, append, hdouble, Option.bind_some,
        strcpyAt_end (by rw [htext, hlength]) (by omega), htext, Option.bind_some]
    · rw [hlength, List.length_append]
    · exact (Nat.add_le_add_left hextra _).trans hneed
  full p s hs hrow hroom := by
    obtain ⟨-, hfit, hcap⟩ := hs
    have hle := base_le hfit
    have hnone := (double_cases hbase hfit hcap (by omega) (by have := hfit.1; omega)).2 hroom
    rw [hstep p s hrow, append, hnone, Option.bind_none]
  long := hlong

theorem headStep_eq (p : Point V) (s : Rows) (hrow : (row fmt p).length ≤ 32) :
    headStep fmt p s = append 2 (row fmt p) s := by
  have hsplit : row fmt p = (signedDecimal p.ts ++ '\t' :: fmt p.value) ++ ['\n'] := by
    simp [row]
  have hlen := congrArg List.length hsplit
  rw [List.length_append, List.length_singleton] at hlen
  unfold headStep append
  rw [headRow_eq, if_pos hrow, hsplit, List.length_append, List.length_singleton,
    ← Nat.add_assoc s.length]
  rfl

theorem headStep_builds : Builds fmt (headStep fmt) 128 2 32 := by
  apply builds_append ⟨23, by decide⟩ (by decide) (by decide) headStep_eq
  intro p s _ hrow s' hstep
  unfold headStep at hstep
  rw [headRow_eq, if_neg hrow] at hstep
  cases hstep

theorem chunkStep_builds : Builds fmt (chunkStep fmt) 1024 1 127 := by
  apply builds_append ⟨20, by decide⟩ (by decide) (by decide)
  · intro p s hrow
    unfold chunkStep
    rw [List.take_of_length_le hrow]
    rfl
  -- `snprintf` says how long the row is, not how much of it went into `temp`.
  · intro p s hs hrow s' hstep hbooks
    unfold chunkStep at hstep
    obtain ⟨buf, hdouble, hstep⟩ := Option.bind_eq_some_iff.mp hstep
    obtain ⟨buf', hcopy, hstep⟩ := Option.bind_eq_some_iff.mp hstep
    obtain rfl := Option.some.inj hstep
    have htext : buf.text = s.buf.text := by rw [double_some hdouble, grow_text]
    have hcut := strcpyAt_length hcopy (by rw [htext, hs.books.length])
    have hlength : s.length + (row fmt p).length = buf'.text.length := hbooks.length
    rw [htext, ← hs.books.length, List.length_take] at hcut
    omega

theorem Keeps.run {R : Type} {step : Point V → Rows → Option Rows} {done : Rows → Prop}
    {l : List (Point V) → Rows → Option R} {r : Rows → R} (hnil : ∀ s, l [] s = some (r s))
    (hskip : ∀ p points s, ¬ InRange start stop p → l (p :: points) s = l points s)
    (hstep : ∀ p points s s', InRange start stop p → step p s = some s' →
      l (p :: points) s = l points s')
    {points : List (Point V)} {s : Rows} (h : Keeps start stop step done points s) :
    ∃ s', l points s = some (r s') ∧ done s' := by
  induction points generalizing s with
  | nil => exact ⟨s, hnil s, h.2⟩
  | cons p points ih =>
    obtain ⟨-, h⟩ := h
    split at h
    case isFalse hout =>
      rw [hskip p points s hout]
      exact ih h
    case isTrue hin =>
      obtain ⟨s₁, hs₁, hrest⟩ := h
      rw [hstep p points s s₁ hin hs₁]
      exact ih hrest

theorem getValueLoop_keeps {done : Rows → Prop} {points : List (Point V)} {s : Rows}
    (h : Keeps start stop (headStep fmt) done points s) :
    ∃ s', getValueLoop fmt start stop points s.buf s.length s.count = some (s'.buf, s'.count) ∧
      done s' := by
  apply h.run (l := fun points s => getValueLoop fmt start stop points s.buf s.length s.count)
    (r := fun s => (s.buf, s.count)) fun _ => rfl
  · intro p points s hout
    exact if_neg hout
  · intro p points s s' hin hstep
    unfold headStep at hstep
    obtain ⟨tmp, htmp, hstep⟩ := Option.bind_eq_some_iff.mp hstep
    obtain ⟨buf, hdouble, hstep⟩ := Option.bind_eq_some_iff.mp hstep
    obtain ⟨buf', hcopy, hstep⟩ := Option.bind_eq_some_iff.mp hstep
    obtain rfl := Option.some.inj hstep
    rw [double_some hdouble] at hcopy
    dsimp only
    rw [getValueLoop, if_pos hin, htmp, Option.bind_some]
    dsimp only
    rw [hcopy, Option.bind_some]

theorem decompressLoop_step {p : Point V} {points : List (Point V)} {s s' : Rows}
    (hin : InRange start stop p) (hstep : chunkStep fmt p s = some s') :
    decompressLoop fmt start stop (p :: points) s.buf s.length s.count =
      decompressLoop fmt start stop points s'.buf s'.length s'.count := by
  unfold chunkStep at hstep
  obtain ⟨buf, hdouble, hstep⟩ := Option.bind_eq_some_iff.mp hstep
  obtain ⟨buf', hcopy, hstep⟩ := Option.bind_eq_some_iff.mp hstep
  obtain rfl := Option.some.inj hstep
  rw [double_some hdouble] at hcopy
  dsimp only
  rw [decompressLoop, if_pos hin]
  dsimp only
  rw [hcopy, Option.bind_some]

theorem decompressLoop_keeps {points : List (Point V)} {s : Rows} {done : Rows → Prop}
    (h : Keeps start stop (chunkStep fmt) done points s) :
    ∃ s', decompressLoop fmt start stop points s.buf s.length s.count =
      some (s'.buf.text, s'.count) ∧ done s' := by
  apply h.run (l := fun points s => decompressLoop fmt start stop points s.buf s.length s.count)
    (r := fun s => (s.buf.text, s.count)) fun _ => rfl
  · intro p points s hout
    exact if_neg hout
  · exact fun p points s s' hin hstep => decompressLoop_step hin hstep

theorem booksKept_answers {head : HeadBlock V} {data : ChunkData V}
    (h : BooksKept fmt start stop head data) :
    (∃ ram, getValue fmt start stop head = some ram) ∧
      ∃ disk, decompressChunk fmt start stop data = some disk := by
  obtain ⟨hhead, hchunk⟩ := h
  obtain ⟨s, hloop, ram, hram⟩ := getValueLoop_keeps hhead
  obtain ⟨s', hdisk, -⟩ := decompressLoop_keeps hchunk
  refine ⟨⟨ram, ?_⟩, _, hdisk⟩
  unfold getValue
  rw [hloop, Option.bind_some]
  exact hram

theorem grown_start {base extra : Nat} (hcap : base ≤ 2 ^ 30) (hextra : extra ≤ base)
    (hbase : 1 ≤ base) : Grown base extra ⟨.new base, 0, 0⟩ where
  books := ⟨rfl, hbase⟩
  fit := ⟨by simpa [TextBuffer.new] using hextra, 0, by simp [TextBuffer.new], by simp⟩
  cap := hcap

/-- The books are kept just when the head's rows fit their scratch strings and leave room for the
footer, the chunk's rows fit `temp`, and neither text grows out of an `int`. -/
theorem booksKept_iff (fmt : V → Text) (start stop : Int) (head : HeadBlock V)
    (data : ChunkData V) :
    BooksKept fmt start stop head data ↔
      (Roomy fmt (inRange start stop head.points) ∧
        (rowsText fmt start stop head.points).length + 2 ≤ 2 ^ 30) ∧
      (∀ p ∈ inRange start stop data.points, RowFits fmt p) ∧
        (rowsText fmt start stop data.points).length + 1 ≤ 2 ^ 30 := by
  apply and_congr
  · have hfooter : ∀ s, Grown 128 2 s →
        s.buf.text = [] ++ rowsText fmt start stop head.points →
        s.count = 0 + (inRange start stop head.points).length →
        ((∃ ram, footer s = some ram) ↔ ∀ k, ¬ ((rowsText fmt start stop head.points).length + 2 ≤
            128 * 2 ^ k ∧ 128 * 2 ^ k ≤ (rowsText fmt start stop head.points).length +
              (pointsLine (inRange start stop head.points).length).length)) := by
      rintro s ⟨hbooks, hfit, -⟩ htext hcount
      rw [List.nil_append] at htext
      rw [Nat.zero_add] at hcount
      rw [hbooks.length, htext] at hfit
      rw [footer, summary_some_iff, htext, hcount, ← not_exists, ← not_le]
      exact not_congr hfit.le_iff
    rw [headStep_builds.keeps_iff (grown_start (by decide) (by decide) (by decide)) hfooter,
      Nat.zero_add, Roomy, and_assoc]
    exact and_congr_right' and_comm
  · rw [chunkStep_builds.keeps_iff (grown_start (by decide) (by decide) (by decide))
      fun _ _ _ _ => Iff.rfl, Nat.zero_add, and_true]
    rfl

/-- A timestamp of nineteen digits, a tab and sixteen characters in 32 bytes. -/
theorem long_row_overruns : ¬ BooksKept wholeFmt 0 2000000000000000000
    ⟨[⟨1000000000000000000, 1000000000000⟩], 1000000000000000000⟩ ⟨0, 0, []⟩ := by
  intro h
  obtain ⟨⟨ram, hram⟩, -⟩ := booksKept_answers h
  have hnone : getValue wholeFmt 0 2000000000000000000
      ⟨[⟨1000000000000000000, 1000000000000⟩], 1000000000000000000⟩ = none := by decide +kernel
  cases hnone.symm.trans hram

end Tsdb.RowBooks
