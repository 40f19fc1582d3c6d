import Tsdb.BucketLines
import Tsdb.CoarseQuery
import Tsdb.GetAnswer
import Tsdb.Outcomes
import Tsdb.WalBytes

namespace Tsdb.GetSize

open CStrings CStrings.TextBuffer Head Files Registry History Service Disk Query GetAnswer Aggregate
  Downsample Buckets BucketLines CoarseQuery WalBytes Outcomes

variable {V : Type} {fmt : V → Text} {start stop : Int}

/-- The timestamp, the tab, the value and the terminator fit the 32 bytes of `longToString`. -/
theorem headRow_eq (p : Point V) : headRow fmt p =
    if (row fmt p).length ≤ 32 then some (signedDecimal p.ts ++ '\t' :: fmt p.value) else none := by
  have hrow : (row fmt p).length = (signedDecimal p.ts).length + (fmt p.value).length + 2 := by
    simp only [row, List.length_append, List.length_cons, List.length_nil]
    omega
  rw [hrow]
  unfold headRow strcat
  by_cases hts : (signedDecimal p.ts).length ≤ 30
  · simp only [List.take_of_length_le (show (signedDecimal p.ts).length ≤ 31 by omega),
      List.length_singleton, if_pos (show (signedDecimal p.ts).length + 1 + 1 ≤ 32 by omega),
      Option.bind_some, List.length_append, List.length_take]
    by_cases hfit : (signedDecimal p.ts).length + (fmt p.value).length + 2 ≤ 32
    · rw [if_pos (by omega), if_pos hfit, Option.map_some,
        List.take_of_length_le (by omega), List.append_assoc]
      rfl
    · rw [if_neg (by omega), if_neg hfit]
      rfl
  · rw [if_neg (by simp only [List.length_take, List.length_singleton]; omega), if_neg (by omega)]
    rfl

def FirstFit (base need capacity : Nat) : Prop :=
  need ≤ capacity ∧ ∃ k, capacity = base * 2 ^ k ∧ ∀ j < k, base * 2 ^ j < need

theorem FirstFit.le_iff {base need capacity bound : Nat} (h : FirstFit base need capacity) :
    capacity ≤ bound ↔ ∃ k, need ≤ base * 2 ^ k ∧ base * 2 ^ k ≤ bound := by
  obtain ⟨hneed, k, rfl, hleast⟩ := h
  constructor
  · intro hle
    exact ⟨k, hneed, hle⟩
  · rintro ⟨j, hj, hle⟩
    have hkj : k ≤ j := by
      by_contra hlt
      have := hleast j (by omega)
      omega
    exact (Nat.mul_le_mul_left base (Nat.pow_le_pow_right (by decide) hkj)).trans hle

theorem FirstFit.grow {base need need' : Nat} {buf : TextBuffer}
    (h : FirstFit base need buf.capacity) (hle : need ≤ need')
    (hstep : need' ≤ buf.capacity * 2) :
    FirstFit base need' (buf.grow need' (buf.capacity * 2)).capacity := by
  obtain ⟨hneed, k, hk, hleast⟩ := h
  unfold TextBuffer.grow TextBuffer.realloc
  split
  case isTrue hsmall =>
    refine ⟨hstep, k + 1, ?_, fun j hj => ?_⟩
    · change buf.capacity * 2 = _
      rw [hk, Nat.pow_succ, Nat.mul_assoc]
    · rcases Nat.lt_succ_iff_lt_or_eq.mp hj with hj | rfl
      · exact (hleast j hj).trans_le hle
      · omega
  case isFalse hbig => exact ⟨by omega, k, hk, fun j hj => (hleast j hj).trans_le hle⟩

theorem rowsText_cons (p : Point V) (points : List (Point V)) :
    rowsText fmt start stop (p :: points) =
      (if InRange start stop p then row fmt p else []) ++ rowsText fmt start stop points := by
  by_cases hin : InRange start stop p <;> simp [rowsText, hin]

/-- `offset` follows the text, and the buffer is never larger than doubling had to make it. -/
theorem getValueLoop_some {points : List (Point V)}
    (hshort : ∀ p ∈ points, InRange start stop p → (row fmt p).length ≤ 32) {range : TextBuffer}
    (hfit : FirstFit 128 (range.text.length + 2) range.capacity) (size : Nat) :
    ∃ capacity, getValueLoop fmt start stop points range range.text.length size =
        some (⟨capacity, range.text ++ rowsText fmt start stop points⟩,
          size + (inRange start stop points).length) ∧
      FirstFit 128 (range.text.length + (rowsText fmt start stop points).length + 2) capacity := by
  induction points generalizing range size with
  | nil => exact ⟨range.capacity, by simp [getValueLoop, rowsText, inRange], by simpa [rowsText]⟩
  | cons p points ih =>
    have hshort' := fun q hq => hshort q (List.mem_cons_of_mem _ hq)
    by_cases hin : InRange start stop p
    · have hp := hshort p (by simp) hin
      have hrow : row fmt p = signedDecimal p.ts ++ '\t' :: fmt p.value ++ ['\n'] := by simp [row]
      have hlen : (row fmt p).length = (signedDecimal p.ts ++ '\t' :: fmt p.value).length + 1 := by
        rw [hrow, List.length_append, List.length_singleton]
      have hcap : 128 ≤ range.capacity := by
        obtain ⟨_, k, hk, _⟩ := hfit
        have := Nat.one_le_two_pow (n := k)
        omega
      have hgrown : FirstFit 128 (range.text.length + (row fmt p).length + 2)
          (range.grow (range.text.length + (row fmt p).length + 2) (range.capacity * 2)).capacity :=
        hfit.grow (by omega) (by have := hfit.1; omega)
      have hroom := hgrown.1
      obtain ⟨capacity, hloop, hcapacity⟩ := @ih hshort' ⟨_, range.text ++ row fmt p⟩
        (by simpa only [List.length_append] using hgrown) (size + 1)
      rw [List.length_append] at hloop hcapacity
      refine ⟨capacity, ?_, ?_⟩
      · rw [getValueLoop, if_pos hin, headRow_eq, if_pos hp, Option.bind_some]
        dsimp only
        rw [← hrow, show range.text.length + ((signedDecimal p.ts ++ '\t' :: fmt p.value).length + 2)
          + 1 = range.text.length + (row fmt p).length + 2 by omega,
          strcpyAt_end (by rw [grow_text]) (by omega), Option.bind_some, grow_text,
          show range.text.length + (signedDecimal p.ts ++ '\t' :: fmt p.value).length + 1 =
            range.text.length + (row fmt p).length by omega, hloop, rowsText_cons, if_pos hin,
          List.append_assoc]
        simp [inRange, hin]
        omega
      · rw [rowsText_cons, if_pos hin, List.length_append, ← Nat.add_assoc]
        exact hcapacity
    · obtain ⟨capacity, hloop, hcapacity⟩ := ih hshort' hfit size
      refine ⟨capacity, ?_, ?_⟩
      · rw [getValueLoop, if_neg hin, hloop, rowsText_cons, if_neg hin, List.nil_append]
        simp [inRange, hin]
      · rwa [rowsText_cons, if_neg hin, List.nil_append]

/-- A row without the fields that fit is a write behind the scratch string. -/
theorem getValueLoop_short {points : List (Point V)} {range : TextBuffer} {offset size : Nat}
    {out : TextBuffer × Nat}
    (h : getValueLoop fmt start stop points range offset size = some out) :
    ∀ p ∈ points, InRange start stop p → (row fmt p).length ≤ 32 := by
  induction points generalizing range offset size with
  | nil => exact fun p hp => absurd hp List.not_mem_nil
  | cons p points ih =>
    unfold getValueLoop at h
    intro q hq hin
    split at h
    · obtain ⟨tmp, htmp, h⟩ := Option.bind_eq_some_iff.mp h
      obtain ⟨range', _, h⟩ := Option.bind_eq_some_iff.mp h
      rcases List.mem_cons.mp hq with rfl | hq
      · by_contra hlong
        rw [headRow_eq, if_neg hlong] at htmp
        cases htmp
      · exact ih h q hq hin
    · rename_i hout
      rcases List.mem_cons.mp hq with rfl | hq
      · exact absurd hin hout
      · exact ih h q hq hin

/-- `GET_value` stays inside its buffers on these points: each row fits the scratch string, and no
capacity that has room for the rows is too small for the summary behind them. -/
def Roomy (fmt : V → Text) (points : List (Point V)) : Prop :=
  (∀ p ∈ points, (row fmt p).length ≤ 32) ∧
    ∀ k, ¬ ((points.flatMap (row fmt)).length + 2 ≤ 128 * 2 ^ k ∧
      128 * 2 ^ k ≤ (points.flatMap (row fmt)).length + (pointsLine points.length).length)

theorem summary_some_iff (range : TextBuffer) (size : Nat) :
    (∃ ram, ((range.strcat ['(']).bind fun range => (range.strcat (decimal size)).bind fun range =>
        (range.strcat " points)\n".toList).map fun range => (range.text, size)) = some ram) ↔
      range.text.length + (pointsLine size).length < range.capacity := by
  have hline : (pointsLine size).length = (decimal size).length + 10 := by
    simp only [pointsLine, List.length_cons, List.length_append]
    rfl
  have htail : " points)\n".toList.length = 9 := rfl
  rw [hline]
  constructor
  · rintro ⟨ram, h⟩
    obtain ⟨r1, h1, h⟩ := Option.bind_eq_some_iff.mp h
    obtain ⟨r2, h2, h⟩ := Option.bind_eq_some_iff.mp h
    obtain ⟨r3, h3, _⟩ := Option.map_eq_some_iff.mp h
    unfold strcat at h1 h2 h3
    split at h1
    case isFalse => cases h1
    obtain rfl := Option.some.inj h1
    split at h2
    case isFalse => cases h2
    obtain rfl := Option.some.inj h2
    split at h3
    case isFalse => cases h3
    rename_i hlast
    simp only [List.length_append, List.length_singleton, htail] at hlast
    omega
  · intro hroom
    refine ⟨(range.text ++ ['('] ++ decimal size ++ " points)\n".toList, size), ?_⟩
    rw [strcat_eq (by rw [List.length_singleton]; omega), Option.bind_some,
      strcat_eq (by rw [List.length_append, List.length_singleton]; dsimp only; omega),
      Option.bind_some, strcat_eq (by
        simp only [List.length_append, List.length_singleton, htail]
        omega)]
    rfl

theorem getValue_some_iff (head : HeadBlock V) :
    (∃ ram, getValue fmt start stop head = some ram) ↔
      Roomy fmt (inRange start stop head.points) := by
  have hmem : (∀ p ∈ inRange start stop head.points, (row fmt p).length ≤ 32) ↔
      ∀ p ∈ head.points, InRange start stop p → (row fmt p).length ≤ 32 := by
    simp only [inRange, List.mem_filter, decide_eq_true_iff, and_imp]
  unfold Roomy
  rw [hmem]
  by_cases hshort : ∀ p ∈ head.points, InRange start stop p → (row fmt p).length ≤ 32
  · obtain ⟨capacity, hloop, hfit⟩ := @getValueLoop_some V fmt start stop _ hshort (.new 128)
      ⟨by decide, 0, rfl, fun j hj => absurd hj (Nat.not_lt_zero j)⟩ 0
    change getValueLoop fmt start stop head.points (.new 128) 0 0 = _ at hloop
    simp only [TextBuffer.new, List.nil_append, List.length_nil, Nat.zero_add] at hloop hfit
    have hbound := @FirstFit.le_iff _ _ _ ((rowsText fmt start stop head.points).length +
      (pointsLine (inRange start stop head.points).length).length) hfit
    rw [and_iff_right hshort, getValue, TextBuffer.new, hloop, Option.bind_some,
      summary_some_iff, ← not_exists]
    exact (not_le.symm.trans (not_congr hbound))
  · refine iff_of_false ?_ fun h => hshort h.1
    rintro ⟨ram, h⟩
    obtain ⟨out, hout, _⟩ := Option.bind_eq_some_iff.mp h
    exact hshort (getValueLoop_short hout)

theorem decompressLoop_some {points : List (Point V)}
    (hshort : ∀ p ∈ points, (row fmt p).length ≤ 1023) {buf : TextBuffer} {currentLen : Nat}
    (hroom : currentLen + 1 ≤ buf.capacity) (hcap : 1024 ≤ buf.capacity) (count : Nat) :
    ∃ out, decompressLoop fmt start stop points buf currentLen count = some out := by
  induction points generalizing buf currentLen count with
  | nil => exact ⟨_, rfl⟩
  | cons p points ih =>
    have hrest := fun q hq => hshort q (List.mem_cons_of_mem _ hq)
    unfold decompressLoop
    split
    · have hp := hshort p (by simp)
      have hgrown : currentLen + (row fmt p).length + 1 ≤
          (buf.grow (currentLen + (row fmt p).length + 1) (buf.capacity * 2)).capacity :=
        le_grow (by omega)
      have hstill : 1024 ≤
          (buf.grow (currentLen + (row fmt p).length + 1) (buf.capacity * 2)).capacity :=
        hcap.trans (capacity_le_grow _ _)
      dsimp only
      rw [strcpyAt, if_pos (by rw [List.length_take]; omega), Option.bind_some]
      split
      · refine ih hrest ?_ ?_ (count + 1)
        · exact hgrown
        · exact hstill
      · exact ih hrest hgrown hstill (count + 1)
    · exact ih hrest hroom hcap count

/-- The chunk loop never leaves its buffer while `current_len` is the length of the text. -/
theorem chunks_some {dir : Dir V} {chunks : List ChunkMetadata} {flushed : List (List (Point V))}
    (hreads : List.Forall₂ (ReadsAs dir) chunks flushed) {done : List (Point V)} {a : Answer}
    (ha : Bounded fmt start stop done a)
    (hshort : ∀ p ∈ flushed.flatten, (row fmt p).length ≤ 1023) :
    ∃ a', chunks.foldlM (getChunk fmt start stop dir) a = some a' := by
  induction hreads generalizing done a with
  | nil => exact ⟨a, rfl⟩
  | @cons chunk points chunks flushed hread _ ih =>
    rw [List.flatten_cons] at hshort
    have hstep : ∃ a1, getChunk fmt start stop dir a chunk = some a1 := by
      unfold getChunk
      split
      · obtain ⟨disk, hdisk⟩ := @decompressLoop_some V fmt start stop points
          (fun p hp => hshort p (List.mem_append_left _ hp)) (.new 1024) 0 (by decide) le_rfl 0
        have hneed := @le_grow a.result (a.currentLen + disk.1.length + 1)
          (a.currentLen + disk.1.length + 2048) (by omega)
        simp only [hread.1, decompressChunk, hdisk, Option.bind_some, appendDisk]
        rw [strcat_eq (by rw [grow_text, ← ha.length]; exact hneed)]
        exact ⟨_, rfl⟩
      · exact ⟨a, rfl⟩
    obtain ⟨a1, h1⟩ := hstep
    obtain ⟨a2, h2⟩ := ih (getChunk_bound ha hread h1)
      fun p hp => hshort p (List.mem_append_right _ hp)
    refine ⟨a2, ?_⟩
    rw [List.foldlM_cons, h1]
    exact h2

theorem row_length {p : Point V} (hlong : InLong p.ts) (hfmt : (fmt p.value).length ≤ 313) :
    (row fmt p).length ≤ 1023 := by
  obtain ⟨hlow, hhigh⟩ := hlong
  have hdigits : (decimal p.ts.natAbs).length ≤ 19 := decimal_length (by decide) (by omega)
  have hts : (signedDecimal p.ts).length ≤ 20 := by
    unfold signedDecimal
    split
    · rw [List.length_cons]
      omega
    · omega
  simp only [row, List.length_append, List.length_cons, List.length_nil]
  omega

theorem getMetric_size {m : MetricState V} {flushed : List (List (Point V))}
    (hreads : List.Forall₂ (ReadsAs m.dir) m.entry.chunks flushed)
    (hshort : ∀ p ∈ flushed.flatten, (row fmt p).length ≤ 1023) :
    (Roomy fmt (inRange start stop m.entry.head.points) → ∃ rows,
        getMetric fmt start stop m = some (rows ++
            pointsLine (inRange start stop (flushed.flatten ++ m.entry.head.points)).length,
          (inRange start stop (flushed.flatten ++ m.entry.head.points)).length)) ∧
      (¬ Roomy fmt (inRange start stop m.entry.head.points) →
        getMetric fmt start stop m = none) := by
  obtain ⟨a, ha⟩ := chunks_some hreads (bounded_start : Bounded fmt start stop [] _) hshort
  have hb := chunks_bound hreads bounded_start ha
  rw [List.nil_append] at hb
  rw [← getValue_some_iff, getMetric, ha, Option.bind_some]
  constructor
  · rintro ⟨ram, hram⟩
    have hsize : a.size + ram.2 =
        (inRange start stop (flushed.flatten ++ m.entry.head.points)).length := by
      rw [inRange_append, List.length_append, hb.size, getValue_size hram]
    rw [hram, Option.bind_some, getFinish_eq hb.length, hsize]
    exact ⟨a.result.text, rfl⟩
  · intro hnone
    rw [Option.eq_none_iff_forall_ne_some.mpr fun ram h => hnone ⟨ram, h⟩, Option.bind_none]

def cellCount : Cell V → Nat
  | .int n => n
  | .real _ => 0

def countTotal (lines : List (Line V)) : Nat := (lines.map fun line => cellCount line.cell).sum

section Arithmetic

variable [Zero V] [Add V] [Div V] [NatCast V] [LT V] [DecidableLT V]

theorem aggPoints_countTotal {points : List (Point V)} {bucketSeconds : Int}
    (hin : ∀ p ∈ points, InRange start stop p) (hpos : 0 < bucketSeconds) :
    ∃ lines, aggPoints points start stop bucketSeconds "count".toList = .lines lines ∧
      countTotal lines = points.length := by
  obtain ⟨ks, cell, hocc, hlines, hcell⟩ :=
    aggPoints_lines hin hpos (by decide : "count".toList ∈ aggFunctions)
  refine ⟨_, hlines, ?_⟩
  have hcount (k : Nat) :
      cellCount (cell k) = (kthBucket start bucketSeconds points k).length := by
    have hacc := hcell k
    change some (Cell.int (bucketAcc _ _).count) = some (cell k) at hacc
    rw [← Option.some.inj hacc, cellCount, bucketAcc, foldl_count]
    exact (Nat.zero_add _).trans (bucketPoints_perm _ _ (sortPoints_perm points)).length_eq
  rw [countTotal, List.map_map, ← hocc.sum_lengths hpos fun p hp => (hin p hp).1]
  exact congrArg List.sum (List.map_congr_left fun k _ => hcount k)

/-- `Head_GET` has the number that `Head_AGG` splits into its bucket counts, exactly when
`GET_value` stays inside its buffers. -/
theorem get_agg_agree_iff {dataDir : Text} {bits : V → BitVec 64} {j : Journal V}
    (h : Handling dataDir (keepsFlushed dataDir bits) j) {metric : Text} {m : MetricState V}
    (hm : hashFindStr metric j.store = some m) {fmt : V → Text}
    (hfmt : ∀ x, (fmt x).length ≤ 313) (hlong : ∀ p ∈ storedPoints m, InLong p.ts)
    {start stop bucketSeconds : Int} (hrange : start < stop) (hpos : 0 < bucketSeconds)
    (hraw : ¬ (dataDir ≠ [] ∧ downsampleShouldUse j.store metric start stop bucketSeconds)) :
    (∃ text size lines, headGet fmt start stop metric j.store = some (some (text, size)) ∧
        pointsLine size <:+ text ∧
        headAgg dataDir metric start stop bucketSeconds "count".toList j.store = .lines lines ∧
        countTotal lines = size) ↔
      Roomy fmt (m.entry.head.points.filter fun p => InRange start stop p) := by
  obtain ⟨flushed, hd⟩ := serving_onDisk h.fresh hm
  have hflushed : m.entry.chunks.flatMap (chunkPoints m.dir) = flushed.flatten := by
    rw [List.flatMap_def, Readable.points hd.readable]
  have hshort : ∀ p ∈ flushed.flatten, (row fmt p).length ≤ 1023 := by
    intro p hp
    refine row_length (hlong p ?_) (hfmt p.value)
    rw [storedPoints, hflushed]
    exact List.mem_append_left _ hp
  obtain ⟨hroomy, htight⟩ := @getMetric_size V fmt start stop m flushed (OnDisk.reads hd) hshort
  have hget : headGet fmt start stop metric j.store = (getMetric fmt start stop m).map some := by
    rw [headGet, hm]
  have hcollect : aggCollect dataDir metric start stop bucketSeconds j.store m =
      some (inRange start stop (flushed.flatten ++ m.entry.head.points)) := by
    rw [aggCollect, if_neg hraw, OnDisk.collectRaw_eq hd, hflushed, inRange_append]
    rfl
  constructor
  · rintro ⟨text, size, lines, hsome, _⟩
    by_contra hnot
    rw [hget, htight hnot] at hsome
    cases hsome
  · intro hroom
    obtain ⟨rows, hrows⟩ := hroomy hroom
    have hagg : ∃ lines, headAgg dataDir metric start stop bucketSeconds "count".toList j.store =
        .lines lines ∧ countTotal lines =
          (inRange start stop (flushed.flatten ++ m.entry.head.points)).length := by
      rw [headAgg, if_neg (by omega), hm]
      simp only [hcollect]
      generalize hpoints : inRange start stop (flushed.flatten ++ m.entry.head.points) = points
      have hin : ∀ p ∈ sortPoints points, InRange start stop p := by
        intro p hp
        rw [(sortPoints_perm points).mem_iff, ← hpoints] at hp
        simpa using (List.mem_filter.mp hp).2
      split
      case isTrue hnil => exact ⟨[], rfl, by rw [hnil]; rfl⟩
      case isFalse =>
        rw [← (sortPoints_perm points).length_eq]
        exact aggPoints_countTotal hin hpos
    obtain ⟨lines, hlines, htotal⟩ := hagg
    exact ⟨_, _, lines, by rw [hget, hrows, Option.map_some], List.suffix_append _ _, hlines,
      htotal⟩

def wholeFmt (n : Nat) : Text := (decimal n ++ ".00".toList).take 313

theorem wholeFmt_length (n : Nat) : (wholeFmt n).length ≤ 313 := List.length_take_le ..

theorem get_agg_agree_iff_flushed : ∃ (j : Journal Nat) (m : MetricState Nat),
    hashFindStr ['m'] j.store = some m ∧
    ∃ text size lines, headGet wholeFmt 0 10 ['m'] j.store = some (some (text, size)) ∧
      pointsLine size <:+ text ∧
      headAgg ['d'] ['m'] 0 10 4 "count".toList j.store = .lines lines ∧
      countTotal lines = size := by
  obtain ⟨m, hm, hp⟩ := Option.map_eq_some_iff.mp (show (handledMetric ['d']
    [⟨0, .ok, ['m'], .put ⟨5, 1⟩⟩, ⟨0, .ok, ['m'], .flush⟩, ⟨0, .ok, ['m'], .put ⟨7, 1⟩⟩]
    ['m']).map (fun m : MetricState Nat => (storedPoints m, m.entry.head.points)) =
      some ([⟨5, 1⟩, ⟨7, 1⟩], [⟨7, 1⟩]) by decide)
  obtain ⟨j, hj, hfind⟩ := handling_handledMetric (keepsFlushed ['d'] fun _ => 0#64)
    (by decide) hm
  obtain ⟨hstored, hhead⟩ := Prod.mk.inj hp
  have hraw : ¬ ((['d'] : Text) ≠ [] ∧ downsampleShouldUse j.store ['m'] 0 10 4) := by
    simp [downsampleShouldUse, downsampleAfterSeconds]
  refine ⟨j, m, hfind, (get_agg_agree_iff hj hfind wholeFmt_length ?_ (by decide) (by decide)
    hraw).mpr ?_⟩
  · rw [hstored]
    simp [InLong]
  · rw [hhead]
    refine ⟨by decide, fun k hk => ?_⟩
    have hpow : 1 ≤ 2 ^ k := Nat.one_le_two_pow
    have hlen : (List.flatMap (row wholeFmt) [⟨7, 1⟩]).length + (pointsLine 1).length = 18 := by
      decide
    change _ ∧ 128 * 2 ^ k ≤ (List.flatMap (row wholeFmt) [⟨7, 1⟩]).length +
      (pointsLine 1).length at hk
    omega

/-- Nineteen digits, a tab and sixteen characters are more than `longToString` allocated. -/
theorem get_overruns_row : ¬ ∀ (dataDir : Text) (j : Journal Nat) (metric : Text)
    (m : MetricState Nat) (fmt : Nat → Text) (start stop bucketSeconds : Int),
    Handling dataDir (keepsFlushed dataDir fun _ => 0#64) j → hashFindStr metric j.store = some m →
    (∀ x, (fmt x).length ≤ 313) → (∀ p ∈ storedPoints m, InLong p.ts) → start < stop →
    0 < bucketSeconds →
    ¬ (dataDir ≠ [] ∧ downsampleShouldUse j.store metric start stop bucketSeconds) →
    ∃ text size lines, headGet fmt start stop metric j.store = some (some (text, size)) ∧
      pointsLine size <:+ text ∧
      headAgg dataDir metric start stop bucketSeconds "count".toList j.store = .lines lines ∧
      countTotal lines = size := by
  intro h
  obtain ⟨m, hm, hp⟩ := Option.map_eq_some_iff.mp (show (handledMetric []
    [⟨0, .ok, ['m'], .put ⟨1000000000000000000, 1000000000000⟩⟩] ['m']).map
      (fun m : MetricState Nat => (storedPoints m,
        getMetric wholeFmt 1000000000000000000 1000000000000000060 m)) =
      some ([⟨1000000000000000000, 1000000000000⟩], none) by decide +kernel)
  obtain ⟨j, hj, hfind⟩ := handling_handledMetric (keepsFlushed [] fun _ => 0#64)
    (by decide) hm
  obtain ⟨hstored, hget⟩ := Prod.mk.inj hp
  obtain ⟨text, size, lines, hsome, _⟩ := h [] j ['m'] m wholeFmt 1000000000000000000
    1000000000000000060 60 hj hfind wholeFmt_length (by rw [hstored]; simp [InLong]) (by decide)
    (by decide) (by simp)
  rw [headGet, hfind] at hsome
  simp only [hget] at hsome
  cases hsome

end Arithmetic

end Tsdb.GetSize
