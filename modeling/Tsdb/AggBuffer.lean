import Tsdb.Buckets
import Tsdb.RowBooks

namespace Tsdb.AggBuffer

open CStrings CStrings.TextBuffer Head Files Registry Query Disk Aggregate Downsample Buckets
  Checked RowBooks

variable {V : Type}

/-- `Point *pts` with its `n` and `cap`; every point that is stored has its place. -/
structure PointArray (V : Type) where
  points : List (Point V)
  cap : Nat
  fits : points.length ≤ cap

def PointArray.null : PointArray V := ⟨[], 0, le_rfl⟩

/-- `pts[n++] = p` with room for `cap` points; `none` is a write behind the end. -/
def PointArray.store (a : PointArray V) (cap : Nat) (p : Point V) : Option (PointArray V) :=
  if h : a.points.length < cap then some ⟨a.points ++ [p], cap, List.length_append.trans_le h⟩
  else none

/-- `cap` is of type `int`. -/
def appendPoint (p : Point V) (a : PointArray V) : Option (PointArray V) :=
  if a.cap = 0 then a.store 1024 p
  else if a.cap ≤ a.points.length then
    (checked 31 (a.cap * 2)).bind fun cap => a.store cap.toNat p
  else a.store a.cap p

def collectLoop (start stop : Int) : List (Point V) → PointArray V → Option (PointArray V)
  | [], a => some a
  | p :: points, a =>
    if InRange start stop p then (appendPoint p a).bind (collectLoop start stop points)
    else collectLoop start stop points a

/-- `collect_points_from_chunk`; an inner `none` is a file that cannot be read. -/
def collectChunk (start stop : Int) (dir : Dir V) (name : Text) (a : PointArray V) :
    Option (Option (PointArray V)) :=
  match chunkRead dir name with
  | none => some none
  | some data => (collectLoop start stop data.points a).map some

/-- The loop over the coarse files, which goes on behind one that cannot be read. -/
def collectCoarseFiles (start stop : Int) (coarseDir : Dir V) :
    List Text → PointArray V → Option (PointArray V)
  | [], a => some a
  | name :: names, a =>
    (collectChunk start stop coarseDir name a).bind fun out =>
      collectCoarseFiles start stop coarseDir names (out.getD a)

/-- The loop over the raw chunks, which ends at the first one that cannot be read. -/
def collectRawChunks (start stop : Int) (dir : Dir V) :
    List ChunkMetadata → PointArray V → Option (Option (PointArray V))
  | [], a => some (some a)
  | chunk :: chunks, a =>
    if chunk.startTs < stop ∧ start ≤ chunk.endTs then
      (collectChunk start stop dir chunk.filename a).bind fun
        | none => some none
        | some a => collectRawChunks start stop dir chunks a
    else collectRawChunks start stop dir chunks a

section Array

def Doubled (a : PointArray V) : Prop :=
  (a.cap = 0 ∨ ∃ k, a.cap = 1024 * 2 ^ k) ∧ a.cap ≤ 2 ^ 30

theorem doubled_null : Doubled (PointArray.null : PointArray V) := ⟨.inl rfl, Nat.zero_le _⟩

theorem store_eq {a : PointArray V} {cap : Nat} (h : a.points.length < cap) (p : Point V) :
    ∃ a', a.store cap p = some a' ∧ a'.points = a.points ++ [p] ∧ a'.cap = cap :=
  ⟨_, dif_pos h, rfl, rfl⟩

theorem appendPoint_eq {a : PointArray V} (h : Doubled a) (hroom : a.points.length < 2 ^ 30)
    (p : Point V) :
    ∃ a', appendPoint p a = some a' ∧ a'.points = a.points ++ [p] ∧ Doubled a' := by
  obtain ⟨hpower, hmax⟩ := h
  have hfits := a.fits
  unfold appendPoint
  by_cases hzero : a.cap = 0
  · rw [if_pos hzero]
    obtain ⟨a', ha', hpoints, hcap⟩ := @store_eq V a 1024 (by omega) p
    exact ⟨a', ha', hpoints, .inr ⟨0, hcap⟩, by rw [hcap]; decide⟩
  rw [if_neg hzero]
  obtain ⟨k, hk⟩ := hpower.resolve_left hzero
  by_cases hfull : a.cap ≤ a.points.length
  · have hsmall : k < 20 := by
      by_contra hge
      have := Nat.mul_le_mul_left 1024 (Nat.pow_le_pow_right (n := 2) (by decide) (not_lt.mp hge))
      omega
    have hdouble : a.cap * 2 = 1024 * 2 ^ (k + 1) := by rw [hk, Nat.pow_succ, Nat.mul_assoc]
    have hle : 1024 * 2 ^ (k + 1) ≤ 1024 * 2 ^ 20 :=
      Nat.mul_le_mul_left 1024 (Nat.pow_le_pow_right (by decide) hsmall)
    have hnat : ((a.cap : Int) * 2).toNat = a.cap * 2 := by omega
    rw [if_pos hfull, checked_inBits ⟨by omega, by omega⟩, Option.bind_some, hnat]
    obtain ⟨a', ha', hpoints, hcap⟩ := @store_eq V a (a.cap * 2) (by omega) p
    exact ⟨a', ha', hpoints, .inr ⟨k + 1, hcap.trans hdouble⟩, by omega⟩
  · rw [if_neg hfull]
    obtain ⟨a', ha', hpoints, hcap⟩ := @store_eq V a a.cap (not_le.mp hfull) p
    exact ⟨a', ha', hpoints, .inr ⟨k, hcap.trans hk⟩, by omega⟩

variable {start stop : Int}

theorem collectLoop_eq {points : List (Point V)} {a : PointArray V} (h : Doubled a)
    (hroom : a.points.length + (bucketPoints start stop points).length ≤ 2 ^ 30) :
    ∃ a', collectLoop start stop points a = some a' ∧
      a'.points = a.points ++ bucketPoints start stop points ∧ Doubled a' := by
  induction points generalizing a with
  | nil => exact ⟨a, rfl, (List.append_nil _).symm, h⟩
  | cons p points ih =>
    unfold collectLoop
    by_cases hin : InRange start stop p
    · rw [bucketPoints_cons_pos hin, List.length_cons] at hroom
      obtain ⟨a1, ha1, hpoints, h1⟩ := appendPoint_eq h (by omega) p
      obtain ⟨a', ha', hpoints', h'⟩ := ih h1 (by
        rw [hpoints, List.length_append, List.length_singleton]
        omega)
      refine ⟨a', by rw [if_pos hin, ha1]; exact ha', ?_, h'⟩
      rw [hpoints', hpoints, bucketPoints_cons_pos hin, List.append_assoc, List.singleton_append]
    · rw [bucketPoints_cons_neg hin] at hroom ⊢
      rw [if_neg hin]
      exact ih h hroom

theorem collectChunk_eq {dir : Dir V} {name : Text} {a : PointArray V} (h : Doubled a)
    (hroom : a.points.length + ((collectPointsFromChunk start stop dir name).getD []).length ≤
      2 ^ 30) :
    match collectPointsFromChunk start stop dir name with
    | none => collectChunk start stop dir name a = some none
    | some points => ∃ a', collectChunk start stop dir name a = some (some a') ∧
      a'.points = a.points ++ points ∧ Doubled a' := by
  unfold collectPointsFromChunk at hroom ⊢
  unfold collectChunk
  cases hread : chunkRead dir name with
  | none => rfl
  | some data =>
    rw [hread] at hroom
    obtain ⟨a', ha', hpoints, h'⟩ := collectLoop_eq h hroom
    exact ⟨a', by dsimp only; rw [ha']; rfl, hpoints, h'⟩

abbrev coarseIn (start stop : Int) (coarseDir : Dir V) (names : List Text) : List (Point V) :=
  names.flatMap fun name => (collectPointsFromChunk start stop coarseDir name).getD []

theorem collectCoarseFiles_eq {coarseDir : Dir V} {names : List Text} {a : PointArray V}
    (h : Doubled a)
    (hroom : a.points.length + (coarseIn start stop coarseDir names).length ≤ 2 ^ 30) :
    ∃ a', collectCoarseFiles start stop coarseDir names a = some a' ∧
      a'.points = a.points ++ coarseIn start stop coarseDir names ∧ Doubled a' := by
  induction names generalizing a with
  | nil => exact ⟨a, rfl, (List.append_nil _).symm, h⟩
  | cons name names ih =>
    unfold coarseIn at hroom ih ⊢
    rw [List.flatMap_cons, List.length_append] at hroom
    have hchunk := @collectChunk_eq V start stop coarseDir name a h (by omega)
    rw [List.flatMap_cons]
    unfold collectCoarseFiles
    cases hpoints : collectPointsFromChunk start stop coarseDir name with
    | none =>
      rw [hpoints] at hchunk hroom
      obtain ⟨a', ha', hall, h'⟩ := ih h (by simpa using hroom)
      exact ⟨a', by rw [hchunk]; exact ha', hall, h'⟩
    | some points =>
      rw [hpoints] at hchunk hroom
      obtain ⟨a1, ha1, hall1, h1⟩ := hchunk
      obtain ⟨a', ha', hall, h'⟩ := ih h1 (by
        rw [hall1, List.length_append]
        simpa [Nat.add_assoc] using hroom)
      refine ⟨a', by rw [ha1]; exact ha', ?_, h'⟩
      rw [hall, hall1, List.append_assoc]
      rfl

def rawFrom (start stop : Int) (dir : Dir V) (chunks : List ChunkMetadata)
    (points : List (Point V)) : Option (List (Point V)) :=
  (chunks.filter fun chunk => chunk.startTs < stop ∧ start ≤ chunk.endTs).foldlM
    (fun points chunk => (collectPointsFromChunk start stop dir chunk.filename).map (points ++ ·))
    points

theorem collectRawChunks_eq {dir : Dir V} {chunks : List ChunkMetadata} {a : PointArray V}
    (h : Doubled a) (hroom : a.points.length + (bucketPoints start stop
      (chunks.flatMap (chunkPoints dir))).length ≤ 2 ^ 30) :
    match rawFrom start stop dir chunks a.points with
    | none => collectRawChunks start stop dir chunks a = some none
    | some points => ∃ a', collectRawChunks start stop dir chunks a = some (some a') ∧
      a'.points = points ∧ Doubled a' ∧ a'.points.length ≤ a.points.length +
        (bucketPoints start stop (chunks.flatMap (chunkPoints dir))).length := by
  induction chunks generalizing a with
  | nil => exact ⟨a, rfl, rfl, h, Nat.le_add_right _ _⟩
  | cons chunk chunks ih =>
    have hsplit : bucketPoints start stop ((chunk :: chunks).flatMap (chunkPoints dir)) =
        bucketPoints start stop (chunkPoints dir chunk) ++
          bucketPoints start stop (chunks.flatMap (chunkPoints dir)) := by
      rw [List.flatMap_cons]
      exact List.filter_append ..
    have hpart : (collectPointsFromChunk start stop dir chunk.filename).getD [] =
        bucketPoints start stop (chunkPoints dir chunk) := by
      unfold collectPointsFromChunk chunkPoints
      cases chunkRead dir chunk.filename <;> rfl
    rw [hsplit, List.length_append] at hroom
    unfold collectRawChunks
    by_cases hin : chunk.startTs < stop ∧ start ≤ chunk.endTs
    · have hnext (points : List (Point V)) : rawFrom start stop dir (chunk :: chunks) points =
          ((collectPointsFromChunk start stop dir chunk.filename).map (points ++ ·)).bind
            (rawFrom start stop dir chunks) := by
        rw [rawFrom, List.filter_cons_of_pos (by simpa using hin), List.foldlM_cons]
        rfl
      rw [if_pos hin, hnext]
      have hchunk := @collectChunk_eq V start stop dir chunk.filename a h (by rw [hpart]; omega)
      cases hpoints : collectPointsFromChunk start stop dir chunk.filename with
      | none =>
        rw [hpoints] at hchunk
        dsimp only at hchunk
        rw [hchunk]
        rfl
      | some points =>
        rw [hpoints] at hchunk hpart
        obtain ⟨a1, ha1, hall1, h1⟩ := hchunk
        rw [Option.getD_some] at hpart
        have hrest := ih h1 (by
          rw [hall1, hpart, List.length_append]
          omega)
        rw [ha1, Option.bind_some]
        rw [hall1] at hrest
        dsimp only [Option.map_some, Option.bind_some]
        cases hall : rawFrom start stop dir chunks (a.points ++ points) with
        | none =>
          rw [hall] at hrest
          exact hrest
        | some all =>
          rw [hall] at hrest
          obtain ⟨a', ha', hpoints', h', hle⟩ := hrest
          refine ⟨a', ha', hpoints', h', ?_⟩
          rw [hsplit, List.length_append, ← hpart]
          rw [List.length_append] at hle
          omega
    · have hnext (points : List (Point V)) : rawFrom start stop dir (chunk :: chunks) points =
          rawFrom start stop dir chunks points := by
        rw [rawFrom, List.filter_cons_of_neg (by simpa using hin)]
        rfl
      have hrest := ih h (by omega)
      rw [if_neg hin, hnext]
      cases hall : rawFrom start stop dir chunks a.points with
      | none =>
        rw [hall] at hrest
        exact hrest
      | some all =>
        rw [hall] at hrest
        obtain ⟨a', ha', hpoints', h', hle⟩ := hrest
        refine ⟨a', ha', hpoints', h', hle.trans ?_⟩
        rw [hsplit, List.length_append]
        omega

end Array

def appendLine (line : Text) (s : Rows) : Option Rows := do
  let need := line.length
  let total ← checked 31 (s.length + need + 64)
  let out ←
    if s.buf.capacity < total then
      (checked 31 (total * 2)).map fun outCap => s.buf.realloc outCap.toNat
    else some s.buf
  let out ← out.strcpyAt s.length line
  some ⟨out, s.length + need, s.count + 1⟩

def aggFooter (s : Rows) : Option Text := do
  let footer := ('(' :: (decimal s.count ++ " buckets)\n".toList)).take 63
  let need := footer.length
  let total ← checked 31 (s.length + need + 1)
  let out := s.buf.grow total.toNat total.toNat
  let out ← out.strcpyAt s.length footer
  some out.text

section Lines

theorem appendLine_eq {line : Text} {s : Rows} (h : Books s)
    (hroom : s.length + line.length + 64 < 2 ^ 30) :
    ∃ s', appendLine line s = some s' ∧ Books s' ∧ s'.buf.text = s.buf.text ++ line ∧
      s'.count = s.count + 1 := by
  obtain ⟨hlength, hspace⟩ := h
  unfold appendLine
  dsimp only
  rw [checked_inBits ⟨by omega, by omega⟩]
  by_cases hsmall : (s.buf.capacity : Int) < s.length + line.length + 64
  · have hcap : ((s.length + line.length + 64 : Int) * 2).toNat =
        (s.length + line.length + 64) * 2 := by
      omega
    refine ⟨⟨⟨(s.length + line.length + 64) * 2, s.buf.text ++ line⟩, s.length + line.length,
      s.count + 1⟩, ?_, ⟨?_, ?_⟩, rfl, rfl⟩
    · have hcopy : (s.buf.realloc ((s.length + line.length + 64) * 2)).strcpyAt s.length line =
          some ⟨(s.length + line.length + 64) * 2, s.buf.text ++ line⟩ :=
        strcpyAt_end hlength (by unfold realloc; dsimp only; omega)
      simp only [Option.bind_eq_bind, Option.bind_some, if_pos hsmall]
      rw [checked_inBits ⟨by omega, by omega⟩, Option.map_some, Option.bind_some, hcap, hcopy,
        Option.bind_some]
    · rw [hlength, List.length_append]
    · dsimp only
      omega
  · refine ⟨⟨⟨s.buf.capacity, s.buf.text ++ line⟩, s.length + line.length, s.count + 1⟩, ?_,
      ⟨?_, ?_⟩, rfl, rfl⟩
    · simp only [Option.bind_eq_bind, Option.bind_some, if_neg hsmall]
      rw [strcpyAt_end hlength (by omega), Option.bind_some]
    · rw [hlength, List.length_append]
    · dsimp only
      omega

theorem aggFooter_eq {s : Rows} (h : Books s) (hcount : s.count ≤ s.length)
    (hroom : s.length + 64 < 2 ^ 30) : aggFooter s =
      some (s.buf.text ++ '(' :: (decimal s.count ++ " buckets)\n".toList)) := by
  obtain ⟨hlength, hspace⟩ := h
  have hdigits : (decimal s.count).length ≤ 10 := decimal_length (by decide) (by omega)
  have hfooter : ('(' :: (decimal s.count ++ " buckets)\n".toList)).length ≤ 63 := by
    simp only [List.length_cons, List.length_append]
    have : " buckets)\n".toList.length = 10 := by decide
    omega
  unfold aggFooter
  dsimp only
  rw [List.take_of_length_le hfooter]
  generalize '(' :: (decimal s.count ++ " buckets)\n".toList) = footer at hfooter ⊢
  have htotal : ((s.length : Int) + footer.length + 1).toNat = s.length + footer.length + 1 := by
    omega
  rw [checked_inBits ⟨by omega, by omega⟩]
  simp only [Option.bind_eq_bind, Option.bind_some, htotal]
  rw [strcpyAt_end (by rw [grow_text, hlength]) (le_grow le_rfl), Option.bind_some, grow_text]

theorem lineText_pos (fmt : V → Text) (line : Line V) : 0 < (lineText fmt line).length := by
  rw [lineText, wholeLine, List.length_take, List.length_append, List.length_cons]
  omega

theorem aggCell_unknown [Div V] [NatCast V] {func : Text} (hfunc : func ∉ aggFunctions)
    (acc : Acc V) : aggCell func acc = none := by
  simp only [aggFunctions, List.mem_cons, List.not_mem_nil, or_false, not_or] at hfunc
  obtain ⟨h1, h2, h3, h4, h5, h6⟩ := hfunc
  rw [aggCell, if_neg h1, if_neg h2, if_neg h3, if_neg h4, if_neg h5, if_neg h6]

variable [Zero V] [Add V] [Div V] [NatCast V] [LT V] [DecidableLT V] (fmt : V → Text)

/-- The bucket loop with its buffer, `fuel` rounds at most; an inner `none` is an unknown
function. -/
def aggBucketsOut (points : List (Point V)) (stop bucketSeconds : Int) (func : Text) :
    Nat → Int → Nat → Int → Rows → Option (Option Rows)
  | 0, _, _, _, s => some (some s)
  | fuel + 1, bstart, distinctCount, prevTs, s =>
    if bstart < stop then
      let bend := bstart + bucketSeconds
      let acc := aggBucket bstart bend points (.start distinctCount prevTs)
      if acc.count = 0 then
        aggBucketsOut points stop bucketSeconds func fuel bend acc.distinctCount acc.prevTs s
      else
        match aggCell func acc with
        | none => some none
        | some cell =>
          (appendLine (lineText fmt ⟨bstart, bend, cell⟩) s).bind
            (aggBucketsOut points stop bucketSeconds func fuel bend acc.distinctCount acc.prevTs)
    else some (some s)

/-- `agg_points`; `none` is an overflow or a write behind the end of the buffer. -/
def aggPointsOut (points : List (Point V)) (start stop bucketSeconds : Int) (func : Text) :
    Option Text :=
  (aggBucketsOut fmt (sortPoints points) stop bucketSeconds func (stop - start).toNat start 0 0
    ⟨.new 2048, 0, 0⟩).bind fun
      | none => some "ERR invalid func\n".toList
      | some s => aggFooter s

variable {fmt} {points : List (Point V)} {stop bucketSeconds : Int} {func : Text}

theorem aggBucketsOut_known (hfunc : func ∈ aggFunctions) {fuel : Nat} {bstart : Int}
    {distinctCount : Nat} {prevTs : Int} {lines : List (Line V)}
    (hlines : aggBuckets points stop bucketSeconds func fuel bstart distinctCount prevTs =
      some lines) {s : Rows} (h : Books s) (hcount : s.count ≤ s.length)
    (hroom : s.length + (lines.flatMap (lineText fmt)).length + 64 < 2 ^ 30) :
    ∃ s', aggBucketsOut fmt points stop bucketSeconds func fuel bstart distinctCount prevTs s =
        some (some s') ∧ Books s' ∧ s'.count ≤ s'.length ∧
      s'.buf.text = s.buf.text ++ lines.flatMap (lineText fmt) ∧
      s'.count = s.count + lines.length := by
  induction fuel generalizing bstart distinctCount prevTs lines s with
  | zero =>
    obtain rfl := Option.some.inj hlines
    exact ⟨s, rfl, h, hcount, (List.append_nil _).symm, rfl⟩
  | succ fuel ih =>
    unfold aggBuckets at hlines
    unfold aggBucketsOut
    split
    case isFalse hend =>
      rw [if_neg hend] at hlines
      obtain rfl := Option.some.inj hlines
      exact ⟨s, rfl, h, hcount, (List.append_nil _).symm, rfl⟩
    case isTrue hmore =>
      rw [if_pos hmore] at hlines
      dsimp only at hlines ⊢
      generalize aggBucket bstart (bstart + bucketSeconds) points
        (.start distinctCount prevTs) = acc at hlines ⊢
      split
      case isTrue hzero =>
        rw [if_pos hzero] at hlines
        exact ih hlines h hcount hroom
      case isFalse hsome =>
        rw [if_neg hsome] at hlines
        obtain ⟨cell, hcell⟩ := aggCell_known hfunc acc
        rw [hcell] at hlines ⊢
        obtain ⟨rest, hrest, rfl⟩ := Option.map_eq_some_iff.mp hlines
        dsimp only
        rw [List.flatMap_cons, List.length_append] at hroom
        obtain ⟨s1, hs1, h1, htext, hone⟩ := @appendLine_eq
          (lineText fmt ⟨bstart, bstart + bucketSeconds, cell⟩) s h (by omega)
        have hline := lineText_pos fmt ⟨bstart, bstart + bucketSeconds, cell⟩
        have hlength : s1.length = s.length +
            (lineText fmt ⟨bstart, bstart + bucketSeconds, cell⟩).length := by
          rw [h1.length, htext, List.length_append, h.length]
        obtain ⟨s', hs', h', hcount', htext', hall⟩ := ih hrest h1 (by omega) (by omega)
        refine ⟨s', by rw [hs1]; exact hs', h', hcount', ?_, ?_⟩
        · rw [htext', htext, List.flatMap_cons, List.append_assoc]
        · rw [hall, hone, List.length_cons]
          omega

theorem aggBuckets_known (hfunc : func ∈ aggFunctions) (fuel : Nat) (bstart : Int)
    (distinctCount : Nat) (prevTs : Int) :
    ∃ lines, aggBuckets points stop bucketSeconds func fuel bstart distinctCount prevTs =
      some lines := by
  induction fuel generalizing bstart distinctCount prevTs with
  | zero => exact ⟨[], rfl⟩
  | succ fuel ih =>
    unfold aggBuckets
    split
    · dsimp only
      split
      · exact ih _ _ _
      · obtain ⟨cell, hcell⟩ := aggCell_known hfunc (aggBucket bstart (bstart + bucketSeconds)
          points (.start distinctCount prevTs))
        obtain ⟨rest, hrest⟩ := ih _ _ _
        rw [hcell, hrest]
        exact ⟨_, rfl⟩
    · exact ⟨[], rfl⟩

theorem aggBucketsOut_unknown (hfunc : func ∉ aggFunctions) (fuel : Nat) (bstart : Int)
    (distinctCount : Nat) (prevTs : Int) (s : Rows) :
    aggBuckets points stop bucketSeconds func fuel bstart distinctCount prevTs = none ∧
        aggBucketsOut fmt points stop bucketSeconds func fuel bstart distinctCount prevTs s =
          some none ∨
      aggBuckets points stop bucketSeconds func fuel bstart distinctCount prevTs = some [] ∧
        aggBucketsOut fmt points stop bucketSeconds func fuel bstart distinctCount prevTs s =
          some (some s) := by
  induction fuel generalizing bstart distinctCount prevTs with
  | zero => exact .inr ⟨rfl, rfl⟩
  | succ fuel ih =>
    unfold aggBuckets aggBucketsOut
    split
    · dsimp only
      split
      · exact ih _ _ _
      · rw [aggCell_unknown hfunc]
        exact .inl ⟨rfl, rfl⟩
    · exact .inr ⟨rfl, rfl⟩

theorem aggPointsOut_eq {points : List (Point V)} {start : Int}
    (hroom : (aggText fmt (aggPoints points start stop bucketSeconds func)).length + 64 <
      2 ^ 30) :
    aggPointsOut fmt points start stop bucketSeconds func =
      some (aggText fmt (aggPoints points start stop bucketSeconds func)) := by
  have hbooks : Books ⟨.new 2048, 0, 0⟩ := ⟨rfl, by decide⟩
  unfold aggPoints at hroom ⊢
  unfold aggPointsOut
  by_cases hfunc : func ∈ aggFunctions
  · obtain ⟨lines, hlines⟩ := @aggBuckets_known V _ _ _ _ _ _ (sortPoints points) stop
      bucketSeconds func hfunc (stop - start).toNat start 0 0
    rw [hlines] at hroom ⊢
    dsimp only [aggText] at hroom ⊢
    rw [List.length_append, List.length_cons] at hroom
    obtain ⟨s, hs, h, hcount, htext, hall⟩ := @aggBucketsOut_known V _ _ _ _ _ _ fmt _ _ _ _ hfunc
      _ _ _ _ _ hlines ⟨.new 2048, 0, 0⟩ hbooks le_rfl (by
        dsimp only
        omega)
    replace htext : s.buf.text = lines.flatMap (lineText fmt) := htext
    replace hall : s.count = lines.length := hall.trans (Nat.zero_add _)
    rw [hs, Option.bind_some]
    dsimp only
    rw [aggFooter_eq h hcount (by rw [h.length, htext]; omega), htext, hall]
  · obtain ⟨hnone, hout⟩ | ⟨hempty, hout⟩ := @aggBucketsOut_unknown V _ _ _ _ _ _ fmt
      (sortPoints points) stop bucketSeconds func hfunc (stop - start).toNat start 0 0
      ⟨.new 2048, 0, 0⟩
    · rw [hnone, hout]
      rfl
    · rw [hempty, hout, Option.bind_some]
      dsimp only
      rw [aggFooter_eq hbooks le_rfl (by decide)]
      rfl

end Lines

section Query

variable [Zero V] [Add V] [Div V] [NatCast V]

def aggCollectOut (dataDir metric : Text) (start stop bucketSeconds : Int) (s : Store V)
    (m : MetricState V) : Option (Option (PointArray V)) :=
  let disk :=
    if dataDir ≠ [] ∧ downsampleShouldUse s metric start stop bucketSeconds then
      let coarseDir := s.dirOf (downsampleCoarseDir metric)
      (collectCoarseFiles start stop coarseDir
        (coarseDir.chunks.keys.filter fun name => ".chunk".toList <:+: name) .null).map some
    else collectRawChunks start stop m.dir m.entry.chunks .null
  disk.bind fun
    | none => some none
    | some a => (collectLoop start stop m.entry.head.points a).map some

def pointsInRange (dataDir metric : Text) (start stop bucketSeconds : Int) (s : Store V)
    (m : MetricState V) : List (Point V) :=
  (if dataDir ≠ [] ∧ downsampleShouldUse s metric start stop bucketSeconds then
    collectCoarse start stop (s.dirOf (downsampleCoarseDir metric))
  else bucketPoints start stop (m.entry.chunks.flatMap (chunkPoints m.dir))) ++
    collectPointsFromHead start stop m.entry.head

variable {dataDir metric : Text} {start stop bucketSeconds : Int}

omit [Zero V] [Add V] [Div V] [NatCast V] in
theorem aggCollectOut_eq {s : Store V} {m : MetricState V}
    (hroom : (pointsInRange dataDir metric start stop bucketSeconds s m).length ≤ 2 ^ 30) :
    match aggCollect dataDir metric start stop bucketSeconds s m with
    | none => aggCollectOut dataDir metric start stop bucketSeconds s m = some none
    | some points => ∃ a, aggCollectOut dataDir metric start stop bucketSeconds s m =
      some (some a) ∧ a.points = points := by
  have hhead {a : PointArray V} (h : Doubled a) (hfits : a.points.length +
      (collectPointsFromHead start stop m.entry.head).length ≤ 2 ^ 30) :
      ∃ a', (collectLoop start stop m.entry.head.points a).map some = some (some a') ∧
        a'.points = a.points ++ collectPointsFromHead start stop m.entry.head := by
    obtain ⟨a', ha', hpoints, -⟩ := collectLoop_eq h hfits
    exact ⟨a', by rw [ha']; rfl, hpoints⟩
  unfold pointsInRange at hroom
  unfold aggCollect aggCollectOut
  rw [List.length_append] at hroom
  dsimp only
  by_cases hcoarse : dataDir ≠ [] ∧ downsampleShouldUse s metric start stop bucketSeconds
  · rw [if_pos hcoarse] at hroom
    rw [if_pos hcoarse, if_pos hcoarse]
    obtain ⟨a, ha, hpoints, h⟩ := @collectCoarseFiles_eq V start stop
      (s.dirOf (downsampleCoarseDir metric)) ((s.dirOf
        (downsampleCoarseDir metric)).chunks.keys.filter fun name => ".chunk".toList <:+: name)
      .null doubled_null ((Nat.zero_add _).trans_le (Nat.le_of_add_right_le hroom))
    obtain ⟨a', ha', hpoints'⟩ := hhead h (by rw [hpoints]; exact hroom)
    exact ⟨a', by rw [ha]; exact ha', hpoints'.trans (by rw [hpoints]; rfl)⟩
  · rw [if_neg hcoarse] at hroom
    rw [if_neg hcoarse, if_neg hcoarse]
    have hstart : rawFrom start stop m.dir m.entry.chunks (PointArray.null : PointArray V).points =
        collectRaw start stop m := rfl
    have hchunks := @collectRawChunks_eq V start stop m.dir m.entry.chunks .null doubled_null
      ((Nat.zero_add _).trans_le (Nat.le_of_add_right_le hroom))
    rw [hstart] at hchunks
    cases hraw : collectRaw start stop m with
    | none =>
      rw [hraw] at hchunks
      dsimp only at hchunks
      rw [hchunks]
      rfl
    | some points =>
      rw [hraw] at hchunks
      obtain ⟨a, ha, rfl, h, hle⟩ := hchunks
      obtain ⟨a', ha', hpoints'⟩ := hhead h
        ((Nat.add_le_add_right (hle.trans_eq (Nat.zero_add _)) _).trans hroom)
      exact ⟨a', by rw [ha]; exact ha', hpoints'⟩

/-- `Head_AGG` as a whole; `none` is an overflow or a write behind the end of a buffer. -/
def headAggOut [LT V] [DecidableLT V] (fmt : V → Text) (dataDir metric : Text)
    (start stop bucketSeconds : Int) (func : Text) (s : Store V) : Option Text :=
  if bucketSeconds ≤ 0 ∨ stop ≤ start then some "ERR invalid range or bucket\n".toList
  else
    match hashFindStr metric s with
    | none => some "(0 buckets)\n".toList
    | some m =>
      (aggCollectOut dataDir metric start stop bucketSeconds s m).bind fun
        | none => some "ERR disk read\n".toList
        | some a =>
          if a.points = [] then some "(0 buckets)\n".toList
          else aggPointsOut fmt (sortPoints a.points) start stop bucketSeconds func

omit [Zero V] [Add V] [Div V] [NatCast V] in
theorem aggText_nil (fmt : V → Text) :
    "(0 buckets)\n".toList = aggText fmt (.lines ([] : List (Line V))) := by
  have hfooter : "(0 buckets)\n".toList = '(' :: (decimal 0 ++ " buckets)\n".toList) := by decide
  exact hfooter

/-- Up to 2 ^ 30 points in the range and 2 ^ 30 bytes of answer, array and buffer hold what
`Head_AGG` puts into them. -/
theorem headAggOut_text [LT V] [DecidableLT V] (fmt : V → Text) (dataDir metric : Text)
    (start stop bucketSeconds : Int) (func : Text) (s : Store V)
    (hpoints : ∀ m, hashFindStr metric s = some m →
      (pointsInRange dataDir metric start stop bucketSeconds s m).length ≤ 2 ^ 30)
    (htext : (aggText fmt (headAgg dataDir metric start stop bucketSeconds func s)).length + 64 <
      2 ^ 30) :
    headAggOut fmt dataDir metric start stop bucketSeconds func s =
      some (aggText fmt (headAgg dataDir metric start stop bucketSeconds func s)) := by
  unfold headAgg at htext ⊢
  unfold headAggOut
  by_cases hinvalid : bucketSeconds ≤ 0 ∨ stop ≤ start
  · rw [if_pos hinvalid, if_pos hinvalid]
    rfl
  rw [if_neg hinvalid] at htext ⊢
  rw [if_neg hinvalid]
  cases hm : hashFindStr metric s with
  | none => exact congrArg some (aggText_nil fmt)
  | some m =>
    rw [hm] at htext
    have hcollect := aggCollectOut_eq (hpoints m hm)
    dsimp only at htext ⊢
    cases hall : aggCollect dataDir metric start stop bucketSeconds s m with
    | none =>
      rw [hall] at hcollect
      dsimp only at hcollect
      rw [hcollect]
      rfl
    | some points =>
      rw [hall] at hcollect htext
      obtain ⟨a, ha, rfl⟩ := hcollect
      rw [ha, Option.bind_some]
      dsimp only at htext ⊢
      by_cases hempty : a.points = []
      · rw [if_pos hempty, if_pos hempty]
        exact congrArg some (aggText_nil fmt)
      · rw [if_neg hempty] at htext ⊢
        rw [if_neg hempty]
        exact aggPointsOut_eq htext

def twoInHead : Store ℤ :=
  Store.empty.set ['m'] ⟨⟨⟨[⟨60, 1⟩, ⟨61, 2⟩], 61⟩, [], 4⟩, Dir.empty⟩

end Query

end Tsdb.AggBuffer
