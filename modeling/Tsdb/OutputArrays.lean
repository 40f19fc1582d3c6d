import Tsdb.BucketRange
import Tsdb.MinuteAverages
import Tsdb.StoredTimes

namespace Tsdb.OutputArrays

open Head Downsample Minutes Checked BucketRange Chunk ChunkCodec ChunkLossless StoredTimes
  Timestamp

/-- `max_buckets`; the conversion to `int` takes the number modulo 2 ^ 32. -/
def maxBuckets (ts : List Int) : Option Int := do
  let first ← ts.head?
  let last ← ts.getLast?
  let span ← longSub last first
  let range ← longAdd span coarseBucketSeconds
  checked 31 ((range.tdiv coarseBucketSeconds).bmod (2 ^ 32) + 1)

/-- The variables of `write_coarse_chunk` in the arithmetic of `long`, without the sums. -/
structure Output where
  outN : Nat
  bucketStart : Int
  bucketEnd : Int
  count : Nat
  deriving DecidableEq, Repr

def Output.emit (s : Output) : Output :=
  if 0 < s.count then { s with outN := s.outN + 1, count := 0 } else s

def Output.advance (ts : Int) : Nat → Output → Option Output
  | 0, s => some s
  | fuel + 1, s =>
    if s.bucketEnd ≤ ts then do
      let bucketEnd ← longAdd s.bucketEnd coarseBucketSeconds
      Output.advance ts fuel { s.emit with bucketStart := s.bucketEnd, bucketEnd := bucketEnd }
    else some s

def Output.add (s : Output) (ts : Int) : Option Output :=
  (s.advance ts (ts - s.bucketEnd + 1).toNat).map fun s => { s with count := s.count + 1 }

def outputCount : List Int → Option Nat
  | [] => some 0
  | first :: rest => do
    let bucketEnd ← longAdd (minuteStart first) coarseBucketSeconds
    let s ← (first :: rest).foldlM Output.add ⟨0, minuteStart first, bucketEnd, 0⟩
    some s.emit.outN

/-- The arrays are allocated with a positive size, and it is enough. -/
def Allocates (ts : List Int) : Prop :=
  ∃ size n, maxBuckets ts = some size ∧ outputCount ts = some n ∧ 0 < size ∧ (n : Int) ≤ size

/-- How many minutes after `minute` begin in the timestamps: a minute begins with a timestamp in it
when no earlier one was in it or behind it. -/
def minutesBegun (minute : Int) : List Int → Nat
  | [] => 0
  | t :: ts => if minute < t / 60 then minutesBegun (t / 60) ts + 1 else minutesBegun minute ts

def spanMinutes (first last : Int) : Int := (last - first + 60).tdiv 60

theorem minutesBegun_le {ts : List Int} {minute hi : Int} (hle : minute ≤ hi)
    (h : ∀ t ∈ ts, t / 60 ≤ hi) : (minutesBegun minute ts : Int) ≤ hi - minute := by
  induction ts generalizing minute with
  | nil => simpa [minutesBegun] using hle
  | cons t ts ih =>
    have hrest := fun u hu => h u (List.mem_cons_of_mem t hu)
    have ht := h t (by simp)
    unfold minutesBegun
    split
    case isTrue hlt =>
      have := ih ht hrest
      push_cast
      omega
    case isFalse => exact ih hle hrest

theorem emit_emit (s : Output) : s.emit.emit = s.emit := by
  unfold Output.emit
  split <;> simp_all

/-- `bucket_end` is always a minute; the last one in a `long` is 2 ^ 63 - 8. -/
theorem advance_eq (ts : Int) (fuel : Nat) (s : Output) (haligned : s.bucketEnd % 60 = 0)
    (hlong : InBits 63 s.bucketEnd) (hfuel : (ts - s.bucketEnd + 1).toNat ≤ fuel) :
    s.advance ts fuel = if ts < s.bucketEnd then some s
      else if ts < 2 ^ 63 - 8 then
        some { s.emit with bucketStart := ts / 60 * 60, bucketEnd := ts / 60 * 60 + 60 }
      else none := by
  obtain ⟨hlow, hhigh⟩ := hlong
  induction fuel generalizing s with
  | zero =>
    rw [if_pos (by omega)]
    rfl
  | succ fuel ih =>
    unfold Output.advance coarseBucketSeconds
    by_cases hts : ts < s.bucketEnd
    · rw [if_neg (by omega), if_pos hts]
    rw [if_pos (by omega), if_neg hts]
    by_cases hnext : s.bucketEnd + 60 < 2 ^ 63
    case neg =>
      rw [longAdd, checked_overflow (fun h => hnext h.2), if_neg (by omega)]
      rfl
    rw [longAdd, checked_inBits ⟨by omega, hnext⟩, Option.bind_eq_bind, Option.bind_some,
      ih _ (by simp; omega) (by simp; omega) (by simp; omega) hnext]
    have hemit : ({ s.emit with bucketStart := s.bucketEnd, bucketEnd := s.bucketEnd + 60 } :
        Output).emit = { s.emit with bucketStart := s.bucketEnd, bucketEnd := s.bucketEnd + 60 } := by
      have := emit_emit s
      unfold Output.emit at this ⊢
      split <;> simp_all
    rw [hemit]
    dsimp only
    split
    case isTrue hlast =>
      have hminute : ts / 60 * 60 = s.bucketEnd := by omega
      rw [if_pos (by omega), hminute]
    case isFalse => rfl

structure InMinute (minute : Int) (s : Output) : Prop where
  start : s.bucketStart = 60 * minute
  stop : s.bucketEnd = 60 * minute + 60
  counted : 0 < s.count
  long : InBits 63 s.bucketEnd

section Step

variable {minute ts : Int} {s : Output}

theorem add_eq (h : InMinute minute s) :
    s.add ts = (if ts < s.bucketEnd then some s
      else if ts < 2 ^ 63 - 8 then
        some { s.emit with bucketStart := ts / 60 * 60, bucketEnd := ts / 60 * 60 + 60 }
      else none).map fun s => { s with count := s.count + 1 } := by
  have hstop := h.stop
  rw [Output.add, advance_eq ts _ s (by omega) h.long le_rfl]

theorem add_same (h : InMinute minute s) (hts : ¬ minute < ts / 60) :
    ∃ s', s.add ts = some s' ∧ InMinute minute s' ∧ s'.outN = s.outN := by
  have hstop := h.stop
  refine ⟨{ s with count := s.count + 1 }, ?_, ⟨h.start, hstop, Nat.succ_pos _, h.long⟩, rfl⟩
  rw [add_eq h, if_pos (by omega), Option.map_some]

theorem add_next (h : InMinute minute s) (hts : minute < ts / 60) (hlast : ts < 2 ^ 63 - 8) :
    ∃ s', s.add ts = some s' ∧ InMinute (ts / 60) s' ∧ s'.outN = s.outN + 1 := by
  have hstop := h.stop
  have hlong := h.long.1
  refine ⟨⟨s.outN + 1, ts / 60 * 60, ts / 60 * 60 + 60, 1⟩, ?_, ⟨by dsimp only; omega,
    by dsimp only; omega, Nat.one_pos, by dsimp only; omega, by dsimp only; omega⟩, rfl⟩
  rw [add_eq h, if_neg (by omega), if_pos hlast, Output.emit, if_pos h.counted, Option.map_some]

theorem add_overflow (h : InMinute minute s) (hlast : ¬ ts < 2 ^ 63 - 8) : s.add ts = none := by
  have hstop := h.stop
  have hlong := h.long.2
  rw [add_eq h, if_neg (by omega), if_neg hlast, Option.map_none]

end Step

/-- The loop over the later points: it overflows when one lies behind the last whole minute. -/
theorem foldlM_add {minute : Int} {s : Output} (h : InMinute minute s) (ts : List Int) :
    ((∀ t ∈ ts, t < 2 ^ 63 - 8) → ∃ s', ts.foldlM Output.add s = some s' ∧ 0 < s'.count ∧
        s'.outN = s.outN + minutesBegun minute ts) ∧
      (¬ (∀ t ∈ ts, t < 2 ^ 63 - 8) → ts.foldlM Output.add s = none) := by
  induction ts generalizing minute s with
  | nil =>
    constructor
    · exact fun _ => ⟨s, rfl, h.counted, rfl⟩
    · exact fun hlate => absurd (by simp) hlate
  | cons t ts ih =>
    rw [List.foldlM_cons, List.forall_mem_cons, minutesBegun]
    by_cases hlast : t < 2 ^ 63 - 8
    case neg =>
      rw [add_overflow h hlast]
      exact ⟨fun hall => absurd hall.1 hlast, fun _ => rfl⟩
    rw [and_iff_right hlast]
    by_cases hnext : minute < t / 60
    · obtain ⟨s₁, hadd, h₁, hout⟩ := add_next h hnext hlast
      obtain ⟨hin, hover⟩ := ih h₁
      rw [hadd, Option.bind_eq_bind, Option.bind_some, if_pos hnext]
      refine ⟨fun hall => ?_, hover⟩
      obtain ⟨s', hrun, hcount, hout'⟩ := hin hall
      exact ⟨s', hrun, hcount, by omega⟩
    · obtain ⟨s₁, hadd, h₁, hout⟩ := add_same h hnext
      obtain ⟨hin, hover⟩ := ih h₁
      rw [hadd, Option.bind_eq_bind, Option.bind_some, if_neg hnext, ← hout]
      exact ⟨hin, hover⟩

theorem outputCount_eq {first : Int} (rest : List Int) (hfirst : -2 ^ 63 ≤ first) :
    outputCount (first :: rest) = if ∀ t ∈ first :: rest, t < 2 ^ 63 - 8 then
      some (minutesBegun (first.tdiv 60) rest + 1) else none := by
  obtain ⟨haligned, hlt, hle, hnonneg⟩ := minuteStart_spec first
  have hminute : minuteStart first = 60 * first.tdiv 60 := Int.mul_comm _ _
  have hadd : longAdd (minuteStart first) coarseBucketSeconds =
      checked 63 (minuteStart first + 60) := rfl
  rw [outputCount, hadd]
  by_cases hend : InBits 63 (minuteStart first + 60)
  case neg =>
    have hlate : ¬ first < 2 ^ 63 - 8 := by
      intro hfirst'
      apply hend
      constructor
      · omega
      · rcases Int.le_total 0 first with h | h
        · have := hnonneg h
          omega
        · have : minuteStart first ≤ 0 := by
            rw [hminute]
            have hle := Int.tdiv_le_tdiv (by decide : (0 : Int) < 60) h
            rw [Int.zero_tdiv] at hle
            omega
          omega
    rw [checked_overflow hend, if_neg fun hall => hlate (hall first (by simp))]
    rfl
  have hfirst' : first < 2 ^ 63 - 8 := by
    have := hend.2
    omega
  have hstart : Output.add ⟨0, minuteStart first, minuteStart first + 60, 0⟩ first =
      some ⟨0, minuteStart first, minuteStart first + 60, 1⟩ := by
    have hfuel : (first - (minuteStart first + 60) + 1).toNat = 0 := by omega
    rw [Output.add, hfuel]
    rfl
  have hin : InMinute (first.tdiv 60) ⟨0, minuteStart first, minuteStart first + 60, 1⟩ :=
    ⟨hminute, by rw [hminute], Nat.one_pos, hend⟩
  obtain ⟨hrun, hover⟩ := foldlM_add hin rest
  rw [checked_inBits hend, Option.bind_eq_bind, Option.bind_some, List.foldlM_cons, hstart]
  simp only [Option.bind_eq_bind, Option.bind_some, List.forall_mem_cons, hfirst', true_and]
  split
  case isTrue hall =>
    obtain ⟨s', hs', hcount, hout⟩ := hrun hall
    rw [hs', Option.bind_some, Output.emit, if_pos hcount]
    dsimp only
    rw [hout, Nat.zero_add]
  case isFalse hlate =>
    rw [hover hlate]
    rfl

structure EnoughFrom (first : Int) (rest : List Int) (last : Int) : Prop where
  inLong : ∀ t ∈ first :: rest, t < 2 ^ 63 - 8
  span : -2 ^ 63 ≤ last - first ∧ last - first < 2 ^ 63 - 60
  inInt : spanMinutes first last % 2 ^ 32 < 2 ^ 31 - 1
  begun : (minutesBegun (first.tdiv 60) rest : Int) ≤ spanMinutes first last % 2 ^ 32

def Enough : List Int → Prop
  | [] => False
  | first :: rest => EnoughFrom first rest ((first :: rest).getLast (List.cons_ne_nil _ _))

theorem bmod_int {n : Int} (h : n % 2 ^ 32 < 2 ^ 31 - 1) : n.bmod (2 ^ 32) = n % 2 ^ 32 := by
  unfold Int.bmod
  norm_num at h ⊢
  omega

theorem bmod_positive_iff (n : Int) :
    0 < n.bmod (2 ^ 32) + 1 ∧ InBits 31 (n.bmod (2 ^ 32) + 1) ↔ n % 2 ^ 32 < 2 ^ 31 - 1 := by
  unfold InBits Int.bmod
  norm_num
  split <;> omega

theorem maxBuckets_positive_iff {first last size : Int} {ts : List Int}
    (hfirst : ts.head? = some first) (hlast : ts.getLast? = some last) :
    maxBuckets ts = some size ∧ 0 < size ↔
      (-2 ^ 63 ≤ last - first ∧ last - first < 2 ^ 63 - 60) ∧
        spanMinutes first last % 2 ^ 32 < 2 ^ 31 - 1 ∧
        size = spanMinutes first last % 2 ^ 32 + 1 := by
  rw [maxBuckets, hfirst, hlast]
  simp only [Option.bind_eq_bind, Option.bind_some]
  constructor
  · rintro ⟨h, hpos⟩
    obtain ⟨span, hspan, h⟩ := Option.bind_eq_some_iff.mp h
    obtain ⟨range, hrange, h⟩ := Option.bind_eq_some_iff.mp h
    obtain ⟨hspanLong, rfl⟩ := checked_eq_some.mp hspan
    obtain ⟨hrangeLong, rfl⟩ := checked_eq_some.mp hrange
    obtain ⟨hint, rfl⟩ := checked_eq_some.mp h
    have hmod := (bmod_positive_iff _).mp ⟨hpos, hint⟩
    have hupper : last - first + 60 < 2 ^ 63 := hrangeLong.2
    exact ⟨⟨hspanLong.1, by omega⟩, hmod, congrArg (· + 1) (bmod_int hmod)⟩
  · rintro ⟨⟨hlow, hhigh⟩, hmod, rfl⟩
    obtain ⟨hpos, hint⟩ := (bmod_positive_iff _).mpr hmod
    rw [bmod_int hmod] at hpos hint
    have hspan : longSub last first = some (last - first) :=
      checked_inBits ⟨hlow, by omega⟩
    have hrange : longAdd (last - first) coarseBucketSeconds = some (last - first + 60) :=
      checked_inBits ⟨by unfold coarseBucketSeconds; omega, by unfold coarseBucketSeconds; omega⟩
    refine ⟨?_, hpos⟩
    rw [hspan, Option.bind_some, hrange, Option.bind_some]
    change checked 31 ((spanMinutes first last).bmod (2 ^ 32) + 1) = _
    rw [bmod_int hmod, checked_inBits hint]

theorem allocates_iff {ts : List Int} (hlong : ∀ t ∈ ts, InBits 63 t) :
    Allocates ts ↔ Enough ts := by
  cases ts with
  | nil =>
    apply iff_of_false
    · rintro ⟨size, n, hsize, -⟩
      cases hsize
    · exact id
  | cons first rest =>
    have hsize (size : Int) := @maxBuckets_positive_iff first _ size (first :: rest) rfl
      (List.getLast?_eq_some_getLast (List.cons_ne_nil _ _))
    have hcount := outputCount_eq rest (hlong first (by simp)).1
    constructor
    · rintro ⟨size, n, hmax, hout, hpos, hle⟩
      obtain ⟨hspan, hint, rfl⟩ := (hsize size).mp ⟨hmax, hpos⟩
      rw [hcount] at hout
      split at hout
      case isFalse => cases hout
      case isTrue hin =>
        obtain rfl := Option.some.inj hout
        refine ⟨hin, hspan, hint, ?_⟩
        push_cast at hle
        omega
    · rintro ⟨hin, hspan, hint, hbegun⟩
      obtain ⟨hmax, hpos⟩ := (hsize _).mpr ⟨hspan, hint, rfl⟩
      refine ⟨_, _, hmax, hcount.trans (if_pos hin), hpos, ?_⟩
      push_cast
      omega

/-- With timestamps in order a range that fits an `int` of minutes is enough. -/
theorem enough_of_sorted {ts : List Int} (hne : ts ≠ []) (hsorted : ts.Pairwise (· ≤ ·))
    (hlast : ts.getLast hne < 2 ^ 63 - 8)
    (hrange : ts.getLast hne - ts.head hne < 60 * (2 ^ 31 - 2)) : Enough ts := by
  obtain ⟨first, rest, rfl⟩ := List.exists_cons_of_ne_nil hne
  have hle : ∀ t ∈ first :: rest, t ≤ (first :: rest).getLast hne := fun t ht =>
    hsorted.rel_getLast ht
  have hfirst := hle first (by simp)
  rw [List.head_cons] at hrange
  generalize hgetLast : (first :: rest).getLast hne = last at *
  have hminutes : spanMinutes first last = (last - first) / 60 + 1 := by
    rw [spanMinutes, Int.tdiv_eq_ediv_of_nonneg (by omega)]
    omega
  have hmod : spanMinutes first last % 2 ^ 32 = spanMinutes first last := by
    rw [hminutes]
    omega
  have hstart := (minuteStart_spec first).2.2.1
  have hminute : minuteStart first = 60 * first.tdiv 60 := Int.mul_comm _ _
  have hbegun := @minutesBegun_le rest (first.tdiv 60) (max (first.tdiv 60) (last / 60))
    (le_max_left _ _) fun t ht => by
      have := hle t (List.mem_cons_of_mem _ ht)
      omega
  change EnoughFrom first rest ((first :: rest).getLast hne)
  rw [hgetLast]
  refine ⟨fun t ht => (hle t ht).trans_lt hlast, ⟨by omega, by omega⟩, ?_, ?_⟩
  · rw [hmod, hminutes]
    omega
  · rw [hmod, hminutes]
    omega

section Coarse

variable {V : Type} [Zero V] [Add V] [Div V] [NatCast V]

structure Alongside (s : Output) (c : Coarse V) : Prop where
  outN : s.outN = c.out.length
  bucketStart : s.bucketStart = c.bucketStart
  bucketEnd : s.bucketEnd = c.bucketStart + 60
  count : s.count = c.count
  aligned : c.bucketStart % 60 = 0
  long : InBits 63 s.bucketEnd

omit [Add V] in
theorem emit_alongside {s : Output} {c : Coarse V} (hout : s.outN = c.out.length)
    (hcount : s.count = c.count) :
    s.emit.outN = c.emit.out.length ∧ s.emit.count = c.emit.count := by
  unfold Output.emit Coarse.emit
  rw [hcount]
  split
  · exact ⟨by simp [hout], rfl⟩
  · exact ⟨hout, hcount⟩

theorem add_alongside {s s' : Output} {c : Coarse V} (h : Alongside s c) {p : Point V}
    (hadd : s.add p.ts = some s') : Alongside s' (c.add p) := by
  obtain ⟨hout, hstart, hend, hcount, haligned, hlong⟩ := h
  rw [Output.add, advance_eq p.ts _ s (by omega) hlong le_rfl] at hadd
  obtain ⟨s₁, hs₁, rfl⟩ := Option.map_eq_some_iff.mp hadd
  rw [Coarse.add, Minutes.advance_eq p.ts _ c haligned le_rfl]
  split at hs₁
  case isTrue hin =>
    obtain rfl := Option.some.inj hs₁
    rw [if_pos (by omega)]
    exact ⟨hout, hstart, hend, congrArg (· + 1) hcount, haligned, hlong⟩
  case isFalse hnext =>
    split at hs₁
    case isFalse => cases hs₁
    case isTrue hlast =>
      obtain rfl := Option.some.inj hs₁
      obtain ⟨hout', hcount'⟩ := emit_alongside hout hcount
      have hlow := hlong.1
      rw [if_neg (by omega)]
      exact ⟨hout', rfl, rfl, congrArg (· + 1) hcount', by dsimp only; omega,
        by dsimp only; omega, by dsimp only; omega⟩

theorem outputCount_coarse {points : List (Point V)} {n : Nat}
    (h : outputCount (points.map Point.ts) = some n) : (coarsePoints points).length = n := by
  have hrun (rest : List (Point V)) {s s' : Output} {c : Coarse V} (hs : Alongside s c)
      (hfold : (rest.map Point.ts).foldlM Output.add s = some s') :
      Alongside s' (rest.foldl Coarse.add c) := by
    induction rest generalizing s c with
    | nil =>
      obtain rfl := Option.some.inj hfold
      exact hs
    | cons p rest ih =>
      rw [List.map_cons, List.foldlM_cons] at hfold
      obtain ⟨s₁, hadd, hfold⟩ := Option.bind_eq_some_iff.mp hfold
      exact ih (add_alongside hs hadd) hfold
  cases points with
  | nil => exact Option.some.inj h
  | cons first rest =>
    obtain ⟨bucketEnd, hend, hloop⟩ := Option.bind_eq_some_iff.mp h
    obtain ⟨hlong, rfl⟩ := checked_eq_some.mp hend
    obtain ⟨s, hfold, hout⟩ := Option.bind_eq_some_iff.mp hloop
    have hs := hrun (first :: rest) (c := ⟨[], minuteStart first.ts, 0, 0⟩)
      ⟨rfl, rfl, rfl, rfl, (minuteStart_spec first.ts).1, hlong⟩ hfold
    rw [← Option.some.inj hout]
    exact (emit_alongside hs.outN hs.count).1.symm

end Coarse

/-- `write_coarse_chunk` gets the points of the chunk file, and its arrays are large enough. -/
def Sized (file : ChunkBytes) : Prop :=
  ∃ points, decompressAll file = some points ∧ Allocates (points.map fun p => p.1.toInt)

section Chunk

variable {chunkId : BitVec 32} {head : HeadBlock (BitVec 64)} {file : ChunkBytes}

theorem sized_allocates (hroom : head.points.length ≤ headCapacity)
    (hfile : flushToChunk chunkId (wordPoints head) = some file) :
    Sized file ↔ Allocates (stored (head.points.map Point.ts)) := by
  obtain ⟨points, hread, hstored⟩ := decompress_head hroom hfile
  rw [← hstored]
  constructor
  · rintro ⟨points', hread', hsized⟩
    cases hread.symm.trans hread'
    exact hsized
  · exact fun hsized => ⟨points, hread, hsized⟩

/-- Where the chunk keeps the timestamps as they are, a range of less than 2 ^ 31 - 2 minutes is
all it takes. -/
theorem sized_of_fitting (hroom : head.points.length ≤ headCapacity)
    (hfile : flushToChunk chunkId (wordPoints head) = some file)
    (hlong : ∀ t ∈ head.points.map Point.ts, InBits 63 t)
    (hsorted : head.points.Pairwise fun p q => p.ts ≤ q.ts)
    (hfits : FitsFields ((head.points.map Point.ts).map (BitVec.ofInt 64)))
    (hne : head.points.map Point.ts ≠ [])
    (hlast : (head.points.map Point.ts).getLast hne < 2 ^ 63 - 8)
    (hrange : (head.points.map Point.ts).getLast hne - (head.points.map Point.ts).head hne <
      60 * (2 ^ 31 - 2)) : Sized file := by
  rw [sized_allocates hroom hfile, stored_eq_self hlong hfits, allocates_iff hlong]
  exact enough_of_sorted hne (List.pairwise_map.mpr hsorted) hlast hrange

/-- For the chunk of any head the arrays are large enough just when they are for the timestamps
that the chunk has kept. -/
theorem sized_iff (hroom : head.points.length ≤ headCapacity)
    (hfile : flushToChunk chunkId (wordPoints head) = some file) :
    Sized file ↔ Enough (stored (head.points.map Point.ts)) :=
  (sized_allocates hroom hfile).trans (allocates_iff (stored_inBits _))

end Chunk

theorem sized_iff_two_minutes :
    ∃ file, flushToChunk 0 (wordPoints ⟨[⟨0, 0⟩, ⟨60, 0⟩], 60⟩) = some file ∧ Sized file := by
  have hroom : (⟨[⟨0, 0⟩, ⟨60, 0⟩], 60⟩ : HeadBlock (BitVec 64)).points.length ≤ headCapacity := by
    decide
  refine ⟨_, rfl, (sized_iff hroom rfl).mpr ?_⟩
  have hstored : stored [0, 60] = [0, 60] := by decide
  change Enough (stored [0, 60])
  rw [hstored]
  exact ⟨by decide, by decide, by decide, by decide⟩

/-- The gap of 8192 comes back as -8192, and the size is -134. -/
theorem gap_makes_size_negative : ∃ file, flushToChunk 0 (wordPoints
      (putValue (putValue (getNewHeadBlock 0) ⟨0, 0⟩).2 ⟨8192, 0⟩).2) = some file ∧
    ¬ Sized file := by
  have hroom : (putValue (putValue (getNewHeadBlock 0 : HeadBlock (BitVec 64)) ⟨0, 0⟩).2
      ⟨8192, 0⟩).2.points.length ≤ headCapacity := by decide
  refine ⟨_, rfl, fun hsized => ?_⟩
  obtain ⟨size, n, hsize, -, hpos, -⟩ := (sized_allocates hroom rfl).mp hsized
  have hnegative : maxBuckets (stored [0, 8192]) = some (-134) := by decide
  cases hnegative.symm.trans hsize
  cases hpos

end Tsdb.OutputArrays
