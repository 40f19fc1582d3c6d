import Tsdb.Buckets
import Tsdb.Checked
import Tsdb.Downsample

namespace Tsdb.BucketRange

open CStrings Head Files Registry Query Aggregate Downsample Buckets Checked

variable {V : Type}

def longAdd (a b : Int) : Option Int := checked 63 (a + b)

def longSub (a b : Int) : Option Int := checked 63 (a - b)

def downsampleShouldUseLong (s : Store V) (metric : Text) (start stop bucketSeconds : Int) :
    Option Bool :=
  (longSub stop start).map fun range =>
    !(range < downsampleAfterSeconds) && !(bucketSeconds < coarseBucketSeconds) &&
      (s.dirOf (downsampleCoarseDir metric)).present

/-- How the bucket loop ends: the rounds it began, and its lines unless it met an unknown
function. -/
structure Loop (V : Type) where
  rounds : Nat
  lines : Option (List (Line V))
  deriving DecidableEq, Repr

def Loop.after (line : List (Line V)) (loop : Loop V) : Loop V :=
  ⟨loop.rounds + 1, loop.lines.map (line ++ ·)⟩

section Arithmetic

variable [Zero V] [Add V] [Div V] [NatCast V] [LT V] [DecidableLT V]

def aggLoop (points : List (Point V)) (stop bucketSeconds : Int) (func : Text) :
    Nat → Int → Nat → Int → Option (Loop V)
  | 0, _, _, _ => some ⟨0, some []⟩
  | fuel + 1, bstart, distinctCount, prevTs =>
    if bstart < stop then do
      let bend ← longAdd bstart bucketSeconds
      let acc := aggBucket bstart bend points (.start distinctCount prevTs)
      if acc.count = 0 then
        let next ← longAdd bstart bucketSeconds
        let loop ← aggLoop points stop bucketSeconds func fuel next acc.distinctCount acc.prevTs
        some (loop.after [])
      else
        match aggCell func acc with
        | none => some ⟨1, none⟩
        | some cell =>
          let next ← longAdd bstart bucketSeconds
          let loop ← aggLoop points stop bucketSeconds func fuel next acc.distinctCount acc.prevTs
          some (loop.after [⟨bstart, bend, cell⟩])
    else some ⟨0, some []⟩

def aggPointsLong (points : List (Point V)) (start stop bucketSeconds : Int) (func : Text) :
    Option (AggAnswer V) :=
  (aggLoop (sortPoints points) stop bucketSeconds func (stop - start).toNat start 0 0).map
    fun loop =>
      match loop.lines with
      | some lines => .lines lines
      | none => .error "ERR invalid func\n".toList

def bucketCount (bstart stop bucketSeconds : Int) : Nat :=
  ((stop - bstart + bucketSeconds - 1) / bucketSeconds).toNat

def lastEnd (bstart stop bucketSeconds : Int) : Int :=
  bstart + bucketCount bstart stop bucketSeconds * bucketSeconds

end Arithmetic

section Count

variable {bstart stop bucketSeconds : Int}

theorem bucketCount_cast (h : bstart < stop) (hpos : 0 < bucketSeconds) :
    (bucketCount bstart stop bucketSeconds : Int) =
      (stop - bstart + bucketSeconds - 1) / bucketSeconds := by
  apply Int.toNat_of_nonneg
  apply Int.ediv_nonneg
  · omega
  · exact hpos.le

theorem bucketCount_zero (h : stop ≤ bstart) (hpos : 0 < bucketSeconds) :
    bucketCount bstart stop bucketSeconds = 0 := by
  have hlt : (stop - bstart + bucketSeconds - 1) / bucketSeconds < 1 :=
    (Int.ediv_lt_iff_lt_mul hpos).mpr (by omega)
  unfold bucketCount
  omega

theorem bucketCount_succ (h : bstart < stop) (hpos : 0 < bucketSeconds) :
    bucketCount bstart stop bucketSeconds =
      bucketCount (bstart + bucketSeconds) stop bucketSeconds + 1 := by
  have hsplit : stop - bstart + bucketSeconds - 1 =
      (stop - (bstart + bucketSeconds) + bucketSeconds - 1) + bucketSeconds := by ring
  have hnonneg : 0 ≤ (stop - (bstart + bucketSeconds) + bucketSeconds - 1) / bucketSeconds :=
    Int.ediv_nonneg (by omega) hpos.le
  unfold bucketCount
  rw [hsplit, Int.add_ediv_of_dvd_right (dvd_refl _), Int.ediv_self hpos.ne']
  omega

theorem bucketCount_ceil (h : bstart < stop) (hpos : 0 < bucketSeconds) :
    (bucketCount bstart stop bucketSeconds : Int) =
      ⌈((stop - bstart : Int) : ℚ) / (bucketSeconds : ℚ)⌉ := by
  have hposq : (0 : ℚ) < bucketSeconds := by exact_mod_cast hpos
  have hle := Int.ediv_mul_le (stop - bstart + bucketSeconds - 1) hpos.ne'
  have hlt := Int.lt_ediv_add_one_mul_self (stop - bstart + bucketSeconds - 1) hpos
  rw [bucketCount_cast h hpos, eq_comm, Int.ceil_eq_iff, lt_div_iff₀ hposq, div_le_iff₀ hposq]
  generalize (stop - bstart + bucketSeconds - 1) / bucketSeconds = count at hle hlt
  constructor
  · have : (count - 1) * bucketSeconds < stop - bstart := by linarith
    exact_mod_cast this
  · have : stop - bstart ≤ count * bucketSeconds := by linarith
    exact_mod_cast this

theorem bucketCount_le (hpos : 0 < bucketSeconds) :
    bucketCount bstart stop bucketSeconds ≤ (stop - bstart).toNat := by
  rcases Int.lt_or_le bstart stop with h | h
  · have hcast := bucketCount_cast h hpos
    have hle : (stop - bstart + bucketSeconds - 1) / bucketSeconds ≤ stop - bstart := by
      apply Int.ediv_le_of_le_mul hpos
      nlinarith
    omega
  · rw [bucketCount_zero h hpos]
    exact Nat.zero_le _

theorem lastEnd_step (h : bstart < stop) (hpos : 0 < bucketSeconds) :
    lastEnd (bstart + bucketSeconds) stop bucketSeconds = lastEnd bstart stop bucketSeconds := by
  unfold lastEnd
  rw [bucketCount_succ h hpos]
  push_cast
  ring

theorem le_lastEnd (hpos : 0 < bucketSeconds) : bstart ≤ lastEnd bstart stop bucketSeconds := by
  unfold lastEnd
  have : 0 ≤ (bucketCount bstart stop bucketSeconds : Int) * bucketSeconds := by positivity
  omega

theorem longAdd_step (hlow : -2 ^ 63 ≤ bstart) (h : bstart < stop) (hpos : 0 < bucketSeconds)
    (hend : lastEnd bstart stop bucketSeconds < 2 ^ 63) :
    longAdd bstart bucketSeconds = some (bstart + bucketSeconds) := by
  have hle : bstart + bucketSeconds ≤ lastEnd (bstart + bucketSeconds) stop bucketSeconds :=
    le_lastEnd hpos
  rw [lastEnd_step h hpos] at hle
  exact checked_inBits ⟨by omega, by omega⟩

theorem lt_of_lastEnd (hpos : 0 < bucketSeconds) (hlong : InBits 63 bstart)
    (hend : ¬ lastEnd bstart stop bucketSeconds < 2 ^ 63) : bstart < stop := by
  by_contra hge
  rw [lastEnd, bucketCount_zero (not_lt.mp hge) hpos] at hend
  exact hend (by simpa using hlong.2)

end Count

section Arithmetic

variable [Zero V] [Add V] [Div V] [NatCast V] [LT V] [DecidableLT V]

theorem aggLoop_inside (points : List (Point V)) {stop bucketSeconds : Int}
    (hpos : 0 < bucketSeconds) (func : Text) (fuel : Nat) {bstart : Int} (distinctCount : Nat)
    (prevTs : Int) (hlow : -2 ^ 63 ≤ bstart) (hend : lastEnd bstart stop bucketSeconds < 2 ^ 63) :
    ∃ rounds, aggLoop points stop bucketSeconds func fuel bstart distinctCount prevTs =
        some ⟨rounds, aggBuckets points stop bucketSeconds func fuel bstart distinctCount prevTs⟩ ∧
      (func ∈ aggFunctions → bucketCount bstart stop bucketSeconds ≤ fuel →
        rounds = bucketCount bstart stop bucketSeconds) := by
  induction fuel generalizing bstart distinctCount prevTs with
  | zero => exact ⟨0, rfl, fun _ hfuel => (Nat.le_zero.mp hfuel).symm⟩
  | succ fuel ih =>
    unfold aggLoop aggBuckets
    by_cases hlt : bstart < stop
    · rw [if_pos hlt, if_pos hlt, longAdd_step hlow hlt hpos hend, bucketCount_succ hlt hpos]
      dsimp only [Option.bind_eq_bind, Option.bind_some]
      generalize aggBucket bstart (bstart + bucketSeconds) points (.start distinctCount prevTs) = acc
      obtain ⟨rounds, hloop, hrounds⟩ := @ih (bstart + bucketSeconds) acc.distinctCount acc.prevTs
        (by omega) (by rwa [lastEnd_step hlt hpos])
      rw [hloop]
      by_cases hempty : acc.count = 0
      · rw [if_pos hempty, if_pos hempty]
        refine ⟨rounds + 1, ?_, fun hfunc hfuel => ?_⟩
        · simp [Loop.after]
        · rw [hrounds hfunc (by omega)]
      · rw [if_neg hempty, if_neg hempty]
        cases hcell : aggCell func acc with
        | none =>
          refine ⟨1, rfl, fun hfunc _ => ?_⟩
          obtain ⟨cell, hknown⟩ := aggCell_known hfunc acc
          rw [hcell] at hknown
          cases hknown
        | some cell =>
          refine ⟨rounds + 1, ?_, fun hfunc hfuel => ?_⟩
          · simp [Loop.after]
          · rw [hrounds hfunc (by omega)]
    · rw [if_neg hlt, if_neg hlt]
      exact ⟨0, rfl, fun _ _ => (bucketCount_zero (not_lt.mp hlt) hpos).symm⟩

theorem aggLoop_overflow (points : List (Point V)) {stop bucketSeconds : Int}
    (hpos : 0 < bucketSeconds) {func : Text} (hfunc : func ∈ aggFunctions) {fuel : Nat}
    {bstart : Int} (distinctCount : Nat) (prevTs : Int) (hlong : InBits 63 bstart)
    (hend : ¬ lastEnd bstart stop bucketSeconds < 2 ^ 63)
    (hfuel : bucketCount bstart stop bucketSeconds ≤ fuel) :
    aggLoop points stop bucketSeconds func fuel bstart distinctCount prevTs = none := by
  induction fuel generalizing bstart distinctCount prevTs with
  | zero =>
    have := bucketCount_succ (lt_of_lastEnd hpos hlong hend) hpos
    omega
  | succ fuel ih =>
    have hlt := lt_of_lastEnd hpos hlong hend
    unfold aggLoop
    rw [if_pos hlt]
    by_cases hbend : InBits 63 (bstart + bucketSeconds)
    · rw [longAdd, checked_inBits hbend]
      dsimp only [Option.bind_eq_bind, Option.bind_some]
      generalize aggBucket bstart (bstart + bucketSeconds) points (.start distinctCount prevTs) = acc
      rw [bucketCount_succ hlt hpos] at hfuel
      rw [← lastEnd_step hlt hpos] at hend
      rw [ih acc.distinctCount acc.prevTs hbend hend (by omega)]
      obtain ⟨cell, hcell⟩ := aggCell_known hfunc acc
      rw [hcell]
      split <;> rfl
    · rw [longAdd, checked_overflow hbend]
      rfl

def aggCollectLong (dataDir metric : Text) (start stop bucketSeconds : Int) (s : Store V)
    (m : MetricState V) : Option (Option (List (Point V))) := do
  let useCoarse ← if dataDir = [] then some false
    else downsampleShouldUseLong s metric start stop bucketSeconds
  let disk :=
    if useCoarse then some (collectCoarse start stop (s.dirOf (downsampleCoarseDir metric)))
    else collectRaw start stop m
  some (disk.map (· ++ collectPointsFromHead start stop m.entry.head))

def headAggLong (dataDir metric : Text) (start stop bucketSeconds : Int) (func : Text)
    (s : Store V) : Option (AggAnswer V) :=
  if bucketSeconds ≤ 0 ∨ stop ≤ start then
    some (.error "ERR invalid range or bucket\n".toList)
  else
    match hashFindStr metric s with
    | none => some (.lines [])
    | some m => do
      match ← aggCollectLong dataDir metric start stop bucketSeconds s m with
      | none => some (.error "ERR disk read\n".toList)
      | some points =>
        if points = [] then some (.lines [])
        else aggPointsLong (sortPoints points) start stop bucketSeconds func

def Inside (start stop bucketSeconds : Int) : Prop :=
  stop - start < 2 ^ 63 ∧ lastEnd start stop bucketSeconds < 2 ^ 63

omit [Zero V] [Add V] [Div V] [NatCast V] [LT V] [DecidableLT V] in
theorem downsampleShouldUseLong_inside (s : Store V) (metric : Text) {start stop : Int}
    (bucketSeconds : Int) (hlt : start < stop) (h : stop - start < 2 ^ 63) :
    downsampleShouldUseLong s metric start stop bucketSeconds =
      some (downsampleShouldUse s metric start stop bucketSeconds) := by
  rw [downsampleShouldUseLong, longSub, checked_inBits ⟨by omega, h⟩]
  rfl

theorem aggPointsLong_inside (points : List (Point V)) {start stop bucketSeconds : Int}
    (hpos : 0 < bucketSeconds) (func : Text) (hlow : -2 ^ 63 ≤ start)
    (hend : lastEnd start stop bucketSeconds < 2 ^ 63) :
    aggPointsLong points start stop bucketSeconds func =
      some (aggPoints points start stop bucketSeconds func) := by
  obtain ⟨rounds, hloop, _⟩ := aggLoop_inside (sortPoints points) hpos func (stop - start).toNat 0 0
    hlow hend
  unfold aggPointsLong aggPoints
  generalize aggBuckets (sortPoints points) stop bucketSeconds func (stop - start).toNat start 0 0 =
    lines at hloop ⊢
  rw [hloop]
  cases lines with
  | none => rfl
  | some lines => rfl

theorem headAggLong_inside (dataDir metric : Text) {start stop bucketSeconds : Int} (func : Text)
    (s : Store V) (hlow : -2 ^ 63 ≤ start) (h : Inside start stop bucketSeconds) :
    headAggLong dataDir metric start stop bucketSeconds func s =
      some (headAgg dataDir metric start stop bucketSeconds func s) := by
  unfold headAggLong headAgg
  by_cases hvalid : bucketSeconds ≤ 0 ∨ stop ≤ start
  · rw [if_pos hvalid, if_pos hvalid]
  rw [if_neg hvalid, if_neg hvalid]
  cases hashFindStr metric s with
  | none => rfl
  | some m =>
    have hcollect : aggCollectLong dataDir metric start stop bucketSeconds s m =
        some (aggCollect dataDir metric start stop bucketSeconds s m) := by
      unfold aggCollectLong aggCollect
      rw [downsampleShouldUseLong_inside s metric bucketSeconds (by omega) h.1]
      by_cases hdir : dataDir = [] <;> simp [hdir]
    dsimp only
    rw [hcollect]
    dsimp only [Option.bind_eq_bind, Option.bind_some]
    cases aggCollect dataDir metric start stop bucketSeconds s m with
    | none => rfl
    | some points =>
      dsimp only
      rw [aggPointsLong_inside (sortPoints points) (by omega) func hlow h.2]
      split <;> rfl

/-- What is promised of the arithmetic of a query with a known function. -/
def StaysInRange (s : Store V) (metric : Text) (points : List (Point V)) (func : Text)
    (start stop bucketSeconds : Int) : Prop :=
  downsampleShouldUseLong s metric start stop bucketSeconds ≠ none ∧
    ∃ loop, aggLoop (sortPoints points) stop bucketSeconds func (stop - start).toNat start 0 0 =
        some loop ∧
      (loop.rounds : Int) = ⌈((stop - start : Int) : ℚ) / (bucketSeconds : ℚ)⌉

/-- The arithmetic of a query stays in range exactly when the length of the range and the end of
the last bucket are of type `long`. -/
theorem staysInRange_iff (s : Store V) (metric : Text) (points : List (Point V)) {func : Text}
    (hfunc : func ∈ aggFunctions) {start stop bucketSeconds : Int} (hstart : InBits 63 start)
    (hlt : start < stop) (hpos : 0 < bucketSeconds) :
    StaysInRange s metric points func start stop bucketSeconds ↔
      Inside start stop bucketSeconds := by
  constructor
  · rintro ⟨hrange, loop, hloop, _⟩
    constructor
    · by_contra hbig
      apply hrange
      rw [downsampleShouldUseLong, longSub, checked_overflow fun h => hbig h.2]
      rfl
    · by_contra hend
      rw [aggLoop_overflow (sortPoints points) hpos hfunc 0 0 hstart hend
        (bucketCount_le hpos)] at hloop
      cases hloop
  · rintro ⟨hrange, hend⟩
    constructor
    · rw [downsampleShouldUseLong_inside s metric bucketSeconds hlt hrange]
      exact Option.some_ne_none _
    · obtain ⟨rounds, hloop, hrounds⟩ := aggLoop_inside (sortPoints points) hpos func
        (stop - start).toNat 0 0 hstart.1 hend
      refine ⟨_, hloop, ?_⟩
      dsimp only
      rw [hrounds hfunc (bucketCount_le hpos), bucketCount_ceil hlt hpos]

end Arithmetic

theorem staysInRange_iff_two_minutes :
    StaysInRange Store.empty ['m'] [⟨61, (5 : ℚ)⟩] "avg".toList 0 100 60 :=
  (staysInRange_iff Store.empty ['m'] [⟨61, (5 : ℚ)⟩] (by decide) (by decide) (by decide)
    (by decide)).mpr ⟨by decide, by decide⟩

/-- The last second of `long` is in a bucket that ends behind it. -/
theorem last_bucket_overflows : ¬ ∀ (s : Store ℚ) (metric : Text) (points : List (Point ℚ))
    (func : Text) (start stop bucketSeconds : Int), func ∈ aggFunctions → InBits 63 start →
      InBits 63 stop → start < stop → 0 < bucketSeconds → bucketSeconds < 2 ^ 31 →
      StaysInRange s metric points func start stop bucketSeconds := by
  intro h
  obtain ⟨_, loop, hloop, _⟩ := h Store.empty ['m'] [⟨2 ^ 63 - 8, 1⟩] "avg".toList (2 ^ 63 - 8)
    (2 ^ 63 - 1) 60 (by decide) (by decide) (by decide) (by decide) (by decide) (by decide)
  rw [aggLoop_overflow _ (by decide) (by decide) 0 0 (by decide) (by decide)
    (bucketCount_le (by decide))] at hloop
  cases hloop

end Tsdb.BucketRange
