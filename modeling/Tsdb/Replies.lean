import Tsdb.AggBuffer
import Tsdb.BucketRange
import Tsdb.RowBooks
import Tsdb.Server

namespace Tsdb.Replies

open CStrings CStrings.TextBuffer Head Files Registry Sections Service Disk Query GetAnswer GetSize
  RowBooks Aggregate Buckets BucketLines BucketRange Downsample Checked WalBytes Server Outcomes

variable {V : Type}

/-- `decompressChunk` with its capacity of type `int`. -/
def decompressInt (fmt : V → Text) (start stop : Int) (data : ChunkData V) :
    Option (Text × Nat) :=
  (data.points.foldlM (fun s p => if InRange start stop p then chunkStep fmt p s else some s)
    (⟨.new 1024, 0, 0⟩ : Rows)).map fun s => (s.buf.text, s.count)

/-- One round of the chunk loop of `Head_GET`, whose `*size`, `current_len` and `capacity` are of
type `int`. -/
def getChunkInt (fmt : V → Text) (start stop : Int) (dir : Dir V) (a : Answer)
    (chunk : ChunkMetadata) : Option Answer :=
  if chunk.startTs ≤ stop ∧ start ≤ chunk.endTs then
    match chunkRead dir chunk.filename with
    | none => some a
    | some data => (decompressInt fmt start stop data).bind fun disk =>
      let len := a.currentLen + disk.1.length
      if a.size + disk.2 < 2 ^ 31 ∧ len + 1 < 2 ^ 31 ∧
          (a.result.capacity < len + 1 → len + 2048 < 2 ^ 31) then appendDisk a disk
      else none
  else some a

/-- `Head_GET` with its lengths of type `int`. A head has at most 50000 rows of 32 characters, so
the lengths of `GET_value` are no matter. -/
def getInt (fmt : V → Text) (start stop : Int) (m : MetricState V) : Option (Text × Nat) :=
  (m.entry.chunks.foldlM (getChunkInt fmt start stop m.dir) ⟨.new 2048, 0, 0⟩).bind fun a =>
    (getValue fmt start stop m.entry.head).bind fun ram =>
      if a.size + ram.2 < 2 ^ 31 ∧ a.currentLen + ram.1.length + 1 < 2 ^ 31 then getFinish a ram
      else none

section Arithmetic

variable [Zero V] [Add V] [Div V] [NatCast V] [LT V] [DecidableLT V]

/-- `handleAGG`, once in the arithmetic of `long` and once with its array and its buffer. -/
def handleAggInt (fmts : Formats V) (registryDir : Text) (request : Request V) (s : Store V) :
    Option Text :=
  if request.bucketSeconds ≤ 0 then some "ERR invalid bucket_seconds\n".toList
  else (headAggLong registryDir request.metric request.startTimeStamp request.endTimeStamp
    request.bucketSeconds request.func s).bind fun _ =>
      AggBuffer.headAggOut fmts.six registryDir request.metric request.startTimeStamp
        request.endTimeStamp request.bucketSeconds request.func s

end Arithmetic

section Get

variable {fmt : V → Text} {start stop : Int} {m : MetricState V}

theorem decompressInt_eq {data : ChunkData V} {disk : Text × Nat}
    (h : decompressInt fmt start stop data = some disk) :
    decompressChunk fmt start stop data = some disk := by
  have hloop (points : List (Point V)) (s s' : Rows)
      (h : points.foldlM (fun s p => if InRange start stop p then chunkStep fmt p s else some s) s =
        some s') :
      decompressLoop fmt start stop points s.buf s.length s.count =
        some (s'.buf.text, s'.count) := by
    induction points generalizing s with
    | nil => rw [← Option.some.inj h]; rfl
    | cons p points ih =>
      rw [List.foldlM_cons] at h
      obtain ⟨s1, hstep, h⟩ := Option.bind_eq_some_iff.mp h
      split at hstep
      case isTrue hin => rw [decompressLoop_step hin hstep, ih s1 h]
      case isFalse hout =>
        obtain rfl := Option.some.inj hstep
        rw [decompressLoop, if_neg hout, ih s h]
  obtain ⟨s, hs, rfl⟩ := Option.map_eq_some_iff.mp h
  exact hloop data.points _ _ hs

theorem decompressInt_some {data : ChunkData V}
    (hshort : ∀ p ∈ data.points, (row fmt p).length ≤ 1023)
    (hroom : (rowsText fmt start stop data.points).length < 2 ^ 30) :
    ∃ disk, decompressInt fmt start stop data = some disk := by
  have hloop (points : List (Point V)) (hshort : ∀ p ∈ points, (row fmt p).length ≤ 1023) (s : Rows)
      (hfit : FirstFit 1024 (s.length + 1) s.buf.capacity) (hcap : s.buf.capacity ≤ 2 ^ 30)
      (hroom : s.length + (rowsText fmt start stop points).length < 2 ^ 30) :
      ∃ s', points.foldlM (fun s p =>
        if InRange start stop p then chunkStep fmt p s else some s) s = some s' := by
    induction points generalizing s with
    | nil => exact ⟨s, rfl⟩
    | cons p points ih =>
      obtain ⟨hp, hrest⟩ := List.forall_mem_cons.mp hshort
      rw [rowsText_cons] at hroom
      by_cases hin : InRange start stop p
      case neg =>
        rw [if_neg hin, List.nil_append] at hroom
        obtain ⟨s', hs'⟩ := ih hrest s hfit hcap hroom
        exact ⟨s', by rw [List.foldlM_cons, if_neg hin]; exact hs'⟩
      rw [if_pos hin, List.length_append] at hroom
      have hbase := base_le hfit
      have hneed := hfit.1
      obtain ⟨buf, hdouble, -, hfit', hcap'⟩ := (double_cases ⟨20, by decide⟩ hfit hcap
        (show s.length + 1 ≤ s.length + (row fmt p).length + 1 by omega) (by omega)).1 (by omega)
      have hneed' := hfit'.1
      obtain ⟨buf', hcopy, hsame⟩ := @strcpyAt_some buf s.length ((row fmt p).take 127) (by
        rw [List.length_take]
        omega)
      have hstep : chunkStep fmt p s =
          some ⟨buf', s.length + (row fmt p).length, s.count + 1⟩ := by
        unfold chunkStep
        dsimp only [Option.bind_eq_bind]
        rw [hdouble, Option.bind_some, hcopy, Option.bind_some]
      rw [← hsame] at hfit' hcap'
      obtain ⟨s', hs'⟩ := ih hrest ⟨buf', s.length + (row fmt p).length, s.count + 1⟩ hfit' hcap'
        (by dsimp only; omega)
      exact ⟨s', by rw [List.foldlM_cons, if_pos hin, hstep]; exact hs'⟩
  obtain ⟨s, hs⟩ := hloop data.points hshort ⟨.new 1024, 0, 0⟩
    ⟨by decide, 0, rfl, fun j hj => absurd hj (Nat.not_lt_zero j)⟩ (by decide)
    (by simpa using hroom)
  exact ⟨_, by rw [decompressInt, hs]; rfl⟩

theorem inRange_length_le (points : List (Point V)) :
    (inRange start stop points).length ≤ (rowsText fmt start stop points).length := by
  rw [rowsText_length, ← List.length_map fun p => (row fmt p).length]
  refine List.length_le_sum_of_one_le _ fun n hn => ?_
  obtain ⟨p, _, rfl⟩ := List.mem_map.mp hn
  exact row_pos p

theorem getValue_length {head : HeadBlock V} {ram : Text × Nat}
    (h : getValue fmt start stop head = some ram)
    (hfew : (rowsText fmt start stop head.points).length < 2 ^ 31) :
    ram.1.length ≤ (rowsText fmt start stop head.points).length + 20 := by
  have hshort := ((getValue_some_iff head).mp ⟨ram, h⟩).1
  obtain ⟨capacity, hloop, -⟩ := @getValueLoop_some V fmt start stop head.points
    (fun p hp hin => hshort p (List.mem_filter.mpr ⟨hp, by simpa using hin⟩)) (.new 128)
    ⟨by decide, 0, rfl, fun j hj => absurd hj (Nat.not_lt_zero j)⟩ 0
  have hcount := (@inRange_length_le V fmt start stop head.points).trans_lt hfew
  have hdigits : (decimal (inRange start stop head.points).length).length ≤ 10 :=
    decimal_length (by decide) (by omega)
  have htail : " points)\n".toList.length = 9 := rfl
  unfold getValue at h
  change (getValueLoop fmt start stop head.points (.new 128) 0 0).bind _ = _ at h
  change getValueLoop fmt start stop head.points (.new 128) 0 0 = _ at hloop
  rw [hloop, Option.bind_some] at h
  obtain ⟨r1, h1, h⟩ := Option.bind_eq_some_iff.mp h
  obtain ⟨r2, h2, h⟩ := Option.bind_eq_some_iff.mp h
  obtain ⟨r3, h3, rfl⟩ := Option.map_eq_some_iff.mp h
  simp only [strcat_text h3, strcat_text h2, strcat_text h1, TextBuffer.new, List.nil_append,
    Nat.zero_add, List.length_append, List.length_singleton, htail]
  omega

theorem getChunkInt_eq {dir : Dir V} {a a' : Answer} {chunk : ChunkMetadata}
    (h : getChunkInt fmt start stop dir a chunk = some a') :
    getChunk fmt start stop dir a chunk = some a' := by
  unfold getChunkInt at h
  unfold getChunk
  split
  case isFalse hskip => rwa [if_neg hskip] at h
  case isTrue hread =>
    rw [if_pos hread] at h
    cases hdata : chunkRead dir chunk.filename with
    | none => rwa [hdata] at h
    | some data =>
      rw [hdata] at h
      obtain ⟨disk, hdisk, h⟩ := Option.bind_eq_some_iff.mp h
      dsimp only at h ⊢
      rw [decompressInt_eq hdisk, Option.bind_some]
      split at h
      · exact h
      · cases h

theorem getInt_eq {out : Text × Nat} (h : getInt fmt start stop m = some out) :
    getMetric fmt start stop m = some out := by
  have hloop (chunks : List ChunkMetadata) (a a' : Answer)
      (h : chunks.foldlM (getChunkInt fmt start stop m.dir) a = some a') :
      chunks.foldlM (getChunk fmt start stop m.dir) a = some a' := by
    induction chunks generalizing a with
    | nil => exact h
    | cons chunk chunks ih =>
      rw [List.foldlM_cons] at h ⊢
      obtain ⟨a1, h1, h⟩ := Option.bind_eq_some_iff.mp h
      exact Option.bind_eq_some_iff.mpr ⟨a1, getChunkInt_eq h1, ih a1 h⟩
  obtain ⟨a, ha, h⟩ := Option.bind_eq_some_iff.mp h
  obtain ⟨ram, hram, h⟩ := Option.bind_eq_some_iff.mp h
  split at h
  · rw [getMetric, hloop _ _ _ ha, Option.bind_some, hram, Option.bind_some]
    exact h
  · cases h

/-- The chunk loop of `Head_GET` whatever the files hold: a file that cannot be read adds nothing,
and no text is longer than its rows. -/
theorem chunks_int {dir : Dir V} {chunks : List ChunkMetadata} {a : Answer}
    (hlength : a.currentLen = a.result.text.length)
    (hshort : ∀ p ∈ chunks.flatMap (chunkPoints dir), (row fmt p).length ≤ 1023)
    (hchunks : ∀ chunk ∈ chunks,
      (rowsText fmt start stop (chunkPoints dir chunk)).length < 2 ^ 30)
    {n : Nat} (hn : n = (rowsText fmt start stop (chunks.flatMap (chunkPoints dir))).length)
    (hlen : a.currentLen + n + 2048 < 2 ^ 31) (hsize : a.size + n < 2 ^ 31) :
    ∃ a', chunks.foldlM (getChunkInt fmt start stop dir) a = some a' ∧
      a'.currentLen = a'.result.text.length ∧ a'.currentLen ≤ a.currentLen + n ∧
      a'.size ≤ a.size + n := by
  induction chunks generalizing a n with
  | nil => exact ⟨a, rfl, hlength, Nat.le_add_right _ _, Nat.le_add_right _ _⟩
  | cons chunk chunks ih =>
    obtain ⟨hchunk, hrest⟩ := List.forall_mem_cons.mp hchunks
    rw [List.flatMap_cons] at hshort hn
    rw [rowsText_append, List.length_append] at hn
    have hstep : ∃ a1, getChunkInt fmt start stop dir a chunk = some a1 ∧
        a1.currentLen = a1.result.text.length ∧
        a1.currentLen ≤ a.currentLen + (rowsText fmt start stop (chunkPoints dir chunk)).length ∧
        a1.size ≤ a.size + (rowsText fmt start stop (chunkPoints dir chunk)).length := by
      unfold getChunkInt
      split
      case isFalse => exact ⟨a, rfl, hlength, Nat.le_add_right _ _, Nat.le_add_right _ _⟩
      unfold chunkPoints at hshort hchunk hn ⊢
      cases hread : chunkRead dir chunk.filename with
      | none => exact ⟨a, rfl, hlength, Nat.le_add_right _ _, Nat.le_add_right _ _⟩
      | some data =>
        rw [hread] at hshort hchunk hn
        dsimp only [Option.map_some, Option.getD_some] at hshort hchunk hn ⊢
        obtain ⟨disk, hdisk⟩ := @decompressInt_some V fmt start stop data
          (fun p hp => hshort p (List.mem_append_left _ hp)) hchunk
        obtain ⟨htext, hcount⟩ := decompress_bound data.points (.new 1024) 0 0
          (by simp [TextBuffer.new]) (decompressInt_eq hdisk)
        have hcut := @cutLength_le V fmt start stop data.points
        have hpoints := @inRange_length_le V fmt start stop data.points
        have hneed := @le_grow a.result (a.currentLen + disk.1.length + 1)
          (a.currentLen + disk.1.length + 2048) (by omega)
        simp only [TextBuffer.new, List.length_nil, Nat.zero_add] at htext hcount
        rw [hdisk, Option.bind_some, if_pos ⟨by omega, by omega, fun _ => by omega⟩, appendDisk]
        rw [strcat_eq (by rw [grow_text, ← hlength]; exact hneed)]
        refine ⟨_, rfl, by simp [hlength], ?_, ?_⟩
        · dsimp only
          omega
        · dsimp only
          omega
    obtain ⟨a1, h1, hlength1, hlen1, hsize1⟩ := hstep
    obtain ⟨a2, h2, hlength2, hlen2, hsize2⟩ := ih hlength1
      (fun p hp => hshort p (List.mem_append_right _ hp)) hrest rfl (by omega) (by omega)
    refine ⟨a2, ?_, hlength2, by omega, by omega⟩
    rw [List.foldlM_cons, h1]
    exact h2

/-- The rows of the points in the range are not too much for an `int`, nor are those of one chunk
for a capacity that is doubled. -/
def ShortRows (fmt : V → Text) (start stop : Int) (m : MetricState V) : Prop :=
  (∀ chunk ∈ m.entry.chunks,
    (rowsText fmt start stop (chunkPoints m.dir chunk)).length < 2 ^ 30) ∧
  (rowsText fmt start stop
    (m.entry.chunks.flatMap (chunkPoints m.dir) ++ m.entry.head.points)).length + 4096 ≤ 2 ^ 31

/-- Where its rows are short enough, `GET` gets its answer exactly when `GET_value` stays inside of
its buffers. -/
theorem getInt_iff
    (hshort : ∀ p ∈ m.entry.chunks.flatMap (chunkPoints m.dir), (row fmt p).length ≤ 1023)
    (hfew : ShortRows fmt start stop m) :
    (∃ out, getInt fmt start stop m = some out) ↔
      Roomy fmt (inRange start stop m.entry.head.points) := by
  obtain ⟨hchunks, hall⟩ := hfew
  rw [rowsText_append, List.length_append] at hall
  obtain ⟨a, ha, hlength, hlen, hsize⟩ := @chunks_int V fmt start stop m.dir m.entry.chunks
    ⟨.new 2048, 0, 0⟩ rfl hshort hchunks _ rfl (by dsimp only; omega) (by dsimp only; omega)
  rw [← getValue_some_iff, getInt, ha, Option.bind_some]
  constructor
  · rintro ⟨out, hout⟩
    obtain ⟨ram, hram, _⟩ := Option.bind_eq_some_iff.mp hout
    exact ⟨ram, hram⟩
  · rintro ⟨ram, hram⟩
    have htext := getValue_length hram (by omega)
    have hcount := getValue_size hram
    have hpoints := @inRange_length_le V fmt start stop m.entry.head.points
    dsimp only at hlen hsize
    rw [hram, Option.bind_some, if_pos ⟨by omega, by omega⟩, getFinish_eq hlength]
    exact ⟨_, rfl⟩

end Get

section Agg

variable [Zero V] [Add V] [Div V] [NatCast V] [LT V] [DecidableLT V]

def bucketEnd (start bucketSeconds : Int) (p : Point V) : Int :=
  bucketAt start bucketSeconds (bucketIndex start bucketSeconds p + 1)

omit [Zero V] [Add V] [Div V] [NatCast V] [LT V] [DecidableLT V] in
theorem bucketEnd_shift {start bucketSeconds : Int} (hpos : 0 < bucketSeconds) {p : Point V}
    (hp : start + bucketSeconds ≤ p.ts) :
    bucketEnd (start + bucketSeconds) bucketSeconds p = bucketEnd start bucketSeconds p := by
  have hindex : bucketIndex start bucketSeconds p =
      bucketIndex (start + bucketSeconds) bucketSeconds p + 1 := by
    rw [← inRange_bucketAt hpos (by omega)]
    have hin := (inRange_bucketAt hpos hp _).mpr rfl
    unfold InRange bucketAt at hin ⊢
    push_cast at hin ⊢
    constructor <;> linarith [hin.1, hin.2]
  unfold bucketEnd bucketAt
  rw [hindex]
  push_cast
  ring

omit [Zero V] [Add V] [Div V] [NatCast V] [LT V] [DecidableLT V] in
theorem le_bucketEnd {start bucketSeconds : Int} (hpos : 0 < bucketSeconds) (p : Point V) :
    start + bucketSeconds ≤ bucketEnd start bucketSeconds p := by
  unfold bucketEnd bucketAt
  have : 0 ≤ (bucketIndex start bucketSeconds p : Int) * bucketSeconds := by positivity
  push_cast
  linarith

/-- A loop with an unknown function ends at its first bucket with a point. -/
theorem aggLoop_unknown {points : List (Point V)}
    (hsorted : points.Pairwise fun p q => p.ts ≤ q.ts) {stop bucketSeconds : Int}
    (hpos : 0 < bucketSeconds) {func : Text} (hfunc : func ∉ aggFunctions) {fuel : Nat}
    {bstart : Int} (distinctCount : Nat) (prevTs : Int) (hlow : -2 ^ 63 ≤ bstart)
    (hin : ∀ p ∈ points, InRange bstart stop p) (hne : points ≠ [])
    (hfuel : (stop - bstart).toNat ≤ fuel) :
    (∃ loop, aggLoop points stop bucketSeconds func fuel bstart distinctCount prevTs = some loop) ↔
      ∃ p ∈ points, bucketEnd bstart bucketSeconds p < 2 ^ 63 := by
  obtain ⟨q, hq⟩ := List.exists_mem_of_ne_nil points hne
  induction fuel generalizing bstart distinctCount prevTs with
  | zero =>
    obtain ⟨hle, hlt⟩ := hin q hq
    omega
  | succ fuel ih =>
    have hstop : bstart < stop := (hin q hq).1.trans_lt (hin q hq).2
    unfold aggLoop
    rw [if_pos hstop]
    by_cases hbend : bstart + bucketSeconds < 2 ^ 63
    case neg =>
      rw [longAdd, checked_overflow fun h => hbend h.2]
      apply iff_of_false
      · rintro ⟨_, h⟩
        cases h
      · rintro ⟨p, _, hp⟩
        exact hbend ((le_bucketEnd hpos p).trans_lt hp)
    rw [longAdd, checked_inBits ⟨by omega, hbend⟩]
    dsimp only [Option.bind_eq_bind, Option.bind_some]
    rw [aggBucket_eq bstart _ hsorted]
    by_cases hempty : bucketPoints bstart (bstart + bucketSeconds) points = []
    · have hlater : ∀ p ∈ points, bstart + bucketSeconds ≤ p.ts := by
        intro p hp
        by_contra hearly
        have hmem := mem_bucketPoints.mpr ⟨hp, (hin p hp).1, not_le.mp hearly⟩
        rw [hempty] at hmem
        exact List.not_mem_nil hmem
      have hnone : (Acc.start distinctCount prevTs : Aggregate.Acc V).count = 0 := rfl
      rw [hempty, List.foldl_nil, if_pos hnone]
      have hrest := ih distinctCount prevTs (by omega)
        (fun p hp => ⟨hlater p hp, (hin p hp).2⟩) (by omega)
      have hends : (∃ p ∈ points, bucketEnd (bstart + bucketSeconds) bucketSeconds p < 2 ^ 63) ↔
          ∃ p ∈ points, bucketEnd bstart bucketSeconds p < 2 ^ 63 :=
        exists_congr fun p => and_congr_right fun hp => by
          rw [bucketEnd_shift hpos (hlater p hp)]
      rw [← hends, ← hrest]
      constructor
      · rintro ⟨loop, hloop⟩
        obtain ⟨loop', hloop', _⟩ := Option.bind_eq_some_iff.mp hloop
        exact ⟨loop', hloop'⟩
      · rintro ⟨loop, hloop⟩
        exact ⟨_, Option.bind_eq_some_iff.mpr ⟨loop, hloop, rfl⟩⟩
    · obtain ⟨p, hp⟩ := List.exists_mem_of_ne_nil _ hempty
      obtain ⟨hp, hbucket⟩ := mem_bucketPoints.mp hp
      have hcount : (List.foldl Acc.add (.start distinctCount prevTs)
          (bucketPoints bstart (bstart + bucketSeconds) points)).count ≠ 0 := by
        rw [foldl_count]
        have := List.length_pos_of_ne_nil hempty
        omega
      rw [if_neg hcount, AggBuffer.aggCell_unknown hfunc]
      refine iff_of_true ⟨_, rfl⟩ ⟨p, hp, ?_⟩
      have hindex : bucketIndex bstart bucketSeconds p = 0 := by
        rw [← inRange_bucketAt hpos (hin p hp).1]
        simpa [bucketAt] using hbucket
      rw [bucketEnd, hindex, bucketAt_succ]
      simpa [bucketAt] using hbend

/-- The bucket loop over these points stays inside of `long`: its last bucket ends there, or it
does not know the function and ends at a first bucket that does. -/
def LoopInside (points : List (Point V)) (start stop bucketSeconds : Int) (func : Text) : Prop :=
  lastEnd start stop bucketSeconds < 2 ^ 63 ∨
    func ∉ aggFunctions ∧ ∃ p ∈ points, bucketEnd start bucketSeconds p < 2 ^ 63

theorem aggPointsLong_iff {points : List (Point V)} {start stop bucketSeconds : Int}
    (hpos : 0 < bucketSeconds) (func : Text) (hstart : InBits 63 start)
    (hin : ∀ p ∈ points, InRange start stop p) (hne : points ≠ []) :
    (∃ answer, aggPointsLong points start stop bucketSeconds func = some answer) ↔
      LoopInside points start stop bucketSeconds func := by
  by_cases hend : lastEnd start stop bucketSeconds < 2 ^ 63
  · rw [aggPointsLong_inside points hpos func hstart.1 hend]
    exact iff_of_true ⟨_, rfl⟩ (.inl hend)
  by_cases hfunc : func ∈ aggFunctions
  · rw [aggPointsLong, aggLoop_overflow _ hpos hfunc 0 0 hstart hend (bucketCount_le hpos)]
    apply iff_of_false
    · rintro ⟨_, h⟩
      cases h
    · rintro (h | h)
      · exact hend h
      · exact h.1 hfunc
  · have hloop := @aggLoop_unknown V _ _ _ _ _ _ _ (sortPoints_sorted points) stop bucketSeconds
      hpos func hfunc (stop - start).toNat start 0 0 hstart.1
      (fun p hp => hin p ((sortPoints_perm points).mem_iff.mp hp))
      (fun h => hne ((h ▸ sortPoints_perm points).symm.eq_nil)) le_rfl
    have hpoints : (∃ p ∈ sortPoints points, bucketEnd start bucketSeconds p < 2 ^ 63) ↔
        ∃ p ∈ points, bucketEnd start bucketSeconds p < 2 ^ 63 :=
      exists_congr fun p => and_congr_left' (sortPoints_perm points).mem_iff
    rw [LoopInside, or_iff_right hend, and_iff_right hfunc, ← hpoints, ← hloop, aggPointsLong]
    constructor
    · rintro ⟨answer, hanswer⟩
      obtain ⟨loop, hsome, _⟩ := Option.map_eq_some_iff.mp hanswer
      exact ⟨loop, hsome⟩
    · rintro ⟨loop, hsome⟩
      exact ⟨_, Option.map_eq_some_iff.mpr ⟨loop, hsome, rfl⟩⟩

/-- The arithmetic of a query stays inside of `long`, if it comes to that: the length of its range
and its bucket loop. -/
def QueryInside (dataDir metric : Text) (start stop bucketSeconds : Int) (func : Text)
    (s : Store V) : Prop :=
  start < stop → 0 < bucketSeconds → ∀ m, hashFindStr metric s = some m →
    (dataDir ≠ [] → stop - start < 2 ^ 63) ∧
    ∀ points, aggCollect dataDir metric start stop bucketSeconds s m = some points → points ≠ [] →
      LoopInside points start stop bucketSeconds func

omit [Zero V] [Add V] [Div V] [NatCast V] [LT V] [DecidableLT V] in
theorem aggCollectLong_eq {dataDir metric : Text} {start stop bucketSeconds : Int} {s : Store V}
    (m : MetricState V) (hlt : start < stop) (h : dataDir ≠ [] → stop - start < 2 ^ 63) :
    aggCollectLong dataDir metric start stop bucketSeconds s m =
      some (aggCollect dataDir metric start stop bucketSeconds s m) := by
  unfold aggCollectLong aggCollect
  by_cases hdir : dataDir = []
  · simp [hdir]
  · rw [downsampleShouldUseLong_inside s metric bucketSeconds hlt (h hdir)]
    simp [hdir]

omit [Zero V] [Add V] [Div V] [NatCast V] [LT V] [DecidableLT V] in
theorem collectRaw_sublist {start stop : Int} {m : MetricState V} {points : List (Point V)}
    (h : collectRaw start stop m = some points) :
    points.Sublist (bucketPoints start stop (m.entry.chunks.flatMap (chunkPoints m.dir))) := by
  have hall (chunks : List ChunkMetadata) (sofar : List (Point V))
      (hrun : AggBuffer.rawFrom start stop m.dir chunks sofar = some points) :
      ∃ rest, points = sofar ++ rest ∧
        rest.Sublist (bucketPoints start stop (chunks.flatMap (chunkPoints m.dir))) := by
    induction chunks generalizing sofar with
    | nil => exact ⟨[], by rw [← Option.some.inj hrun, List.append_nil], List.nil_sublist _⟩
    | cons chunk chunks ih =>
      have hsplit : bucketPoints start stop ((chunk :: chunks).flatMap (chunkPoints m.dir)) =
          bucketPoints start stop (chunkPoints m.dir chunk) ++
            bucketPoints start stop (chunks.flatMap (chunkPoints m.dir)) := by
        rw [List.flatMap_cons]
        exact List.filter_append ..
      rw [hsplit]
      by_cases hoverlap : chunk.startTs < stop ∧ start ≤ chunk.endTs
      · rw [AggBuffer.rawFrom, List.filter_cons_of_pos (by simpa using hoverlap),
          List.foldlM_cons] at hrun
        obtain ⟨next, hnext, hrun⟩ := Option.bind_eq_some_iff.mp hrun
        obtain ⟨own, hown, rfl⟩ := Option.map_eq_some_iff.mp hnext
        obtain ⟨rest, rfl, hsub⟩ := ih _ hrun
        obtain ⟨data, hread, rfl⟩ := Option.map_eq_some_iff.mp hown
        refine ⟨_, List.append_assoc .., List.Sublist.append ?_ hsub⟩
        rw [chunkPoints, hread]
        exact .refl _
      · rw [AggBuffer.rawFrom, List.filter_cons_of_neg (by simpa using hoverlap)] at hrun
        obtain ⟨rest, hrest, hsub⟩ := ih _ hrun
        exact ⟨rest, hrest, hsub.trans (List.sublist_append_right _ _)⟩
  obtain ⟨rest, rfl, hsub⟩ := hall m.entry.chunks [] h
  exact hsub

omit [Zero V] [Add V] [Div V] [NatCast V] [LT V] [DecidableLT V] in
theorem aggCollect_sublist {dataDir metric : Text} {start stop bucketSeconds : Int} {s : Store V}
    {m : MetricState V} {points : List (Point V)}
    (h : aggCollect dataDir metric start stop bucketSeconds s m = some points) :
    points.Sublist (AggBuffer.pointsInRange dataDir metric start stop bucketSeconds s m) := by
  obtain ⟨disk, hdisk, rfl⟩ := Option.map_eq_some_iff.mp h
  unfold AggBuffer.pointsInRange
  refine List.Sublist.append ?_ (.refl _)
  split at hdisk
  case isTrue hcoarse =>
    rw [if_pos hcoarse, Option.some.inj hdisk]
  case isFalse hraw =>
    rw [if_neg hraw]
    exact collectRaw_sublist hdisk

omit [Zero V] [Add V] [Div V] [NatCast V] [LT V] [DecidableLT V] in
theorem aggCollect_inRange {dataDir metric : Text} {start stop bucketSeconds : Int} {s : Store V}
    {m : MetricState V} {points : List (Point V)}
    (h : aggCollect dataDir metric start stop bucketSeconds s m = some points) :
    ∀ p ∈ points, InRange start stop p := by
  intro p hp
  have hmem := (aggCollect_sublist h).subset hp
  unfold AggBuffer.pointsInRange at hmem
  rcases List.mem_append.mp hmem with hdisk | hhead
  · split at hdisk
    · obtain ⟨name, _, hp⟩ := List.mem_flatMap.mp hdisk
      cases hread : chunkRead (s.dirOf (downsampleCoarseDir metric)) name with
      | none => simp [collectPointsFromChunk, hread] at hp
      | some data =>
        rw [collectPointsFromChunk, hread, Option.map_some, Option.getD_some] at hp
        simpa using (List.mem_filter.mp hp).2
    · exact (mem_bucketPoints.mp hdisk).2
  · simpa using (List.mem_filter.mp hhead).2

theorem headAggLong_iff {dataDir metric : Text} {start stop bucketSeconds : Int} (func : Text)
    (s : Store V) (hstart : InBits 63 start) :
    (∃ answer, headAggLong dataDir metric start stop bucketSeconds func s = some answer) ↔
      QueryInside dataDir metric start stop bucketSeconds func s := by
  unfold headAggLong QueryInside
  by_cases hvalid : bucketSeconds ≤ 0 ∨ stop ≤ start
  · rw [if_pos hvalid]
    exact iff_of_true ⟨_, rfl⟩ fun hlt hpos => absurd hvalid (by omega)
  have hlt : start < stop := by omega
  have hpos : 0 < bucketSeconds := by omega
  rw [if_neg hvalid, forall_prop_of_true hlt, forall_prop_of_true hpos]
  cases hm : hashFindStr metric s with
  | none => exact iff_of_true ⟨_, rfl⟩ fun m h => by cases h
  | some m =>
    simp only [Option.some.injEq, forall_eq']
    by_cases hlong : dataDir ≠ [] → stop - start < 2 ^ 63
    case neg =>
      obtain ⟨hdir, hbig⟩ := Classical.not_imp.mp hlong
      rw [aggCollectLong, if_neg hdir, downsampleShouldUseLong, longSub,
        checked_overflow fun h => hbig h.2]
      apply iff_of_false
      · rintro ⟨_, h⟩
        cases h
      · exact fun h => hlong h.1
    rw [and_iff_right hlong, aggCollectLong_eq m hlt hlong]
    dsimp only [Option.bind_eq_bind, Option.bind_some]
    cases hpoints : aggCollect dataDir metric start stop bucketSeconds s m with
    | none => exact iff_of_true ⟨_, rfl⟩ fun _ h => by cases h
    | some points =>
      simp only [Option.some.injEq, forall_eq']
      by_cases hnil : points = []
      · rw [if_pos hnil]
        exact iff_of_true ⟨_, rfl⟩ fun h => absurd hnil h
      · rw [if_neg hnil, forall_prop_of_true hnil, aggPointsLong_iff hpos func hstart
          (fun p hp => aggCollect_inRange hpoints p ((sortPoints_perm points).mem_iff.mp hp))
          (fun h => hnil (h ▸ sortPoints_perm points).symm.eq_nil)]
        exact or_congr_right (and_congr_right' (exists_congr fun p =>
          and_congr_left' (sortPoints_perm points).mem_iff))

theorem aggText_length {points : List (Point V)} {start stop bucketSeconds : Int}
    (hin : ∀ p ∈ points, InRange start stop p) (hpos : 0 < bucketSeconds) (func : Text)
    (fmt : V → Text) {ids : List Nat} (hids : ∀ p ∈ points, bucketIndex start bucketSeconds p ∈ ids)
    (hfew : ids.length ≤ 2 ^ 23) :
    (aggText fmt (aggPoints points start stop bucketSeconds func)).length ≤
      127 * 2 ^ 23 + 32 := by
  by_cases hfunc : func ∈ aggFunctions
  · obtain ⟨ks, cell, hocc, hlines, -⟩ := aggPoints_lines hin hpos hfunc
    have hks : ks.length ≤ ids.length := by
      refine (List.subperm_of_subset (hocc.increasing.imp ne_of_lt) fun k hk => ?_).length_le
      obtain ⟨p, hp, hbucket⟩ := (hocc.mem_iff k).mp hk
      rw [← (inRange_bucketAt hpos (hin p hp).1 k).mp hbucket]
      exact hids p hp
    have hdigits : (decimal ks.length).length ≤ 7 := decimal_length (by decide) (by omega)
    have hlong (lines : List (Line V)) : (lines.flatMap (lineText fmt)).length ≤
        127 * lines.length := by
      induction lines with
      | nil => exact le_rfl
      | cons line lines ih =>
        have hline : (lineText fmt line).length ≤ 127 := List.length_take_le ..
        rw [List.flatMap_cons, List.length_append, List.length_cons]
        omega
    have htext := hlong (ks.map fun k => ⟨bucketAt start bucketSeconds k,
      bucketAt start bucketSeconds (k + 1), cell k⟩)
    rw [List.length_map] at htext
    rw [hlines, aggText, List.length_append, List.length_cons, List.length_append, List.length_map]
    have hfooter : " buckets)\n".toList.length = 10 := rfl
    omega
  · have herror : (aggText fmt (.error "ERR invalid func\n".toList)).length ≤ 32 :=
      show "ERR invalid func\n".toList.length ≤ 32 by decide
    have hnone : (aggText fmt (.lines [])).length ≤ 32 := by
      rw [← AggBuffer.aggText_nil]
      decide
    have hshort : (aggText fmt (aggPoints points start stop bucketSeconds func)).length ≤ 32 := by
      unfold aggPoints
      rcases @AggBuffer.aggBucketsOut_unknown V _ _ _ _ _ _ fmt (sortPoints points) stop
        bucketSeconds func hfunc (stop - start).toNat start 0 0 ⟨.new 2048, 0, 0⟩ with
        ⟨h, -⟩ | ⟨h, -⟩
      · rw [h]
        exact herror
      · rw [h]
        exact hnone
    omega

/-- At most 2 ^ 30 points, which are in at most 2 ^ 23 buckets. -/
def FewLines (start bucketSeconds : Int) (points : List (Point V)) : Prop :=
  points.length ≤ 2 ^ 30 ∧
    (points.map (bucketIndex start bucketSeconds)).dedup.length ≤ 2 ^ 23

/-- Where the points and their buckets are few, array and buffer of `Head_AGG` are no matter. -/
theorem headAggOut_eq {dataDir metric : Text} {start stop bucketSeconds : Int} (func : Text)
    (fmt : V → Text) {s : Store V} (hfew : ∀ m, hashFindStr metric s = some m →
      FewLines start bucketSeconds
        (AggBuffer.pointsInRange dataDir metric start stop bucketSeconds s m)) :
    AggBuffer.headAggOut fmt dataDir metric start stop bucketSeconds func s =
      some (aggText fmt (headAgg dataDir metric start stop bucketSeconds func s)) := by
  refine AggBuffer.headAggOut_text fmt dataDir metric start stop bucketSeconds func s
    (fun m hm => (hfew m hm).1) ?_
  have hempty : (aggText fmt (.lines [])).length ≤ 32 := by
    rw [← AggBuffer.aggText_nil]
    decide
  unfold headAgg
  by_cases hvalid : bucketSeconds ≤ 0 ∨ stop ≤ start
  · rw [if_pos hvalid]
    exact show "ERR invalid range or bucket\n".toList.length + 64 < 2 ^ 30 by decide
  rw [if_neg hvalid]
  cases hm : hashFindStr metric s with
  | none => exact lt_of_le_of_lt (Nat.add_le_add_right hempty 64) (by decide)
  | some m =>
    dsimp only
    cases hpoints : aggCollect dataDir metric start stop bucketSeconds s m with
    | none => exact show "ERR disk read\n".toList.length + 64 < 2 ^ 30 by decide
    | some points =>
      dsimp only
      split
      · exact lt_of_le_of_lt (Nat.add_le_add_right hempty 64) (by decide)
      · have hmem (p : Point V) (hp : p ∈ sortPoints points) : p ∈ points :=
          (sortPoints_perm points).mem_iff.mp hp
        have htext := @aggText_length V _ _ _ _ _ _ (sortPoints points) start stop bucketSeconds
          (fun p hp => aggCollect_inRange hpoints p (hmem p hp)) (by omega) func fmt _
          (fun p hp => List.mem_dedup.mpr (List.mem_map_of_mem
            ((aggCollect_sublist hpoints).subset (hmem p hp)))) (hfew m hm).2
        omega

end Agg

end Tsdb.Replies
