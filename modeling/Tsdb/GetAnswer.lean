import Tsdb.Disk
import Tsdb.Query

namespace Tsdb.GetAnswer

open CStrings CStrings.TextBuffer Head Files Registry History Service Disk Query

variable {V : Type} {fmt : V → Text} {start stop : Int}

def inRange (start stop : Int) (points : List (Point V)) : List (Point V) :=
  points.filter fun p => InRange start stop p

def RowFits (fmt : V → Text) (p : Point V) : Prop := (row fmt p).length ≤ 127

def cutLength (fmt : V → Text) (start stop : Int) (points : List (Point V)) : Nat :=
  ((inRange start stop points).map fun p => min 127 (row fmt p).length).sum

theorem row_pos (p : Point V) : 0 < (row fmt p).length := by simp [row]

theorem inRange_append (xs ys : List (Point V)) :
    inRange start stop (xs ++ ys) = inRange start stop xs ++ inRange start stop ys :=
  List.filter_append ..

theorem rowsText_append (xs ys : List (Point V)) :
    rowsText fmt start stop (xs ++ ys) = rowsText fmt start stop xs ++ rowsText fmt start stop ys := by
  simp [rowsText]

theorem cutLength_append (xs ys : List (Point V)) :
    cutLength fmt start stop (xs ++ ys) = cutLength fmt start stop xs + cutLength fmt start stop ys := by
  simp [cutLength, inRange_append]

theorem inRange_nil {points : List (Point V)} (h : ∀ p ∈ points, ¬ InRange start stop p) :
    inRange start stop points = [] :=
  List.filter_eq_nil_iff.mpr fun p hp => by simpa using h p hp

theorem rowsText_nil {points : List (Point V)} (h : ∀ p ∈ points, ¬ InRange start stop p) :
    rowsText fmt start stop points = [] :=
  congrArg (List.flatMap (row fmt)) (inRange_nil h)

theorem rowsText_length (points : List (Point V)) : (rowsText fmt start stop points).length =
    ((inRange start stop points).map fun p => (row fmt p).length).sum := by
  simp [rowsText, inRange, List.length_flatMap]

theorem cutLength_le (points : List (Point V)) :
    cutLength fmt start stop points ≤ (rowsText fmt start stop points).length := by
  rw [rowsText_length]
  exact List.sum_le_sum fun p _ => Nat.min_le_right _ _

theorem cutLength_lt {points : List (Point V)} {p : Point V} (hp : p ∈ points)
    (hin : InRange start stop p) (hlong : ¬ RowFits fmt p) :
    cutLength fmt start stop points < (rowsText fmt start stop points).length := by
  rw [rowsText_length]
  refine List.sum_lt_sum _ _ (fun p _ => Nat.min_le_right _ _) ⟨p, ?_, ?_⟩
  · exact List.mem_filter.mpr ⟨hp, by simpa using hin⟩
  · unfold RowFits at hlong
    omega

theorem rowsText_pos {points : List (Point V)} {p : Point V} (hp : p ∈ points)
    (hin : InRange start stop p) : 0 < (rowsText fmt start stop points).length := by
  rw [rowsText_length]
  have hmem : p ∈ inRange start stop points := List.mem_filter.mpr ⟨hp, by simpa using hin⟩
  exact lt_of_lt_of_le (row_pos p)
    (List.single_le_sum (fun _ _ => Nat.zero_le _) _ (List.mem_map_of_mem hmem))

theorem decompress_full (points : List (Point V)) (buf : TextBuffer) (count : Nat)
    (hfit : ∀ p ∈ points, InRange start stop p → RowFits fmt p)
    (hroom : buf.text.length + 1 ≤ buf.capacity) (hcap : 1024 ≤ buf.capacity) :
    decompressLoop fmt start stop points buf buf.text.length count =
      some (buf.text ++ rowsText fmt start stop points,
        count + (inRange start stop points).length) := by
  induction points generalizing buf count with
  | nil => simp [decompressLoop, rowsText, inRange]
  | cons p points ih =>
    have hrest : ∀ q ∈ points, InRange start stop q → RowFits fmt q :=
      fun q hq => hfit q (List.mem_cons_of_mem _ hq)
    by_cases hin : InRange start stop p
    · have hrow : (row fmt p).length ≤ 127 := hfit p (by simp) hin
      have hneed := @le_grow buf (buf.text.length + (row fmt p).length + 1) (buf.capacity * 2)
        (by omega)
      have hgrown : 1024 ≤ (buf.grow (buf.text.length + (row fmt p).length + 1)
          (buf.capacity * 2)).capacity := hcap.trans (capacity_le_grow _ _)
      have hnext := ih ⟨_, buf.text ++ row fmt p⟩ (count + 1) hrest
        (by simpa [Nat.add_assoc] using hneed) hgrown
      rw [List.length_append] at hnext
      rw [decompressLoop, if_pos hin]
      dsimp only
      rw [List.take_of_length_le hrow, strcpyAt_end (by rw [grow_text]) (by simpa using hneed),
        Option.bind_some, grow_text, hnext]
      simp [rowsText, inRange, hin]
      omega
    · rw [decompressLoop, if_neg hin, ih buf count hrest hroom hcap]
      simp [rowsText, inRange, hin]

theorem decompress_bound (points : List (Point V)) (buf : TextBuffer) (currentLen count : Nat)
    (hlen : buf.text.length ≤ currentLen) {t : Text} {c : Nat}
    (h : decompressLoop fmt start stop points buf currentLen count = some (t, c)) :
    t.length ≤ buf.text.length + cutLength fmt start stop points ∧
      c = count + (inRange start stop points).length := by
  induction points generalizing buf currentLen count with
  | nil =>
    obtain ⟨rfl, rfl⟩ := Prod.mk.inj (Option.some.inj h)
    simp [cutLength, inRange]
  | cons p points ih =>
    by_cases hin : InRange start stop p
    · rw [decompressLoop, if_pos hin] at h
      obtain ⟨buf', hbuf, h⟩ := Option.bind_eq_some_iff.mp h
      have hcopy := strcpyAt_length hbuf (by simpa using hlen)
      rw [grow_text, List.length_take] at hcopy
      obtain ⟨hle, hc⟩ := ih buf' _ (count + 1) (by omega) h
      simp only [cutLength, inRange, hin, decide_true, List.filter_cons_of_pos, List.map_cons,
        List.sum_cons, List.length_cons] at hle hc ⊢
      omega
    · rw [decompressLoop, if_neg hin] at h
      simpa [cutLength, inRange, hin] using ih buf currentLen count hlen h

structure Assembled (fmt : V → Text) (start stop : Int) (points : List (Point V)) (a : Answer) :
    Prop where
  text : a.result.text = rowsText fmt start stop points
  length : a.currentLen = a.result.text.length
  room : a.currentLen + 1 ≤ a.result.capacity
  size : a.size = (inRange start stop points).length

structure Bounded (fmt : V → Text) (start stop : Int) (points : List (Point V)) (a : Answer) :
    Prop where
  text : a.result.text.length ≤ cutLength fmt start stop points
  length : a.currentLen = a.result.text.length
  size : a.size = (inRange start stop points).length

theorem assembled_start : Assembled fmt start stop [] ⟨.new 2048, 0, 0⟩ :=
  ⟨rfl, rfl, by simp [TextBuffer.new], rfl⟩

theorem bounded_start : Bounded fmt start stop [] ⟨.new 2048, 0, 0⟩ :=
  ⟨by simp [TextBuffer.new], rfl, rfl⟩

def ReadsAs (dir : Dir V) (chunk : ChunkMetadata) (points : List (Point V)) : Prop :=
  chunkRead dir chunk.filename = some ⟨chunk.startTs, chunk.endTs, points⟩ ∧ Describes chunk points

theorem OnDisk.reads {dataDir metric : Text} {l : Ledger V} (h : OnDisk dataDir metric l) :
    List.Forall₂ (ReadsAs l.metric.dir) l.metric.entry.chunks l.flushed :=
  h.readable.mp (fun _ _ hr hd => ⟨hr, hd⟩) h.conserved.described

/-- A chunk that `Head_GET` passes over has no point in the range. -/
theorem pruned {chunk : ChunkMetadata} {points : List (Point V)} (h : Describes chunk points)
    (hskip : ¬ (chunk.startTs ≤ stop ∧ start ≤ chunk.endTs)) :
    ∀ p ∈ points, ¬ InRange start stop p := by
  rintro p hp ⟨hlo, hhi⟩
  have h1 := h.least.2 ⟨p, hp, rfl⟩
  have h2 := h.greatest.2 ⟨p, hp, rfl⟩
  omega

theorem getChunk_full {dir : Dir V} {chunk : ChunkMetadata} {done points : List (Point V)}
    {a : Answer} (ha : Assembled fmt start stop done a) (hread : ReadsAs dir chunk points)
    (hfit : ∀ p ∈ points, InRange start stop p → RowFits fmt p) :
    ∃ a', getChunk fmt start stop dir a chunk = some a' ∧
      Assembled fmt start stop (done ++ points) a' := by
  unfold getChunk
  split
  · have hd := decompress_full points (.new 1024) 0 hfit (by simp [TextBuffer.new])
      (by simp [TextBuffer.new])
    simp only [hread.1, decompressChunk]
    have hstart : (TextBuffer.new 1024).text.length = 0 := rfl
    rw [hstart] at hd
    rw [hd]
    have hneed := @le_grow a.result (a.currentLen + (rowsText fmt start stop points).length + 1)
      (a.currentLen + (rowsText fmt start stop points).length + 2048) (by omega)
    simp only [Option.bind_some, appendDisk, TextBuffer.new, List.nil_append, Nat.zero_add]
    rw [strcat_eq (by rw [grow_text, ← ha.length]; exact hneed)]
    refine ⟨_, rfl, ⟨?_, ?_, hneed, ?_⟩⟩
    · simp [ha.text, rowsText_append]
    · simp [ha.length]
    · simp [ha.size, inRange_append]
  · rename_i hskip
    have hnone := pruned hread.2 hskip
    refine ⟨a, rfl, ⟨?_, ha.length, ha.room, ?_⟩⟩
    · rw [rowsText_append, ha.text, rowsText_nil hnone, List.append_nil]
    · rw [inRange_append, inRange_nil hnone, List.append_nil, ha.size]

theorem getChunk_bound {dir : Dir V} {chunk : ChunkMetadata} {done points : List (Point V)}
    {a a' : Answer} (ha : Bounded fmt start stop done a) (hread : ReadsAs dir chunk points)
    (h : getChunk fmt start stop dir a chunk = some a') :
    Bounded fmt start stop (done ++ points) a' := by
  unfold getChunk at h
  split at h
  · simp only [hread.1, decompressChunk] at h
    obtain ⟨disk, hdisk, h⟩ := Option.bind_eq_some_iff.mp h
    obtain ⟨hle, hcount⟩ := decompress_bound points (.new 1024) 0 0 (by simp [TextBuffer.new]) hdisk
    obtain ⟨result, hcat, rfl⟩ := Option.map_eq_some_iff.mp h
    have htext := strcat_text hcat
    rw [grow_text] at htext
    refine ⟨?_, ?_, ?_⟩
    · have hdone := ha.text
      simp only [TextBuffer.new, List.length_nil] at hle
      rw [htext, cutLength_append, List.length_append]
      omega
    · rw [htext, List.length_append, ha.length]
    · rw [inRange_append, List.length_append, ha.size, hcount, Nat.zero_add]
  · rename_i hskip
    have hnone := pruned hread.2 hskip
    obtain rfl := Option.some.inj h
    refine ⟨?_, ha.length, ?_⟩
    · exact ha.text.trans (by rw [cutLength_append]; exact Nat.le_add_right _ _)
    · rw [inRange_append, inRange_nil hnone, List.append_nil, ha.size]

theorem chunks_full {dir : Dir V} {chunks : List ChunkMetadata} {flushed : List (List (Point V))}
    (hreads : List.Forall₂ (ReadsAs dir) chunks flushed) {done : List (Point V)} {a : Answer}
    (ha : Assembled fmt start stop done a)
    (hfit : ∀ p ∈ flushed.flatten, InRange start stop p → RowFits fmt p) :
    ∃ a', chunks.foldlM (getChunk fmt start stop dir) a = some a' ∧
      Assembled fmt start stop (done ++ flushed.flatten) a' := by
  induction hreads generalizing done a with
  | nil => exact ⟨a, rfl, by simpa using ha⟩
  | cons hread _ ih =>
    rw [List.flatten_cons] at hfit
    obtain ⟨a1, h1, ha1⟩ := getChunk_full ha hread fun p hp => hfit p (List.mem_append_left _ hp)
    obtain ⟨a2, h2, ha2⟩ := ih ha1 fun p hp => hfit p (List.mem_append_right _ hp)
    refine ⟨a2, ?_, by simpa using ha2⟩
    rw [List.foldlM_cons, h1]
    exact h2

theorem chunks_bound {dir : Dir V} {chunks : List ChunkMetadata} {flushed : List (List (Point V))}
    (hreads : List.Forall₂ (ReadsAs dir) chunks flushed) {done : List (Point V)} {a a' : Answer}
    (ha : Bounded fmt start stop done a)
    (h : chunks.foldlM (getChunk fmt start stop dir) a = some a') :
    Bounded fmt start stop (done ++ flushed.flatten) a' := by
  induction hreads generalizing done a with
  | nil =>
    obtain rfl := Option.some.inj h
    simpa using ha
  | cons hread _ ih =>
    rw [List.foldlM_cons] at h
    obtain ⟨a1, h1, h⟩ := Option.bind_eq_some_iff.mp h
    simpa using ih (getChunk_bound ha hread h1) h

theorem getValue_size {head : HeadBlock V} {ram : Text × Nat}
    (h : getValue fmt start stop head = some ram) :
    ram.2 = (inRange start stop head.points).length := by
  have hloop (points : List (Point V)) (buf : TextBuffer) (offset size : Nat)
      {out : TextBuffer × Nat}
      (h : getValueLoop fmt start stop points buf offset size = some out) :
      out.2 = size + (inRange start stop points).length := by
    induction points generalizing buf offset size with
    | nil =>
      obtain rfl := Option.some.inj h
      simp [inRange]
    | cons p points ih =>
      unfold getValueLoop at h
      split at h
      · rename_i hin
        obtain ⟨tmp, _, h⟩ := Option.bind_eq_some_iff.mp h
        obtain ⟨buf', _, h⟩ := Option.bind_eq_some_iff.mp h
        rw [ih _ _ _ h]
        simp [inRange, hin]
        omega
      · rename_i hin
        rw [ih _ _ _ h]
        simp [inRange, hin]
  unfold getValue at h
  obtain ⟨out, hout, h⟩ := Option.bind_eq_some_iff.mp h
  obtain ⟨_, _, h⟩ := Option.bind_eq_some_iff.mp h
  obtain ⟨_, _, h⟩ := Option.bind_eq_some_iff.mp h
  obtain ⟨_, _, rfl⟩ := Option.map_eq_some_iff.mp h
  simpa using hloop _ _ _ _ hout

theorem getValue_none {head : HeadBlock V} (h : ∀ p ∈ head.points, ¬ InRange start stop p) :
    getValue fmt start stop head = some ("(0 points)\n".toList, 0) := by
  have hloop (points : List (Point V)) (h : ∀ p ∈ points, ¬ InRange start stop p) :
      getValueLoop fmt start stop points (.new 128) 0 0 = some (.new 128, 0) := by
    induction points with
    | nil => rfl
    | cons p points ih =>
      rw [getValueLoop, if_neg (h p (by simp))]
      exact ih fun q hq => h q (List.mem_cons_of_mem _ hq)
  rw [getValue, hloop _ h]
  rfl

/-- The copied summary cuts off everything that came from the head. -/
theorem getFinish_eq {a : Answer} (hlen : a.currentLen = a.result.text.length) (ram : Text × Nat) :
    getFinish a ram = some (a.result.text ++ pointsLine (a.size + ram.2), a.size + ram.2) := by
  have hneed := @le_grow a.result (a.currentLen + ram.1.length + 1)
    (a.currentLen + ram.1.length + 1) le_rfl
  unfold getFinish
  dsimp only
  rw [strcat_eq (by rw [grow_text, ← hlen]; exact hneed), Option.bind_some]
  rw [strcpyAt_inside (by simp [hlen]) (le_grow le_rfl)]
  simp [hlen]

theorem fullAnswer_append (xs ys : List (Point V)) : fullAnswer fmt start stop (xs ++ ys) =
    (rowsText fmt start stop xs ++ rowsText fmt start stop ys ++
      pointsLine (inRange start stop (xs ++ ys)).length, (inRange start stop (xs ++ ys)).length) := by
  rw [← rowsText_append]
  rfl

theorem getMetric_iff {m : MetricState V} {flushed : List (List (Point V))}
    (hreads : List.Forall₂ (ReadsAs m.dir) m.entry.chunks flushed) :
    getMetric fmt start stop m =
        some (fullAnswer fmt start stop (flushed.flatten ++ m.entry.head.points)) ↔
      (∀ p ∈ m.entry.head.points, ¬ InRange start stop p) ∧
        ∀ p ∈ flushed.flatten, InRange start stop p → RowFits fmt p := by
  constructor
  · intro hsome
    obtain ⟨a, ha, hout⟩ := Option.bind_eq_some_iff.mp hsome
    obtain ⟨ram, hram, hfin⟩ := Option.bind_eq_some_iff.mp hout
    have hb := chunks_bound hreads bounded_start ha
    rw [List.nil_append] at hb
    have hsize : a.size + ram.2 =
        (inRange start stop (flushed.flatten ++ m.entry.head.points)).length := by
      rw [inRange_append, List.length_append, hb.size, getValue_size hram]
    rw [getFinish_eq hb.length, hsize, fullAnswer_append, Option.some.injEq, Prod.mk.injEq] at hfin
    have htext := congrArg List.length hfin.1
    have hcut := hb.text
    have hle := @cutLength_le V fmt start stop flushed.flatten
    rw [List.length_append, List.length_append, List.length_append] at htext
    refine ⟨fun p hp hin => ?_, fun p hp hin => ?_⟩
    · have hpos := @rowsText_pos V fmt start stop _ p hp hin
      omega
    · by_contra hlong
      have hlt := cutLength_lt hp hin hlong
      omega
  · rintro ⟨hhead, hfit⟩
    obtain ⟨a, ha, hA⟩ := chunks_full hreads assembled_start hfit
    rw [List.nil_append] at hA
    rw [getMetric, ha, Option.bind_some, getValue_none hhead, Option.bind_some,
      getFinish_eq hA.length, fullAnswer_append, hA.text, hA.size, inRange_append,
      inRange_nil hhead, rowsText_nil hhead, List.append_nil, List.append_nil]
    rfl

/-- `Head_GET` returns every accepted point of the range and nothing else exactly when the head
has no point there and every row from disk fits `temp`. -/
theorem get_complete_iff {dataDir : Text} {j : Journal V}
    (h : Serving dataDir (opensFresh dataDir) j) {metric : Text} {m : MetricState V}
    (hm : hashFindStr metric j.store = some m) (fmt : V → Text) (start stop : Int) :
    storedPoints m = j.accepted metric ∧
      (headGet fmt start stop metric j.store =
          some (some (fullAnswer fmt start stop (storedPoints m))) ↔
        (∀ p ∈ m.entry.head.points, ¬ InRange start stop p) ∧
          ∀ p ∈ m.entry.chunks.flatMap (chunkPoints m.dir), InRange start stop p → RowFits fmt p) := by
  obtain ⟨flushed, hd⟩ := serving_onDisk h hm
  refine ⟨hd.stored, ?_⟩
  have hget : headGet fmt start stop metric j.store = (getMetric fmt start stop m).map some := by
    rw [headGet, hm]
  have hinj : Function.Injective (some : Text × Nat → Option (Text × Nat)) :=
    Option.some_injective _
  rw [hget, ← Option.map_some, (Option.map_injective hinj).eq_iff, storedPoints, List.flatMap_def,
    Readable.points hd.readable]
  exact getMetric_iff (OnDisk.reads hd)

/-- A point that has been flushed is found. -/
theorem get_complete_iff_flushed : ∃ (j : Journal Nat) (m : MetricState Nat),
    hashFindStr ['m'] j.store = some m ∧
    metricAfter ['d'] [(⟨0, .ok⟩, ['m'], .put ⟨5, 1⟩), (⟨0, .ok⟩, ['m'], .flush)] ['m'] = some m ∧
    headGet decimal 0 10 ['m'] j.store =
      some (some (fullAnswer decimal 0 10 (storedPoints m))) := by
  obtain ⟨m, hm, hp⟩ := Option.map_eq_some_iff.mp (show (metricAfter ['d']
    [(⟨0, .ok⟩, ['m'], .put ⟨5, 1⟩), (⟨0, .ok⟩, ['m'], .flush)] ['m']).map
      (fun m : MetricState Nat => (m.entry.head.points, m.entry.chunks.flatMap (chunkPoints m.dir))) =
      some ([], [⟨5, 1⟩]) by decide)
  obtain ⟨j, hj, hfind⟩ := serving_metricAfter (opensFresh ['d']) (by decide) hm
  obtain ⟨hhead, hdisk⟩ := Prod.mk.inj hp
  refine ⟨j, m, hfind, hm, (get_complete_iff hj hfind decimal 0 10).2.mpr ?_⟩
  rw [hhead, hdisk]
  exact ⟨by simp, by simp only [List.mem_singleton, forall_eq, RowFits]; decide⟩

/-- A point that is still in the head is counted, but its row is gone. -/
theorem get_loses_head : ¬ ∀ (dataDir : Text) (j : Journal Nat) (metric : Text)
    (m : MetricState Nat) (fmt : Nat → Text) (start stop : Int),
    Serving dataDir (opensFresh dataDir) j → hashFindStr metric j.store = some m →
    headGet fmt start stop metric j.store =
      some (some (fullAnswer fmt start stop (storedPoints m))) := by
  intro h
  obtain ⟨m, hm, hp⟩ := Option.map_eq_some_iff.mp (show (metricAfter ['d']
    [(⟨0, .ok⟩, ['m'], .put ⟨5, 1⟩)] ['m']).map
      (fun m : MetricState Nat => (getMetric decimal 0 10 m,
        fullAnswer decimal 0 10 (storedPoints m))) =
      some (some ("(1 points)\n".toList, 1), ("5\t1\n(1 points)\n".toList, 1)) by decide)
  obtain ⟨j, hj, hfind⟩ := serving_metricAfter (opensFresh ['d']) (by decide) hm
  have hget := h ['d'] j ['m'] m decimal 0 10 hj hfind
  obtain ⟨hlost, hfull⟩ := Prod.mk.inj hp
  rw [headGet, hfind, hfull] at hget
  simp only [hlost] at hget
  exact absurd hget (by decide)

end Tsdb.GetAnswer
