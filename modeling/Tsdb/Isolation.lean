import Tsdb.ListRoom
import Tsdb.Server
import Tsdb.TwoStores

namespace Tsdb.Isolation

open CStrings Head Files Registry Sections Query Aggregate Downsample Server Service CoarseDirs
  MinutePasses Folds OwnFiles TwoStores Outcomes ListRoom Runs

variable {V : Type}

/-- The names that clients use. The directory of `.` would be the data directory itself, where
its log and its chunk files lie among the directories of other metrics. -/
def MetricName (name : Text) : Prop :=
  0 < name.length ∧ name.length ≤ 63 ∧ '/' ∉ name ∧ name ≠ ['.']

instance (name : Text) : Decidable (MetricName name) :=
  inferInstanceAs (Decidable (_ ∧ _ ∧ _ ∧ _))

inductive Operation (V : Type) where
  | request (unset : Int) (io : ChunkIO) (metric : Text) (order : Order V)
  | downsample (pass : Pass)

def Operation.metric : Operation V → Option Text
  | .request _ _ metric _ => some metric
  | .downsample _ => none

def ClientNames (ops : List (Operation V)) : Prop := ∀ op ∈ ops, ∀ k ∈ op.metric, MetricName k

/-- The run without the operations on `b`. A pass stays, and finds no `b` to go over. -/
def without (b : Text) (ops : List (Operation V)) : List (Operation V) :=
  ops.filter fun op => op.metric ≠ some b

/-- The operation is no request for `b` that kills the server: a `FLUSH` finds an entry, and a flush
finds room in its chunk list. -/
def Spares (dataDir b : Text) (s : Store V) : Operation V → Prop
  | .request unset io metric order => metric = b →
    ∃ m ∈ getMetricFromHashTable unset metric order.isPut s, HasRoom dataDir metric io order m
  | .downsample _ => True

theorem put_spares {dataDir b k : Text} {s : Store V} (hnone : hashFindStr k s = none) (unset : Int)
    (io : ChunkIO) (point : Point V) :
    Spares dataDir b s (.request unset io k (.put point)) := by
  intro _
  refine ⟨⟨⟨getNewHeadBlock unset, [], 4⟩, s.dirOf k⟩, ?_, fun _ _ => show 0 < 2 ^ 14 by decide⟩
  rw [Order.isPut, getMetricFromHashTable, hnone]
  rfl

section Answers

variable [Zero V] [Add V] [Div V] [NatCast V]

def Operation.run (dataDir : Text) (s : Store V) : Operation V → Option (Store V)
  | .request unset io metric order => (handleOrder dataDir unset io metric order s).map Prod.snd
  | .downsample pass => some (pass.run s)

variable [LT V] [DecidableLT V]

def SameAnswers (dataDir metric : Text) (s s' : Store V) : Prop :=
  ∀ (fmts : Formats V) (env : Env) (request : Request V), request.metric = metric →
    request.type ∈ [CommandType.get, .agg, .stats] →
    (processRequest fmts dataDir dataDir env request s).map Prod.fst =
      (processRequest fmts dataDir dataDir env request s').map Prod.fst

/-- Two servers answer alike about the metric, or both have died. -/
def Alive (dataDir metric : Text) : Option (Store V) → Option (Store V) → Prop
  | some s, some s' => SameAnswers dataDir metric s s'
  | none, none => True
  | _, _ => False

/-- After each of these operations `a` answers as in the run without the operations on `b`. -/
def Isolated (dataDir a b : Text) (ops : List (Operation V)) : Prop :=
  ∀ pre, pre <+: ops → Alive dataDir a (pre.foldlM (Operation.run dataDir) Store.empty)
    ((without b pre).foldlM (Operation.run dataDir) Store.empty)

end Answers

abbrev ordered (dataDir metric : Text) (io : ChunkIO) (m : MetricState V) (order : Order V) :
    MetricState V :=
  (orderHead dataDir metric io m order).2

theorem ordered_same {dataDir metric : Text} {m m' : MetricState V}
    (h : SameMetric dataDir metric m m') (io : ChunkIO) (order : Order V) :
    SameMetric dataDir metric (ordered dataDir metric io m order)
      (ordered dataDir metric io m' order) := by
  cases order with
  | put point => exact putHead_same h io point
  | flush => exact flushHead_same h io

theorem ordered_named {dataDir metric : Text} {m : MetricState V}
    (h : Named dataDir metric m.entry) (io : ChunkIO) (order : Order V) :
    Named dataDir metric (ordered dataDir metric io m order).entry := by
  cases order with
  | put point => exact named_putHead h io point
  | flush => exact named_flush h io

theorem listed_same {dataDir metric : Text} {m m' : MetricState V}
    (h : SameMetric dataDir metric m m') (io : ChunkIO) (order : Order V) :
    listed m (ordered dataDir metric io m order) = none ∧
        listed m' (ordered dataDir metric io m' order) = none ∨
      listed m (ordered dataDir metric io m order) = some (ordered dataDir metric io m order) ∧
        listed m' (ordered dataDir metric io m' order) =
          some (ordered dataDir metric io m' order) := by
  have hafter := (ordered_same h io order).entry
  unfold listed
  rw [← h.entry, ← hafter]
  split
  · exact .inl ⟨rfl, rfl⟩
  · exact .inr ⟨rfl, rfl⟩

variable [Zero V] [Add V] [Div V] [NatCast V] {dataDir a b : Text} {s s' t : Store V}

theorem request_run {unset : Int} {io : ChunkIO} {k : Text} {order : Order V} :
    Operation.run dataDir s (.request unset io k order) =
      (getMetricFromHashTable unset k order.isPut s).bind fun m =>
        (listed m (ordered dataDir k io m order)).map (s.set k) := by
  rw [Operation.run, handleOrder]
  cases getMetricFromHashTable unset k order.isPut s with
  | none => rfl
  | some m =>
    rw [Option.bind_some, Option.bind_some, Option.map_map]
    rfl

theorem request_sets {unset : Int} {io : ChunkIO} {k : Text} {order : Order V}
    (hrun : Operation.run dataDir s (.request unset io k order) = some t) : ∃ m, t = s.set k m := by
  rw [request_run] at hrun
  obtain ⟨m, _, hrun⟩ := Option.bind_eq_some_iff.mp hrun
  obtain ⟨out, _, rfl⟩ := Option.map_eq_some_iff.mp hrun
  exact ⟨out, rfl⟩

theorem Alike.request (h : Alike dataDir b s s') {unset : Int} {io : ChunkIO} {k : Text}
    (hk : k ≠ b) {order : Order V}
    (hrun : Operation.run dataDir s (.request unset io k order) = some t) :
    ∃ t', Operation.run dataDir s' (.request unset io k order) = some t' ∧ Alike dataDir b t t' := by
  rw [request_run] at hrun ⊢
  obtain ⟨m, hm, hrun⟩ := Option.bind_eq_some_iff.mp hrun
  obtain ⟨m', hm', hsame, hnamed, heq⟩ := h.get hk hm
  rcases listed_same hsame io order with ⟨hlisted, _⟩ | ⟨hlisted, hlisted'⟩
  · rw [hlisted] at hrun
    cases hrun
  rw [hlisted] at hrun
  obtain rfl := Option.some.inj hrun
  rw [hm', Option.bind_some, hlisted']
  refine ⟨_, rfl, h.set hk (ordered_same hsame io order) (ordered_named hnamed io order) ?_⟩
  intro hcoarse
  rw [heq hcoarse]

/-- A request for another metric kills both servers or none. -/
theorem Alike.request_dies (h : Alike dataDir b s s') {unset : Int} {io : ChunkIO} {k : Text}
    (hk : k ≠ b) {order : Order V}
    (hrun : Operation.run dataDir s (.request unset io k order) = none) :
    Operation.run dataDir s' (.request unset io k order) = none := by
  rw [request_run] at hrun ⊢
  cases hm : getMetricFromHashTable unset k order.isPut s with
  | none => rw [h.get_none hk hm, Option.bind_none]
  | some m =>
    obtain ⟨m', hm', hsame, _⟩ := h.get hk hm
    rw [hm, Option.bind_some] at hrun
    rw [hm', Option.bind_some]
    rcases listed_same hsame io order with ⟨_, hlisted'⟩ | ⟨hlisted, _⟩
    · rw [hlisted', Option.map_none]
    · rw [hlisted] at hrun
      cases hrun

theorem request_lives (h : Sized s) {unset : Int} {io : ChunkIO} {k : Text} {order : Order V} :
    (∃ t, Operation.run dataDir s (.request unset io k order) = some t) ↔
      ∃ m ∈ getMetricFromHashTable unset k order.isPut s, HasRoom dataDir k io order m := by
  rw [← handleOrder_iff h, Operation.run]
  constructor
  · rintro ⟨t, ht⟩
    obtain ⟨out, hout, _⟩ := Option.map_eq_some_iff.mp ht
    exact ⟨out, hout⟩
  · rintro ⟨out, hout⟩
    exact ⟨_, Option.map_eq_some_iff.mpr ⟨out, hout, rfl⟩⟩

theorem run_sized (h : Sized s) {op : Operation V} (hrun : Operation.run dataDir s op = some t) :
    Sized t := by
  cases op with
  | request unset io k order =>
    obtain ⟨out, hout, rfl⟩ := Option.map_eq_some_iff.mp hrun
    exact handleOrder_sized h hout
  | downsample pass =>
    obtain rfl := Option.some.inj hrun
    intro k entry hentry
    rw [pass_registry] at hentry
    exact h k entry hentry

theorem Alike.request_left (h : Alike dataDir b s s') {unset : Int} {io : ChunkIO}
    {order : Order V} (hrun : Operation.run dataDir s (.request unset io b order) = some t) :
    Alike dataDir b t s' := by
  obtain ⟨m, rfl⟩ := request_sets hrun
  exact h.set_left m

/-- The two runs while the requests for `b` spare the server: both go on, or both have died. -/
theorem spared_run {ops : List (Operation V)} (h : Alike dataDir b s s') (hsized : Sized s)
    (hspared : Allowed (Spares dataDir b) (Operation.run dataDir) ops s) :
    ops.foldlM (Operation.run dataDir) s = none ∧
        (without b ops).foldlM (Operation.run dataDir) s' = none ∨
      ∃ t t', ops.foldlM (Operation.run dataDir) s = some t ∧
        (without b ops).foldlM (Operation.run dataDir) s' = some t' ∧ Alike dataDir b t t' := by
  induction ops generalizing s s' with
  | nil => exact .inr ⟨s, s', rfl, rfl, h⟩
  | cons op ops ih =>
    obtain ⟨hspares, hrest⟩ := hspared
    rw [List.foldlM_cons]
    by_cases hop : op.metric = some b
    · have hwithout : without b (op :: ops) = without b ops :=
        List.filter_cons_of_neg (by simpa using hop)
      rw [hwithout]
      cases op with
      | downsample pass => cases hop
      | request unset io k order =>
        obtain rfl : k = b := Option.some.inj hop
        obtain ⟨t, hrun⟩ := (request_lives hsized).mpr (hspares rfl)
        rw [hrun]
        exact ih (Alike.request_left h hrun) (run_sized hsized hrun) (hrest t hrun)
    · have hwithout : without b (op :: ops) = op :: without b ops :=
        List.filter_cons_of_pos (by simpa using hop)
      rw [hwithout, List.foldlM_cons]
      cases hrun : Operation.run dataDir s op with
      | none =>
        left
        cases op with
        | downsample pass => cases hrun
        | request unset io k order =>
          rw [Alike.request_dies h (fun hk => hop (congrArg some hk)) hrun]
          exact ⟨rfl, rfl⟩
      | some t =>
        obtain ⟨t', hrun', halike⟩ : ∃ t', Operation.run dataDir s' op = some t' ∧
            Alike dataDir b t t' := by
          cases op with
          | request unset io k order =>
            exact Alike.request h (fun hk => hop (congrArg some hk)) hrun
          | downsample pass =>
            obtain rfl := Option.some.inj hrun
            exact ⟨_, rfl, h.pass pass⟩
        rw [hrun']
        exact ih halike (run_sized hsized hrun) (hrest t hrun)

/-- A request for `b` that does not spare the server ends the run with it, and only that one. -/
theorem spared_of_alive {ops : List (Operation V)} (h : Alike dataDir b s s') (hsized : Sized s)
    (halive : ∀ pre, pre <+: ops → pre.foldlM (Operation.run dataDir) s = none →
      (without b pre).foldlM (Operation.run dataDir) s' = none) :
    Allowed (Spares dataDir b) (Operation.run dataDir) ops s := by
  induction ops generalizing s s' with
  | nil => trivial
  | cons op ops ih =>
    have hfirst := halive [op] ⟨ops, rfl⟩
    constructor
    · cases op with
      | downsample pass => trivial
      | request unset io k order =>
        rintro rfl
        by_contra hdies
        have hnone : Operation.run dataDir s (.request unset io k order) = none := by
          rw [← Option.not_isSome_iff_eq_none, Option.isSome_iff_exists, request_lives hsized]
          exact hdies
        have hwithout : without k [Operation.request unset io k order] = [] := by
          simp [without, Operation.metric]
        rw [hwithout, List.foldlM_cons, hnone] at hfirst
        cases hfirst rfl
    · intro t hrun
      have hnext (t' : Store V) (hwithout : ∀ pre, (without b (op :: pre)).foldlM
            (Operation.run dataDir) s' = (without b pre).foldlM (Operation.run dataDir) t')
          (halike : Alike dataDir b t t') :
          Allowed (Spares dataDir b) (Operation.run dataDir) ops t := by
        refine ih halike (run_sized hsized hrun) fun pre hpre hdead => ?_
        rw [← hwithout]
        refine halive (op :: pre) (List.cons_prefix_cons.mpr ⟨rfl, hpre⟩) ?_
        rw [List.foldlM_cons, hrun]
        exact hdead
      cases op with
      | downsample pass =>
        obtain rfl := Option.some.inj hrun
        exact hnext _ (fun pre => by
          rw [without, List.filter_cons_of_pos (by simp [Operation.metric])]
          rfl) (h.pass pass)
      | request unset io k order =>
        by_cases hk : k = b
        · subst hk
          exact hnext s' (fun pre => by
            rw [without, List.filter_cons_of_neg (by simp [Operation.metric])]
            rfl) (Alike.request_left h hrun)
        · obtain ⟨t', hrun', halike⟩ := Alike.request h hk hrun
          exact hnext t' (fun pre => by
            rw [without, List.filter_cons_of_pos (by simpa [Operation.metric] using hk),
              List.foldlM_cons, hrun']
            rfl) halike

section Queries

omit [Zero V] [Add V] [Div V] [NatCast V]

theorem getMetric_same {m m' : MetricState V} (h : SameMetric dataDir a m m')
    (hnamed : Named dataDir a m.entry) (fmt : V → Text) (start stop : Int) :
    getMetric fmt start stop m = getMetric fmt start stop m' := by
  unfold getMetric
  rw [← h.entry]
  congr 1
  apply foldlM_congr
  intro answer chunk hc
  unfold getChunk
  rw [h.chunkFile hnamed hc]

theorem collectRaw_same {m m' : MetricState V} (h : SameMetric dataDir a m m')
    (hnamed : Named dataDir a m.entry) (start stop : Int) :
    collectRaw start stop m = collectRaw start stop m' := by
  unfold collectRaw
  rw [← h.entry]
  apply foldlM_congr
  intro points chunk hc
  unfold collectPointsFromChunk
  rw [h.chunkFile hnamed (List.mem_of_mem_filter hc)]

theorem headGet_alike (h : Alike dataDir b s s') (hab : a ≠ b) (fmt : V → Text) (start stop : Int) :
    headGet fmt start stop a s = headGet fmt start stop a s' := by
  unfold headGet
  rcases h.find hab with ⟨hf, hf'⟩ | ⟨m, m', hf, hf', hsame, hnamed, _⟩
  · rw [hf, hf']
  · rw [hf, hf']
    dsimp only
    rw [getMetric_same hsame hnamed]

theorem headStats_alike (h : Alike dataDir b s s') (hab : a ≠ b) : headStats a s = headStats a s' := by
  unfold headStats
  rcases h.find hab with ⟨hf, hf'⟩ | ⟨m, m', hf, hf', hsame, _⟩
  · rw [hf, hf']
  · rw [hf, hf']
    dsimp only
    rw [hsame.entry]

theorem aggCollect_same {m m' : MetricState V} (h : SameMetric dataDir a m m')
    (hnamed : Named dataDir a m.entry)
    (hcoarse : s.dirOf (downsampleCoarseDir a) = s'.dirOf (downsampleCoarseDir a))
    (start stop bucketSeconds : Int) :
    aggCollect dataDir a start stop bucketSeconds s m =
      aggCollect dataDir a start stop bucketSeconds s' m' := by
  unfold aggCollect downsampleShouldUse
  rw [hcoarse, collectRaw_same h hnamed, h.entry]

end Queries

variable [LT V] [DecidableLT V]

theorem headAgg_alike (h : Alike dataDir b s s') (hab : a ≠ b) (hb : b ≠ downsampleCoarseDir a)
    (start stop bucketSeconds : Int) (func : Text) :
    headAgg dataDir a start stop bucketSeconds func s =
      headAgg dataDir a start stop bucketSeconds func s' := by
  have hcoarse := h.dirs (downsampleCoarseDir a) hb.symm fun heq => hab (coarseDir_injective heq)
  unfold headAgg
  rcases h.find hab with ⟨hf, hf'⟩ | ⟨m, m', hf, hf', hsame, hnamed, _⟩
  · rw [hf, hf']
  · rw [hf, hf']
    dsimp only
    rw [aggCollect_same hsame hnamed hcoarse]

theorem alike_answers (h : Alike dataDir b s s') (hab : a ≠ b) (hb : b ≠ downsampleCoarseDir a) :
    SameAnswers dataDir a s s' := by
  intro fmts env request hmetric htype
  unfold processRequest
  cases hcase : request.type with
  | get =>
    simp only [handleGet, hmetric]
    rw [headGet_alike h hab]
    simp only [Option.map_map]
    rfl
  | agg =>
    simp only [handleAgg, hmetric]
    rw [headAgg_alike h hab hb]
    rfl
  | stats =>
    simp only [hmetric]
    rw [headStats_alike h hab]
    rfl
  | put => simp [hcase] at htype
  | flush => simp [hcase] at htype
  | quit => simp [hcase] at htype

end Tsdb.Isolation
