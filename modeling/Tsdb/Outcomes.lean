import Tsdb.Exactness

namespace Tsdb.Outcomes

open CStrings Head Files Registry Sections History Service Disk Exactness Runs

variable {V : Type} {dataDir : Text}

structure Attempt (V : Type) where
  unset : Int
  io : ChunkIO
  metric : Text
  order : Order V

def orderHead (dataDir metric : Text) (io : ChunkIO) (m : MetricState V) :
    Order V → Bool × MetricState V
  | .put point => putHead dataDir metric io point m
  | .flush => flushHead dataDir metric io m

def accept (accepted : List (Point V)) (res : Bool) : Order V → List (Point V)
  | .put point => if res then accepted ++ [point] else accepted
  | .flush => accepted

def request (dataDir : Text) (j : Journal V) (x : Attempt V) : Option (Journal V) :=
  (getMetricFromHashTable x.unset x.metric x.order.isPut j.store).map fun m =>
    let (res, m') := orderHead dataDir x.metric x.io m x.order
    ⟨j.store.set x.metric m',
      Function.update j.accepted x.metric (accept (j.accepted x.metric) res x.order)⟩

/-- What the result of `chunkwrite` tells of the outcome. -/
def told : ChunkIO → FlushIO
  | .ok => .ok
  | .openFails => .openFails
  | .writeFails => .writeFails
  | .closeFails => .ok

/-- `fclose` has what it was given, or nothing is flushed. -/
def Closes (io : ChunkIO) (order : Order V) (m : MetricState V) : Prop :=
  io = .closeFails → Order.flushes m order → m.entry.head.points = []

instance (io : ChunkIO) (order : Order V) (m : MetricState V) : Decidable (Closes io order m) :=
  decidable_of_iff (io = .closeFails → Order.flushes m order → m.entry.head.points.isEmpty = true)
    (by rw [List.isEmpty_iff]; rfl)

def Attempt.call (x : Attempt V) : Call V := (⟨x.unset, told x.io⟩, x.metric, x.order)

theorem orderHead_told {metric : Text} {io : ChunkIO} {order : Order V} {m : MetricState V}
    (h : Closes io order m) :
    orderHead dataDir metric io m order = orderHead dataDir metric (told io).chunk m order := by
  cases io with
  | ok | openFails | writeFails => rfl
  | closeFails =>
    cases order with
    | put point =>
      rw [orderHead, orderHead, putHead_eq, putHead_eq]
      by_cases hfull : headCapacity ≤ m.entry.head.size
      · have hnil := h rfl hfull
        simp [HeadBlock.size, hnil, headCapacity] at hfull
      · rw [if_neg hfull, if_neg hfull]
    | flush =>
      have hnil := h rfl trivial
      rw [orderHead, orderHead, flushHead, flushHead]
      split
      · rfl
      · rename_i hp
        rw [hnil] at hp
        cases hp

theorem request_call {j : Journal V} {x : Attempt V}
    (h : ∀ m ∈ getMetricFromHashTable x.unset x.metric x.order.isPut j.store,
      Closes x.io x.order m) : request dataDir j x = call dataDir j x.call := by
  obtain ⟨unset, io, metric, order⟩ := x
  unfold request call serve Attempt.call
  cases order with
  | put point =>
    unfold headPut
    cases hm : getMetricFromHashTable unset metric true j.store with
    | none => simp [Order.isPut, hm]
    | some m =>
      have he := @orderHead_told V dataDir metric io _ m (h m hm)
      simp only [Order.isPut, hm, he, Option.map_some]
      rfl
  | flush =>
    unfold headFlush
    cases hm : getMetricFromHashTable unset metric false j.store with
    | none => simp [Order.isPut, hm]
    | some m =>
      have he := @orderHead_told V dataDir metric io _ m (h m hm)
      simp only [Order.isPut, hm, he, Option.map_some, accept, Function.update_eq_self]
      rfl

/-- The metric has a directory of its own, `fclose` has what it was given, and the guard lets the
request through. -/
def Proper (guard : Guard V) (j : Journal V) (x : Attempt V) : Prop :=
  EntryName x.metric ∧
    ∀ m ∈ getMetricFromHashTable x.unset x.metric x.order.isPut j.store,
      Closes x.io x.order m ∧ guard x.metric (told x.io) x.order m

instance (guard : Guard V) [∀ metric io order m, Decidable (guard metric io order m)]
    (j : Journal V) (x : Attempt V) : Decidable (Proper guard j x) :=
  inferInstanceAs (Decidable (EntryName x.metric ∧
    ∀ m ∈ getMetricFromHashTable x.unset x.metric x.order.isPut j.store,
      Closes x.io x.order m ∧ guard x.metric (told x.io) x.order m))

def Handling (dataDir : Text) (guard : Guard V) : Journal V → Prop :=
  Reach (fun j => j = Journal.empty) (Guarded (Proper guard) (request dataDir))

theorem Handling.serving {guard : Guard V} {j : Journal V} (h : Handling dataDir guard j) :
    Serving dataDir guard j := by
  apply h.invariant
  · exact fun j hj => .start hj
  · rintro x j j' hj ⟨⟨_, hproper⟩, hrun⟩
    refine .next x.call hj ⟨fun m hm => (hproper m hm).2, ?_⟩
    rw [← request_call fun m hm => (hproper m hm).1]
    exact hrun

theorem serving_mono {guard guard' : Guard V} (hle : ∀ metric io order m,
      guard metric io order m → guard' metric io order m) {j : Journal V}
    (h : Serving dataDir guard j) : Serving dataDir guard' j :=
  Reach.mono (fun _ _ _ hs => ⟨fun m hm => hle _ _ _ m (hs.1 m hm), hs.2⟩) h

/-- Chunk files are distinct, and give back what is flushed. -/
def keepsFlushed (dataDir : Text) (bits : V → BitVec 64) : Guard V := fun metric io order m =>
  opensFresh dataDir metric io order m ∧ flushesExact bits metric io order m

instance (bits : V → BitVec 64) (metric : Text) (io : FlushIO) (order : Order V)
    (m : MetricState V) : Decidable (keepsFlushed dataDir bits metric io order m) :=
  inferInstanceAs (Decidable (_ ∧ _))

theorem Handling.fresh {bits : V → BitVec 64} {j : Journal V}
    (h : Handling dataDir (keepsFlushed dataDir bits) j) : Serving dataDir (opensFresh dataDir) j :=
  serving_mono (fun _ _ _ _ hguard => hguard.1) h.serving

/-- One metric after a sequence of requests to a new server. -/
def handledMetric (dataDir : Text) (requests : List (Attempt V)) (metric : Text) :
    Option (MetricState V) :=
  (requests.foldlM (request dataDir) Journal.empty).bind fun j => hashFindStr metric j.store

theorem handling_handledMetric (guard : Guard V) {requests : List (Attempt V)} {metric : Text}
    {m : MetricState V} (hallowed : Allowed (Proper guard) (request dataDir) requests Journal.empty)
    (hm : handledMetric dataDir requests metric = some m) :
    ∃ j, Handling dataDir guard j ∧ hashFindStr metric j.store = some m := by
  obtain ⟨j, hj, hm⟩ := Option.bind_eq_some_iff.mp hm
  exact ⟨j, .run (.start rfl) requests hallowed hj, hm⟩

end Tsdb.Outcomes
