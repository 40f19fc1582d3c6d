import Tsdb.History
import Tsdb.Runs

namespace Tsdb.Service

open CStrings Head Files Registry History Runs

variable {V : Type}

inductive Order (V : Type) where
  | put (point : Point V)
  | flush

def Order.isPut : Order V → Bool
  | .put _ => true
  | .flush => false

/-- The store and, for every metric, the points `Head_PUT` said yes to. -/
structure Journal (V : Type) where
  store : Store V
  accepted : Text → List (Point V)

def Journal.empty : Journal V := ⟨Store.empty, fun _ => []⟩

/-- One request; `none` is the null pointer of a `FLUSH` for an unknown metric. -/
def serve (dataDir : Text) (env : Env) (metric : Text) (j : Journal V) :
    Order V → Option (Bool × Journal V)
  | .put point =>
    (headPut dataDir env metric point j.store).map fun (res, store) =>
      (res, ⟨store, Function.update j.accepted metric
        (if res then j.accepted metric ++ [point] else j.accepted metric)⟩)
  | .flush =>
    (headFlush dataDir env metric j.store).map fun (res, store) => (res, ⟨store, j.accepted⟩)

def Order.run (dataDir metric : Text) (io : FlushIO) (l : Ledger V) : Order V → Bool × Ledger V
  | .put point => l.putLocked dataDir metric io point
  | .flush => l.flush dataDir metric io

abbrev Guard (V : Type) := Text → FlushIO → Order V → MetricState V → Prop

def Guard.all : Guard V := fun _ _ _ _ => True

abbrev Call (V : Type) := Env × Text × Order V

def call (dataDir : Text) (j : Journal V) (x : Call V) : Option (Journal V) :=
  (serve dataDir x.1 x.2.1 j x.2.2).map Prod.snd

def admits (guard : Guard V) (j : Journal V) (x : Call V) : Prop :=
  ∀ m ∈ getMetricFromHashTable x.1.unset x.2.1 x.2.2.isPut j.store, guard x.2.1 x.1.io x.2.2 m

instance (guard : Guard V) [∀ metric io order m, Decidable (guard metric io order m)]
    (j : Journal V) (x : Call V) : Decidable (admits guard j x) :=
  inferInstanceAs (Decidable (∀ m ∈ getMetricFromHashTable x.1.unset x.2.1 x.2.2.isPut j.store,
    guard x.2.1 x.1.io x.2.2 m))

def Serving (dataDir : Text) (guard : Guard V) : Journal V → Prop :=
  Reach (fun j => j = Journal.empty) (Guarded (admits guard) (call dataDir))

theorem admits_all (j : Journal V) (x : Call V) : admits Guard.all j x := fun _ _ => trivial

def metricAfter (dataDir : Text) (calls : List (Call V)) (metric : Text) :
    Option (MetricState V) :=
  (calls.foldlM (call dataDir) Journal.empty).bind fun j => hashFindStr metric j.store

theorem serving_metricAfter {dataDir : Text} (guard : Guard V) {calls : List (Call V)}
    {metric : Text} {m : MetricState V}
    (hallowed : Allowed (admits guard) (call dataDir) calls Journal.empty)
    (hm : metricAfter dataDir calls metric = some m) :
    ∃ j, Serving dataDir guard j ∧ hashFindStr metric j.store = some m := by
  obtain ⟨j, hj, hm⟩ := Option.bind_eq_some_iff.mp hm
  exact ⟨j, .run (.start rfl) calls hallowed hj, hm⟩

theorem serve_ledger {dataDir metric : Text} {env : Env} {order : Order V} {j j' : Journal V}
    {res : Bool} (h : serve dataDir env metric j order = some (res, j'))
    (flushed : List (List (Point V))) :
    ∃ m ∈ getMetricFromHashTable env.unset metric order.isPut j.store,
      let out := order.run dataDir metric env.io ⟨m, j.accepted metric, flushed⟩
      res = out.1 ∧ j'.store = j.store.set metric out.2.metric ∧
        j'.accepted = Function.update j.accepted metric out.2.accepted := by
  cases order with
  | put point =>
    unfold serve headPut at h
    cases hm : getMetricFromHashTable env.unset metric true j.store with
    | none => simp [hm] at h
    | some m =>
      have hmet := putLocked_metric dataDir metric env.io point ⟨m, j.accepted metric, flushed⟩
      have hacc := putLocked_accepted dataDir metric env.io point ⟨m, j.accepted metric, flushed⟩
      simp only [hm, ← hmet, Option.map_some, Option.some.injEq, Prod.mk.injEq] at h
      obtain ⟨rfl, rfl⟩ := h
      refine ⟨m, hm, rfl, rfl, ?_⟩
      simp only [Order.run, hacc]
  | flush =>
    unfold serve headFlush at h
    cases hm : getMetricFromHashTable env.unset metric false j.store with
    | none => simp [hm] at h
    | some m =>
      simp only [hm, Option.map_some, Option.some.injEq, Prod.mk.injEq] at h
      obtain ⟨rfl, rfl⟩ := h
      refine ⟨m, hm, rfl, rfl, ?_⟩
      exact (Function.update_eq_self metric j.accepted).symm

def Holds (I : Text → Ledger V → Prop) (j : Journal V) (metric : Text) : Prop :=
  match hashFindStr metric j.store with
  | some m => ∃ flushed, I metric ⟨m, j.accepted metric, flushed⟩
  | none => j.store.dirOf metric = Dir.empty ∧ j.accepted metric = []

theorem Holds.found {I : Text → Ledger V → Prop} {j : Journal V} {metric : Text}
    (h : Holds I j metric) {m : MetricState V} (hm : hashFindStr metric j.store = some m) :
    ∃ flushed, I metric ⟨m, j.accepted metric, flushed⟩ := by
  unfold Holds at h
  rwa [hm] at h

theorem Holds.get {I : Text → Ledger V → Prop} {j : Journal V} {metric : Text}
    (h : Holds I j metric) (hnew : ∀ unset, I metric (Ledger.new unset)) {unset : Int}
    {flag : Bool} {m : MetricState V}
    (hm : m ∈ getMetricFromHashTable unset metric flag j.store) :
    ∃ flushed, I metric ⟨m, j.accepted metric, flushed⟩ := by
  obtain hf | ⟨hf, -, rfl⟩ := getMetric_cases hm
  · exact h.found hf
  · unfold Holds at h
    simp only [hf] at h
    rw [h.1, h.2]
    exact ⟨[], hnew unset⟩

/-- What holds of a new metric and survives every request to it holds of all metrics. -/
theorem serving_invariant {dataDir : Text} {guard : Guard V} (I : Text → Ledger V → Prop)
    (hnew : ∀ metric unset, I metric (Ledger.new unset))
    (hstep : ∀ metric io (order : Order V) l, I metric l → guard metric io order l.metric →
      I metric (order.run dataDir metric io l).2)
    {j : Journal V} (h : Serving dataDir guard j) (metric : Text) : Holds I j metric := by
  refine Reach.invariant (fun j => ∀ k, Holds I j k) ?_ ?_ h metric
  · rintro _ rfl k
    exact ⟨rfl, rfl⟩
  · rintro ⟨env, name, order⟩ j _ hj ⟨hguard, hrun⟩ k
    obtain ⟨⟨res, j'⟩, hserve, rfl⟩ := Option.map_eq_some_iff.mp hrun
    obtain ⟨m, hm, _⟩ := serve_ledger hserve []
    obtain ⟨flushed, hI⟩ := (hj name).get (hnew name) hm
    obtain ⟨m', hm', _, hstore, hacc⟩ := serve_ledger hserve flushed
    obtain rfl := Option.mem_unique hm hm'
    unfold Holds
    rw [hstore, hacc]
    by_cases hk : k = name
    · subst hk
      rw [find_set, Function.update_self]
      exact ⟨_, hstep k env.io order _ hI (hguard m hm)⟩
    · rw [find_set_ne _ hk, dirOf_set_ne _ hk, Function.update_of_ne hk]
      exact hj k

end Tsdb.Service
