import Tsdb.History
import Tsdb.Runs

namespace Tsdb.Clients

open CStrings Head Files Registry History Runs

variable {V ι : Type} [DecidableEq ι]

/-- Where a client thread stands when it does not hold the head's lock: outside `Head_PUT`, or
inside it before its `headflush` or before its second attempt. -/
inductive Place (V : Type) where
  | outside
  | beforeFlush (point : Point V)
  | beforeRetry (point : Point V)
  deriving DecidableEq, Repr

structure System (V ι : Type) where
  ledger : Ledger V
  place : ι → Place V

def System.start (unset : Int) : System V ι := ⟨Ledger.new unset, fun _ => .outside⟩

/-- The next section of one client: a `PUT` begins, goes on to its flush, retries, or a
`FLUSH` runs. -/
inductive Action (V ι : Type) where
  | attempt (client : ι) (point : Point V)
  | fallback (client : ι) (io : FlushIO)
  | retry (client : ι)
  | flush (client : ι) (io : FlushIO)

def System.act (dataDir metric : Text) (s : System V ι) : Action V ι → Option (System V ι)
  | .attempt client point =>
    match s.place client with
    | .outside =>
      let (res, ledger) := s.ledger.put point
      let next := if !res ∧ headCapacity ≤ ledger.metric.entry.head.size
        then .beforeFlush point else .outside
      some ⟨ledger, Function.update s.place client next⟩
    | _ => none
  | .fallback client io =>
    match s.place client with
    | .beforeFlush point =>
      some ⟨(s.ledger.flush dataDir metric io).2,
        Function.update s.place client (.beforeRetry point)⟩
    | _ => none
  | .retry client =>
    match s.place client with
    | .beforeRetry point =>
      some ⟨(s.ledger.put point).2, Function.update s.place client .outside⟩
    | _ => none
  | .flush client io =>
    match s.place client with
    | .outside => some ⟨(s.ledger.flush dataDir metric io).2, s.place⟩
    | _ => none

def Reachable (dataDir metric : Text) : System V ι → Prop :=
  Reach (fun s => ∃ unset, s = System.start unset)
    (fun action s s' => s.act dataDir metric action = some s')

theorem act_section {dataDir metric : Text} {s s' : System V ι} {action : Action V ι}
    (h : s.act dataDir metric action = some s') :
    ∃ x, s'.ledger = (s.ledger.run dataDir metric x).2 := by
  cases action with
  | attempt client point =>
    cases hp : s.place client <;> simp only [System.act, hp, reduceCtorEq, Option.some.injEq] at h
    exact ⟨.put point, by rw [← h]; rfl⟩
  | fallback client io =>
    cases hp : s.place client <;> simp only [System.act, hp, reduceCtorEq, Option.some.injEq] at h
    exact ⟨.flush io, by rw [← h]; rfl⟩
  | retry client =>
    cases hp : s.place client <;> simp only [System.act, hp, reduceCtorEq, Option.some.injEq] at h
    rename_i point
    exact ⟨.put point, by rw [← h]; rfl⟩
  | flush client io =>
    cases hp : s.place client <;> simp only [System.act, hp, reduceCtorEq, Option.some.injEq] at h
    exact ⟨.flush io, by rw [← h]; rfl⟩

theorem reachable_conserved {dataDir metric : Text} {s : System V ι}
    (h : Reachable dataDir metric s) : Conserved s.ledger := by
  refine Reach.invariant (fun s => Conserved s.ledger) ?_ ?_ h
  · rintro _ ⟨unset, rfl⟩
    exact conserved_new unset
  · intro action s s' hs hact
    obtain ⟨x, hx⟩ := act_section hact
    rw [hx]
    exact conserved_run hs dataDir metric x

/-- Whenever the lock is free, the accepted points are the flushed ones followed by the head's,
the head is in order, and every chunk entry bounds what was flushed into it. -/
theorem interleaving_conserves {dataDir metric : Text} {s : System V ι}
    (h : Reachable dataDir metric s) :
    let entry := s.ledger.metric.entry
    s.ledger.accepted = s.ledger.flushed.flatten ++ entry.head.points ∧
      entry.head.points.length ≤ headCapacity ∧
      entry.head.points.Pairwise (fun p q => p.ts ≤ q.ts) ∧
      (∀ p ∈ entry.head.points.getLast?, entry.head.lastTimestamp = p.ts) ∧
      List.Forall₂ Describes entry.chunks s.ledger.flushed :=
  have hc := reachable_conserved h
  ⟨hc.conserved, hc.ordered.room, hc.ordered.sorted, hc.ordered.newest, hc.described⟩

theorem interleaving_conserves_two_clients : ∃ s : System Nat Bool,
    s.ledger.accepted = [⟨5, 1⟩, ⟨7, 2⟩] ∧ s.ledger.flushed = [[⟨5, 1⟩]] ∧
      s.ledger.accepted = s.ledger.flushed.flatten ++ s.ledger.metric.entry.head.points :=
  ⟨_, rfl, rfl, (@interleaving_conserves Nat Bool _ ['d'] ['m'] _
    (.next (.attempt true ⟨7, 2⟩) (.next (.flush false .ok) (.next (.attempt true ⟨5, 1⟩)
      (.start ⟨0, rfl⟩) rfl) rfl) rfl)).1⟩

end Tsdb.Clients
