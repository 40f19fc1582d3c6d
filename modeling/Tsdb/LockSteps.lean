import Tsdb.Clients
import Tsdb.Critical

namespace Tsdb.LockSteps

open CStrings Head Files Wal Registry Sections Runs
open History (Ledger)
open Clients (Place Action)
open Critical (Code Section Whole Outside Move Between section_inl section_inr section_ends
  reach_between)

variable {V ι : Type} [DecidableEq ι] {dataDir metric : Text}

/-- Where a thread stands that has the head's lock: before `PUT_value` or `wal_append` in
`Head_PUT`, or before a step of `headflush`. -/
inductive Spot (V : Type) where
  | putValue (point : Point V) (again : Bool)
  | walAppend (point : Point V)
  | checkSize (io : FlushIO) (next : Place V)
  | mkdir (io : FlushIO) (next : Place V)
  | fopen (io : FlushIO) (next : Place V)
  | fwrite (io : FlushIO) (next : Place V)
  | addChunk (next : Place V)
  | clearHead (next : Place V)
  | walTruncate (next : Place V)

inductive Call (V : Type) where
  | attempt (point : Point V)
  | fallback (io : FlushIO)
  | retry
  | flush (io : FlushIO)

def Call.action (client : ι) : Call V → Action V ι
  | .attempt point => .attempt client point
  | .fallback io => .fallback client io
  | .retry => .retry client
  | .flush io => .flush client io

def enter : Place V → Call V → Option (Spot V)
  | .outside, .attempt point => some (.putValue point false)
  | .beforeFlush point, .fallback io => some (.checkSize io (.beforeRetry point))
  | .beforeRetry point, .retry => some (.putValue point true)
  | .outside, .flush io => some (.checkSize io .outside)
  | _, _ => none

def inDir (f : Dir V → Dir V) (l : Ledger V) : Ledger V :=
  { l with metric := ⟨l.metric.entry, f l.metric.dir⟩ }

def inEntry (f : MetricRegistry V → MetricRegistry V) (l : Ledger V) : Ledger V :=
  { l with metric := ⟨f l.metric.entry, l.metric.dir⟩ }

/-- One step under the lock. The points of the head stay in place until `clearHead`, so that every
step of a flush finds the same first point. -/
def step (dataDir metric : Text) (spot : Spot V) (l : Ledger V) : (Spot V ⊕ Place V) × Ledger V :=
  let head := l.metric.entry.head
  match spot with
  | .putValue point again =>
    match putValue head point with
    | (true, head) =>
      (.inl (.walAppend point), inEntry (fun entry => { entry with head := head }) l)
    | (false, _) =>
      (.inr (if !again ∧ headCapacity ≤ head.size then .beforeFlush point else .outside), l)
  | .walAppend point =>
    (.inr .outside, inDir (walAppend · point) { l with accepted := l.accepted ++ [point] })
  | .checkSize io next => if head.points = [] then (.inr next, l) else (.inl (.mkdir io next), l)
  | .mkdir io next => (.inl (.fopen io next), inDir Dir.mkdir l)
  | .fopen io next =>
    match head.points.head? with
    | none => (.inr next, l)
    | some first =>
      let name := flushName dataDir metric first
      if name = [] ∨ io = .openFails then (.inr next, l)
      else (.inl (.fwrite io next), inDir (fopenWb · name) l)
  | .fwrite io next =>
    match head.points.head? with
    | none => (.inr next, l)
    | some first =>
      if io = .writeFails then (.inr next, l)
      else (.inl (.addChunk next), inDir (chunkWrite · (flushName dataDir metric first)
        ⟨first.ts, (head.points.getLastD first).ts, head.points⟩) l)
  | .addChunk next =>
    match head.points.head? with
    | none => (.inr next, l)
    | some first =>
      (.inl (.clearHead next), inEntry (Registry.addChunk ·
        ⟨first.ts, head.lastTimestamp, flushName dataDir metric first⟩) l)
  | .clearHead next =>
    (.inl (.walTruncate next), inEntry (fun entry => { entry with head := ⟨[], 0⟩ })
      { l with flushed := l.flushed ++ [head.points] })
  | .walTruncate next => (.inr next, inDir Wal.walTruncate l)

def code (dataDir metric : Text) : Code (Ledger V) (Place V) (Call V) (Spot V) :=
  ⟨enter, step dataDir metric⟩

abbrev Threads (V ι : Type) := Critical.System ι (Ledger V) (Place V) (Spot V)

def Stepping (dataDir metric : Text) : Threads V ι → Prop :=
  Reach (fun c => ∃ unset, c = ⟨Ledger.new unset, fun _ => .inl .outside, none⟩)
    (Move (code dataDir metric))

theorem section_put {point : Point V} {again : Bool} {l l' : Ledger V} {place : Place V}
    (h : Section (code dataDir metric) (.putValue point again) l place l') :
    l' = (l.put point).2 ∧
      place = if !again ∧ !(l.put point).1 ∧ headCapacity ≤ (l.put point).2.metric.entry.head.size
        then .beforeFlush point else .outside := by
  unfold Ledger.put putSection
  cases hput : putValue l.metric.entry.head point with
  | mk res head =>
    cases res with
    | true =>
      have hstep : step dataDir metric (.putValue point again) l = (.inl (.walAppend point),
          inEntry (fun entry => { entry with head := head }) l) := by rw [step, hput]
      rw [section_inl hstep, section_inr rfl] at h
      obtain ⟨rfl, rfl⟩ := h
      exact ⟨rfl, by simp⟩
    | false =>
      have hstep : step dataDir metric (.putValue point again) l =
          (.inr (if !again ∧ headCapacity ≤ l.metric.entry.head.size then .beforeFlush point
            else .outside), l) := by rw [step, hput]
      rw [section_inr hstep] at h
      obtain ⟨rfl, rfl⟩ := h
      exact ⟨rfl, by simp⟩

section Flush

variable {first : Point V} {rest : List (Point V)} {io : FlushIO} {next : Place V} {l : Ledger V}

theorem step_fopen_fails (hp : l.metric.entry.head.points = first :: rest)
    (hfail : flushName dataDir metric first = [] ∨ io = .openFails) :
    step dataDir metric (.fopen io next) l = (.inr next, l) := by
  rw [step, hp]
  exact if_pos hfail

theorem step_fopen (hp : l.metric.entry.head.points = first :: rest)
    (hopen : ¬ (flushName dataDir metric first = [] ∨ io = .openFails)) :
    step dataDir metric (.fopen io next) l =
      (.inl (.fwrite io next), inDir (fopenWb · (flushName dataDir metric first)) l) := by
  rw [step, hp]
  exact if_neg hopen

theorem step_fwrite (hp : l.metric.entry.head.points = first :: rest) :
    step dataDir metric (.fwrite io next) l =
      if io = .writeFails then (.inr next, l)
      else (.inl (.addChunk next), inDir (chunkWrite · (flushName dataDir metric first)
        ⟨first.ts, ((first :: rest).getLastD first).ts, first :: rest⟩) l) := by
  rw [step, hp]
  rfl

theorem step_addChunk (hp : l.metric.entry.head.points = first :: rest) :
    step dataDir metric (.addChunk next) l =
      (.inl (.clearHead next), inEntry (Registry.addChunk ·
        ⟨first.ts, l.metric.entry.head.lastTimestamp, flushName dataDir metric first⟩) l) := by
  rw [step, hp]
  rfl

theorem flush_eq (hp : l.metric.entry.head.points = first :: rest) :
    (l.flush dataDir metric io).2 =
      let opened := inDir (fopenWb · (flushName dataDir metric first)) (inDir Dir.mkdir l)
      if flushName dataDir metric first = [] ∨ io = .openFails then inDir Dir.mkdir l
      else if io = .writeFails then opened
      else inDir Wal.walTruncate (inEntry (fun entry => { entry with head := ⟨[], 0⟩ })
        { inEntry (Registry.addChunk · ⟨first.ts, l.metric.entry.head.lastTimestamp,
            flushName dataDir metric first⟩) (inDir (chunkWrite · (flushName dataDir metric first)
              ⟨first.ts, ((first :: rest).getLastD first).ts, first :: rest⟩) opened) with
          flushed := l.flushed ++ [l.metric.entry.head.points] }) := by
  have hlast : (first :: rest).getLastD first =
      (first :: rest).getLast (List.cons_ne_nil first rest) := by
    rw [List.getLastD_eq_getLast?, List.getLast?_eq_some_getLast (List.cons_ne_nil first rest),
      Option.getD_some]
  unfold Ledger.flush flushSection flushHead chunkwrite flushName
  rw [hp, hlast]
  by_cases hname : chunkName dataDir metric (chunkId first.ts) = []
  · simp [hname, inDir]
  · cases io <;> simp [hname, inDir, inEntry, FlushIO.chunk]

theorem section_flush {place : Place V} {l' : Ledger V}
    (h : Section (code dataDir metric) (.checkSize io next) l place l') :
    place = next ∧ l' = (l.flush dataDir metric io).2 := by
  cases hp : l.metric.entry.head.points with
  | nil =>
    have hstep : step dataDir metric (.checkSize io next) l = (.inr next, l) := by
      rw [step, hp]
      rfl
    rw [section_inr hstep] at h
    obtain ⟨rfl, rfl⟩ := h
    refine ⟨rfl, ?_⟩
    unfold Ledger.flush flushSection flushHead
    rw [hp]
    simp
  | cons first rest =>
    have hstep : step dataDir metric (.checkSize io next) l = (.inl (.mkdir io next), l) := by
      rw [step, hp]
      rfl
    -- the head stays as it is until `clearHead`
    have hmade : (inDir Dir.mkdir l).metric.entry.head.points = first :: rest := hp
    rw [section_inl hstep, section_inl rfl] at h
    rw [flush_eq hp]
    by_cases hfail : flushName dataDir metric first = [] ∨ io = .openFails
    · rw [section_inr (step_fopen_fails hmade hfail)] at h
      rw [if_pos hfail]
      exact h
    · rw [section_inl (step_fopen hmade hfail)] at h
      rw [if_neg hfail]
      have hopened : (inDir (fopenWb · (flushName dataDir metric first))
          (inDir Dir.mkdir l)).metric.entry.head.points = first :: rest := hp
      have hwrite := @step_fwrite V dataDir metric first rest io next _ hopened
      by_cases hio : io = .writeFails
      · rw [if_pos hio] at hwrite
        rw [section_inr hwrite] at h
        rw [if_pos hio]
        exact h
      · rw [if_neg hio] at hwrite
        rw [section_inl hwrite, section_inl (step_addChunk (by exact hp)), section_inl rfl,
          section_inr rfl] at h
        rw [if_neg hio]
        exact h

end Flush

def Spot.rank : Spot V → Nat
  | .putValue _ _ => 1
  | .walAppend _ => 0
  | .checkSize _ _ => 6
  | .mkdir _ _ => 5
  | .fopen _ _ => 4
  | .fwrite _ _ => 3
  | .addChunk _ => 2
  | .clearHead _ => 1
  | .walTruncate _ => 0

theorem step_rank {spot spot' : Spot V} {l l' : Ledger V}
    (h : (code dataDir metric).step spot l = (.inl spot', l')) : spot'.rank < spot.rank := by
  dsimp only [code, step] at h
  cases spot with
  | walAppend | walTruncate => cases h
  | mkdir | clearHead => cases h; exact Nat.lt_succ_self _
  | putValue point again =>
    dsimp only at h
    split at h <;> cases h
    exact Nat.lt_succ_self _
  | checkSize io next =>
    dsimp only at h
    split at h <;> cases h
    exact Nat.lt_succ_self _
  | addChunk next =>
    dsimp only at h
    split at h <;> cases h
    exact Nat.lt_succ_self _
  | fopen io next | fwrite io next =>
    dsimp only at h
    split at h
    · cases h
    · split at h <;> cases h
      exact Nat.lt_succ_self _

theorem whole_act {i : ι} {call : Call V} {s s' : Outside ι (Ledger V) (Place V)}
    (h : Whole (code dataDir metric) (i, call) s s') :
    Clients.System.act dataDir metric ⟨s.shared, s.place⟩ (call.action i) =
      some ⟨s'.shared, s'.place⟩ := by
  cases h with
  | @run _ _ _ spot place l hk hs =>
    unfold Clients.System.act
    cases call with
    | attempt point =>
      cases hplace : s.place i <;> rw [hplace] at hk <;> cases hk
      obtain ⟨rfl, rfl⟩ := section_put hs
      simp [Call.action, hplace]
    | fallback io =>
      cases hplace : s.place i <;> rw [hplace] at hk <;> cases hk
      obtain ⟨rfl, rfl⟩ := section_flush hs
      simp [Call.action, hplace]
    | retry =>
      cases hplace : s.place i <;> rw [hplace] at hk <;> cases hk
      obtain ⟨rfl, rfl⟩ := section_put hs
      simp [Call.action, hplace]
    | flush io =>
      cases hplace : s.place i <;> rw [hplace] at hk <;> cases hk
      obtain ⟨rfl, rfl⟩ := section_flush hs
      simp only [Call.action, hplace]
      rw [← hplace, Function.update_eq_self]

theorem reach_act {s : Outside ι (Ledger V) (Place V)}
    (h : Reach (fun s => ∃ unset, s = ⟨Ledger.new unset, fun _ => .outside⟩)
      (Whole (code dataDir metric)) s) : Clients.Reachable dataDir metric ⟨s.shared, s.place⟩ := by
  induction h with
  | start h =>
    obtain ⟨unset, rfl⟩ := h
    exact .start ⟨unset, rfl⟩
  | next l _ hwhole ih =>
    obtain ⟨i, call⟩ := l
    exact .next (call.action i) ih (whole_act hwhole)

/-- Between any steps of any number of threads the metric is where whole sections have led, or one
thread has the lock, and can give it back without the others; then its section is a whole one. -/
theorem sections_atomic {c : Threads V ι} (h : Stepping dataDir metric c) :
    ∃ s : Clients.System V ι, Clients.Reachable dataDir metric s ∧
      (∀ i, c.lock ≠ some i → c.thread i = .inl (s.place i)) ∧
      (c.lock = none → c.shared = s.ledger) ∧
      ∀ i, c.lock = some i → ∃ spot, c.thread i = .inr spot ∧
        ∃ place l, Section (code dataDir metric) spot c.shared place l ∧ ∃ action,
          s.act dataDir metric action = some ⟨l, Function.update s.place i place⟩ := by
  have hinit : ∀ c : Threads V ι,
      (∃ unset, c = ⟨Ledger.new unset, fun _ => .inl .outside, none⟩) →
        ∃ s : Outside ι (Ledger V) (Place V), (∃ unset, s = ⟨Ledger.new unset, fun _ => .outside⟩) ∧
          Between (code dataDir metric) c s := by
    rintro _ ⟨unset, rfl⟩
    let s : Outside ι (Ledger V) (Place V) := ⟨Ledger.new unset, fun _ => .outside⟩
    exact ⟨s, ⟨unset, rfl⟩, Between.free s⟩
  obtain ⟨s, hreach, hbetween⟩ := reach_between hinit h
  refine ⟨⟨s.shared, s.place⟩, reach_act hreach, ?_⟩
  cases hbetween with
  | free => exact ⟨fun _ _ => rfl, fun _ => rfl, fun i hi => (nomatch hi)⟩
  | @held _ j call _ spot l hk hin =>
    refine ⟨fun i hi => ?_, fun hnone => (nomatch hnone), fun i hi => ?_⟩
    · have hne : i ≠ j := fun he => hi (congrArg some he.symm)
      dsimp only
      rw [Function.update_of_ne hne]
    · obtain rfl := Option.some.inj hi
      obtain ⟨place, l', hs⟩ := section_ends (fun _ _ _ _ => step_rank) spot l
      refine ⟨spot, ?_, place, l', hs, call.action j, whole_act (.run hk (hin.finish hs))⟩
      dsimp only
      rw [Function.update_self]

/-- One client is inside its flush, with the chunk written and the entry not yet there, while
another waits with a point. -/
theorem sections_atomic_flushing : ∃ (c : Threads Nat Bool) (s : Clients.System Nat Bool),
    Stepping ['d'] ['m'] c ∧ c.lock = some false ∧ c.shared.metric.entry.chunks = [] ∧
      Clients.Reachable ['d'] ['m'] s ∧ c.thread true = .inl (s.place true) := by
  have h0 : Stepping ['d'] ['m']
      (⟨Ledger.new 0, fun _ => .inl .outside, none⟩ : Threads Nat Bool) :=
    .start ⟨0, rfl⟩
  have h1 := h0.next true (.acquire (.attempt ⟨5, 1⟩) rfl rfl rfl)
  have h2 := h1.next true (.step rfl rfl)
  have h3 := h2.next true (.release rfl rfl)
  have h4 := h3.next false (.acquire (.flush .ok) rfl rfl rfl)
  have h5 := h4.next false (.step rfl rfl)
  have h6 := h5.next false (.step rfl rfl)
  have h7 := h6.next false (.step rfl rfl)
  have h8 := h7.next false (.step rfl rfl)
  obtain ⟨s, hs, hout, _⟩ := sections_atomic h8
  exact ⟨_, s, h8, rfl, rfl, hs, hout true (by decide)⟩

end Tsdb.LockSteps
