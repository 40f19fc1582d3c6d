import Tsdb.Disk
import Tsdb.Downsample
import Tsdb.Outcomes
import Tsdb.PutAnswer
import Tsdb.Runs

namespace Tsdb.QueryScan

open CStrings Head Files Registry Sections History Service Disk Query Aggregate Downsample PutAnswer
  Exactness Outcomes Runs

variable {V : Type}

/-- Where a call of `Head_AGG` stands between two steps of its raw path: before a test of
`i < chunkCount`, behind the loop with the head's lock not yet taken, or done. -/
inductive Scan (V : Type) where
  | waiting
  | scanning (i : Nat) (pts : List (Point V))
  | scanned (pts : List (Point V))
  | collected (pts : List (Point V))
  | failed
  deriving DecidableEq

structure Watch (V : Type) where
  ledger : Ledger V
  scan : Scan V
  before : List (Point V)

def Watch.start (unset : Int) : Watch V := ⟨Ledger.new unset, .waiting, []⟩

/-- The next step is the query's, or a section of some client's `Head_PUT` or `headflush`. -/
inductive Step (V : Type) where
  | query
  | put (point : Point V)
  | flush (io : ChunkIO)

section Query

variable (bits : V → BitVec 64) (dataDir metric : Text) (start stop : Int)

def flushLedger (io : ChunkIO) (l : Ledger V) : Ledger V :=
  let (res, m) := flushHead dataDir metric io l.metric
  ⟨m, l.accepted, if res ∧ l.metric.entry.head.points ≠ []
    then l.flushed ++ [l.metric.entry.head.points] else l.flushed⟩

theorem flushLedger_told {io : ChunkIO} {l : Ledger V} (h : Closes io (.flush : Order V) l.metric) :
    flushLedger dataDir metric io l = (l.flush dataDir metric (told io)).2 := by
  have he : flushHead dataDir metric io l.metric =
      flushHead dataDir metric (told io).chunk l.metric := orderHead_told h
  unfold flushLedger Ledger.flush flushSection
  rw [he]

def scanChunk (dir : Dir V) (chunk : ChunkMetadata) (i : Nat) (pts : List (Point V)) : Scan V :=
  if chunk.startTs < stop ∧ start ≤ chunk.endTs then
    match collectPointsFromChunk start stop dir chunk.filename with
    | none => .failed
    | some more => .scanning (i + 1) (pts ++ more)
  else .scanning (i + 1) pts

def Watch.step (s : Watch V) : Step V → Option (Watch V)
  | .put point => some { s with ledger := (s.ledger.put point).2 }
  | .flush io => some { s with ledger := flushLedger dataDir metric io s.ledger }
  | .query =>
    match s.scan with
    | .waiting => some ⟨s.ledger, .scanning 0 [], s.ledger.accepted⟩
    | .scanning i pts =>
      match s.ledger.metric.entry.chunks[i]? with
      | none => some { s with scan := .scanned pts }
      | some chunk => some { s with scan := scanChunk start stop s.ledger.metric.dir chunk i pts }
    | .scanned pts =>
      let pts := pts ++ collectPointsFromHead start stop s.ledger.metric.entry.head
      some { s with scan := .collected pts }
    | .collected _ => none
    | .failed => none

def early (s : Watch V) : List (Point V) :=
  s.ledger.metric.entry.head.points.take (s.before.length - s.ledger.flushed.flatten.length)

def Scan.beforeHead : Scan V → Bool
  | .scanned _ => true
  | _ => false

/-- The metric has a directory of its own, and every flush a file of its own that gives back what
is flushed. While the query has left the chunk loop and has not got to the head, no flush moves an
early point of its range. -/
def Admits (s : Watch V) : Step V → Prop
  | .query => True
  | .put _ => EntryName metric
  | .flush io =>
    (EntryName metric ∧ Closes io (.flush : Order V) s.ledger.metric ∧
      keepsFlushed dataDir bits metric (told io) .flush s.ledger.metric) ∧
    (s.scan.beforeHead = true → FlushSucceeds dataDir metric (told io) s.ledger.metric →
      ∀ p ∈ early s, ¬ InRange start stop p)

instance (s : Watch V) : ∀ x : Step V, Decidable (Admits bits dataDir metric start stop s x)
  | .query => .isTrue trivial
  | .put _ => inferInstanceAs (Decidable (EntryName metric))
  | .flush io => inferInstanceAs (Decidable
      ((EntryName metric ∧ Closes io (.flush : Order V) s.ledger.metric ∧
        keepsFlushed dataDir bits metric (told io) .flush s.ledger.metric) ∧
      (s.scan.beforeHead = true → FlushSucceeds dataDir metric (told io) s.ledger.metric →
        ∀ p ∈ early s, ¬ InRange start stop p)))

def Watched : Watch V → Prop :=
  Reach (fun s => ∃ unset, s = Watch.start unset)
    (Guarded (Admits bits dataDir metric start stop) (Watch.step dataDir metric start stop))

end Query

variable {dataDir metric : Text} {start stop : Int}

/-- The chunk loop from the entry `i` on, when nobody else takes a step. -/
theorem quiet_loop {l : Ledger V} {before : List (Point V)} {raw : List (Point V)} {k i : Nat}
    {pts : List (Point V)} (hk : i + k = l.metric.entry.chunks.length)
    (h : ((l.metric.entry.chunks.drop i).filter fun chunk =>
        chunk.startTs < stop ∧ start ≤ chunk.endTs).foldlM
      (fun points chunk => (collectPointsFromChunk start stop l.metric.dir chunk.filename).map
        (points ++ ·)) pts = some raw) :
    (List.replicate k Step.query).foldlM (Watch.step dataDir metric start stop)
      ⟨l, .scanning i pts, before⟩ = some ⟨l, .scanning l.metric.entry.chunks.length raw, before⟩ := by
  induction k generalizing i pts with
  | zero =>
    rw [List.drop_of_length_le (by omega)] at h
    obtain rfl := Option.some.inj h
    rw [← hk]
    rfl
  | succ k ih =>
    have hlt : i < l.metric.entry.chunks.length := by omega
    rw [List.drop_eq_getElem_cons hlt] at h
    rw [List.replicate_succ, List.foldlM_cons]
    have hstep : Watch.step dataDir metric start stop ⟨l, .scanning i pts, before⟩ .query =
        some ⟨l, scanChunk start stop l.metric.dir l.metric.entry.chunks[i] i pts, before⟩ := by
      simp only [Watch.step, List.getElem?_eq_getElem hlt]
    rw [hstep, Option.bind_eq_bind, Option.bind_some, scanChunk]
    by_cases hover : l.metric.entry.chunks[i].startTs < stop ∧
        start ≤ l.metric.entry.chunks[i].endTs
    · rw [List.filter_cons_of_pos (by simpa using hover), List.foldlM_cons] at h
      obtain ⟨more, hmore, h⟩ := Option.bind_eq_some_iff.mp h
      obtain ⟨ps, hps, rfl⟩ := Option.map_eq_some_iff.mp hmore
      rw [if_pos hover, hps]
      exact ih (by omega) h
    · rw [List.filter_cons_of_neg (by simpa using hover)] at h
      rw [if_neg hover]
      exact ih (by omega) h

/-- A query that nobody disturbs collects what `Head_AGG` aggregates on its raw path. -/
theorem quiet_query {l : Ledger V} {raw : List (Point V)}
    (h : collectRaw start stop l.metric = some raw) (before : List (Point V)) :
    (List.replicate (l.metric.entry.chunks.length + 3) Step.query).foldlM
      (Watch.step dataDir metric start stop) ⟨l, .waiting, before⟩ =
      some ⟨l, .collected (raw ++ collectPointsFromHead start stop l.metric.entry.head),
        l.accepted⟩ := by
  have hloop := @quiet_loop V dataDir metric start stop l l.accepted raw
    l.metric.entry.chunks.length 0 [] (Nat.zero_add _) h
  have hsplit : List.replicate (l.metric.entry.chunks.length + 3) (Step.query : Step V) =
      .query :: (List.replicate l.metric.entry.chunks.length .query ++ [.query, .query]) := by
    rw [List.replicate_succ, List.replicate_add]
    rfl
  rw [hsplit, List.foldlM_cons]
  have hfirst : Watch.step dataDir metric start stop ⟨l, .waiting, before⟩ .query =
      some ⟨l, .scanning 0 [], l.accepted⟩ := rfl
  rw [hfirst, Option.bind_eq_bind, Option.bind_some, List.foldlM_append, hloop,
    Option.bind_eq_bind, Option.bind_some]
  simp [Watch.step]

end Tsdb.QueryScan
