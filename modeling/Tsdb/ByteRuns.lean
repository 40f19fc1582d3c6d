import Tsdb.Copies
import Tsdb.DirBytes
import Tsdb.Outcomes

namespace Tsdb.ByteRuns

open CStrings Head Files Wal Registry Sections History Service Disk Recovery Loading Shutdown
  Lifetime Runs Reads Keeping Copies Outcomes LittleEndian WalBytes FileBytes DirBytes

/-- A metric with the bytes of its files, the points that `Head_PUT` said yes to, and whether a
process ended with a complete chunk file beside the log of the same points. -/
structure Record where
  metric : ByteMetric
  accepted : List Sample
  doubled : Bool

inductive Step where
  | put (io : Writing) (pad : List Byte) (point : Sample)
  | flush (io : Writing) (pad : List Byte)
  | restart (stop : Stop) (pad : List Byte) (unset : Int) (found : ByteDir)

def Record.run (dataDir metric : Text) (r : Record) : Step → Option Record
  | .put io pad point =>
    let (res, m) := putLocked dataDir metric io pad point r.metric
    some ⟨m, if res then r.accepted ++ [point] else r.accepted, r.doubled⟩
  | .flush io pad => some ⟨(flushSection dataDir metric io pad r.metric).2, r.accepted, r.doubled⟩
  | .restart stop pad unset found =>
    some ⟨loadMetric dataDir metric unset found, r.accepted,
      r.doubled || stop.doubles dataDir metric pad r.metric⟩

structure Listed (dir found : ByteDir) : Prop where
  present : dir.present = found.present
  wal : dir.wal = found.wal
  done : dir.done = found.done
  chunks : dir.chunks.entries.Perm found.chunks.entries

/-- A start finds the bytes that the end of the process left. Clients write at times that rise and
fit into a chunk id, no chunk is written whose gaps or values the codec cannot hold, `fclose` has
what it was given, and `malloc` leaves a new block a time below them all. -/
def Steady (dataDir metric : Text) (r : Record) : Step → Prop
  | .put io pad point =>
    pad.length = 4 ∧ (headCapacity ≤ r.metric.entry.head.size →
        Exactness.Exact id r.metric.entry.head.points ∧ ∀ n, io ≠ .closeFails n) ∧
      (0 ≤ point.ts ∧ point.ts < 2 ^ 32) ∧ ∀ q ∈ r.accepted, q.ts < point.ts
  | .flush io pad => pad.length = 4 ∧ Exactness.Exact id r.metric.entry.head.points ∧
      ∀ n, io = .closeFails n → r.metric.entry.head.points = []
  | .restart stop pad unset found =>
    pad.length = 4 ∧ (stop ≠ .idle → Exactness.Exact id r.metric.entry.head.points) ∧
      (∀ n, stop = .unclosed n → r.metric.entry.head.points = []) ∧
      Listed (stopped dataDir metric stop pad r.metric) found ∧ ∀ q ∈ r.accepted, unset < q.ts

def Written (dataDir metric : Text) : Record → Prop :=
  Reach (fun r => ∃ unset, r = ⟨⟨⟨getNewHeadBlock unset, [], 4⟩, ByteDir.empty⟩, [], false⟩)
    (Guarded (Steady dataDir metric) (Record.run dataDir metric))

def chunkPoints (dir : ByteDir) (chunk : ChunkMetadata) : List Sample :=
  match (dir.chunks.lookup chunk.filename).map chunkFile with
  | some (.whole data) => data.points
  | _ => []

def storedPoints (s : ByteMetric) : List Sample :=
  s.entry.chunks.flatMap (chunkPoints s.dir) ++ s.entry.head.points

variable {dataDir metric : Text}

/-- The bytes are those of a record-level metric that has kept everything. -/
def Sound (dataDir metric : Text) (r : Record) : Prop :=
  ∃ m, StandsFor r.metric m ∧ MetricKept dataDir metric (fun _ => False) m r.accepted ∧
    (r.doubled = false → Single dataDir metric m.dir (filenames m) r.accepted)

theorem closes_outcome {io : Writing} {order : Order (BitVec 64)} {m : MetricState (BitVec 64)}
    (h : ∀ n, io = .closeFails n → Order.flushes m order → m.entry.head.points = []) :
    Closes io.outcome order m := by
  intro hio hflush
  cases io with
  | closeFails n => exact h n rfl hflush
  | ok | openFails | writeFails n => cases hio

theorem stands_listed {b found : ByteDir} {dir : Dir (BitVec 64)} (h : Stands b dir)
    (hlist : Listed b found) : ∃ dir', Relisted dir dir' ∧ Stands found dir' := by
  refine ⟨{ dir with chunks := mapValues chunkFile found.chunks }, ⟨rfl, rfl, ?_⟩, ?_⟩
  · rw [← h.chunks]
    exact hlist.chunks.map _
  · exact ⟨hlist.present.symm.trans h.present, rfl, hlist.wal.symm.trans h.wal, h.long,
      hlist.done.symm.trans h.done⟩

theorem sound_put {r r' : Record} (h : Sound dataDir metric r) (hload : Loadable dataDir metric)
    {io : Writing} {pad : List Byte} {point : Sample}
    (hsteady : Steady dataDir metric r (.put io pad point))
    (hrun : r.run dataDir metric (.put io pad point) = some r') : Sound dataDir metric r' := by
  obtain ⟨m, hstands, hkept, hsingle⟩ := h
  obtain ⟨hpad, hfull, htime, hnew⟩ := hsteady
  rw [hstands.entry] at hfull
  obtain ⟨hres, hafter⟩ := @stands_putLocked r.metric m dataDir metric pad hstands
    (fun hsize => ⟨hpad, hkept.head.room, (hfull hsize).1⟩) io point ⟨by omega, by omega⟩
  have htold : putHead dataDir metric io.outcome point m =
      putLocked dataDir metric (told io.outcome) point m :=
    @orderHead_told _ dataDir metric io.outcome (.put point) m
      (closes_outcome fun n hio hsize => absurd hio ((hfull hsize).2 n))
  rw [htold] at hres hafter
  have hguard : ∀ point', Order.put point = .put point' → Loadable dataDir metric ∧
      (0 ≤ point'.ts ∧ point'.ts < 2 ^ 32) ∧ ∀ q ∈ r.accepted, q.ts < point'.ts := by
    rintro _ ⟨⟩
    exact ⟨hload, htime, hnew⟩
  have hkept' := @metricKept_order _ dataDir metric _ ⟨m, r.accepted, []⟩ hkept (told io.outcome)
    (.put point) hguard
  obtain ⟨hsaid, hleft⟩ := Prod.ext_iff.mp
    (putLocked_metric dataDir metric (told io.outcome) point ⟨m, r.accepted, []⟩)
  dsimp only [Order.run] at hkept' hsaid hleft
  rw [putLocked_accepted, hsaid, hleft, ← hres] at hkept'
  obtain rfl := Option.some.inj hrun
  refine ⟨_, hafter, hkept', fun hnot => ?_⟩
  have hsingle' := @single_order _ dataDir metric _ ⟨m, r.accepted, []⟩ (hsingle hnot) hkept
    (told io.outcome) (.put point) hguard
  dsimp only [Order.run] at hsingle'
  rwa [putLocked_accepted, hsaid, hleft, ← hres] at hsingle'

theorem sound_flush {r r' : Record} (h : Sound dataDir metric r) {io : Writing} {pad : List Byte}
    (hsteady : Steady dataDir metric r (.flush io pad))
    (hrun : r.run dataDir metric (.flush io pad) = some r') : Sound dataDir metric r' := by
  obtain ⟨m, hstands, hkept, hsingle⟩ := h
  obtain ⟨hpad, hexact, hclosed⟩ := hsteady
  rw [hstands.entry] at hexact hclosed
  have hafter := (@stands_flush r.metric m dataDir metric pad hstands
    ⟨hpad, hkept.head.room, hexact⟩ io).2
  have htold : flushHead dataDir metric io.outcome m =
      Registry.flushSection dataDir metric (told io.outcome) m :=
    @orderHead_told _ dataDir metric io.outcome .flush m
      (closes_outcome fun n hio _ => hclosed n hio)
  rw [htold] at hafter
  obtain rfl := Option.some.inj hrun
  exact ⟨_, hafter, metricKept_flush hkept (told io.outcome),
    fun hnot => single_flush (hsingle hnot) hkept (told io.outcome)⟩

theorem sound_restart {r r' : Record} (h : Sound dataDir metric r)
    (hload : Loadable dataDir metric) {stop : Stop} {pad : List Byte} {unset : Int} {found : ByteDir}
    (hsteady : Steady dataDir metric r (.restart stop pad unset found))
    (hrun : r.run dataDir metric (.restart stop pad unset found) = some r') :
    Sound dataDir metric r' := by
  obtain ⟨m, hstands, hkept, hsingle⟩ := h
  obtain ⟨hpad, hexact, hclosed, hlist, hunset⟩ := hsteady
  rw [hstands.entry] at hexact hclosed
  obtain ⟨dir, hleft, hdir⟩ := @stands_stopped r.metric m dataDir metric pad hstands stop hclosed
    fun hstop => ⟨hpad, hkept.head.room, hexact hstop⟩
  obtain ⟨dir', hrelist, hdir'⟩ := stands_listed hdir hlist
  have hcovers := (covers_left hkept hleft).relist hrelist
  obtain rfl := Option.some.inj hrun
  refine ⟨_, stands_load hdir' unset,
    metricKept_loaded hcovers fun p hp => hunset p (hcovers.kept.logged.subset hp), fun hnot => ?_⟩
  obtain ⟨hbefore, hnow⟩ := Bool.or_eq_false_iff.mp hnot
  obtain ⟨names, hleft⟩ := single_left (hsingle hbefore) hkept (fun point hcut => hcut hnow) hleft
  exact single_loaded (hleft.frame (fun name => (hrelist.read name).symm) hrelist.wal.symm) hload
    unset

theorem written_sound {r : Record} (h : Written dataDir metric r)
    (hload : Loadable dataDir metric) :
    Sound dataDir metric r := by
  apply h.invariant
  · rintro _ ⟨unset, rfl⟩
    exact ⟨⟨⟨getNewHeadBlock unset, [], 4⟩, Dir.empty⟩,
      ⟨stands_empty, rfl, fun _ hp => absurd hp List.not_mem_nil⟩,
      metricKept_new dirKept_empty unset, fun _ => single_empty⟩
  · rintro x s s' hs ⟨hsteady, hrun⟩
    cases x with
    | put io pad point => exact sound_put hs hload hsteady hrun
    | flush io pad => exact sound_flush hs hsteady hrun
    | restart stop pad unset found => exact sound_restart hs hload hsteady hrun

theorem chunkPoints_stands {b : ByteDir} {dir : Dir (BitVec 64)} (h : Stands b dir)
    (chunk : ChunkMetadata) : chunkPoints b chunk = Disk.chunkPoints dir chunk := by
  unfold chunkPoints Disk.chunkPoints chunkRead
  rw [← h.chunks, lookup_mapValues]
  cases (b.chunks.lookup chunk.filename).map chunkFile with
  | none => rfl
  | some file => cases file <;> rfl

theorem storedPoints_stands {b : ByteMetric} {m : MetricState (BitVec 64)} (h : StandsFor b m) :
    storedPoints b = Disk.storedPoints m := by
  unfold storedPoints Disk.storedPoints
  rw [h.entry, funext (chunkPoints_stands h.dir)]

/-- Whatever byte of a chunk file a crash or a failed write stops at, the bytes on disk and the
head hold exactly the accepted points, each of them once unless a crash left both the complete file
of a head and its log, and the log holds the records of the head. -/
theorem bytes_hold_points {r : Record} (hload : Loadable dataDir metric)
    (h : Written dataDir metric r) :
    (∀ p, p ∈ storedPoints r.metric ↔ p ∈ r.accepted) ∧
      (r.doubled = false → (storedPoints r.metric).Perm r.accepted) ∧
      r.metric.dir.wal.getD [] = r.metric.entry.head.points.flatMap recordBytes := by
  obtain ⟨m, hstands, hkept, hsingle⟩ := written_sound h hload
  have hlog : logBytes m.dir.wal = r.metric.dir.wal := hstands.dir.wal.symm
  refine ⟨fun p => ?_, fun hnot => ?_, ?_⟩
  · rw [storedPoints_stands hstands, Disk.storedPoints, List.mem_append, List.mem_flatMap]
    constructor
    · rintro (⟨chunk, _, hp⟩ | hp)
      · obtain ⟨data, hread, hdata⟩ := mem_chunkPoints hp
        exact (hkept.dir.files _ data hread).2.2.1 hdata
      · rw [← hkept.log] at hp
        exact hkept.dir.logged.subset hp
    · intro hp
      rcases hkept.covered p hp with hhead | hgone | ⟨chunk, hchunk, hfile, _⟩
      · exact .inr hhead
      · exact hgone.elim
      · exact .inl ⟨chunk, hchunk, hfile⟩
  · rw [storedPoints_stands hstands]
    exact (hsingle hnot).points hkept
  · rw [← hlog, hstands.entry, ← hkept.log]
    cases m.dir.wal <;> rfl

private def pad : List Byte := [1, 2, 3, 4]

private def start : Record := ⟨⟨⟨getNewHeadBlock 0, [], 4⟩, ByteDir.empty⟩, [], false⟩

private def put (r : Record) (ts : Int) : Record :=
  ((r.run ['d'] ['m'] (.put .ok pad ⟨ts, 0x4045400000000000⟩)).getD r)

private def left : ByteDir := stopped ['d'] ['m'] (.bytes 40) pad (put (put start 5) 7).metric

private def back : Record :=
  ⟨loadMetric ['d'] ['m'] 0 left, (put (put start 5) 7).accepted, false⟩

/-- The file of the first flush was cut short; a second flush, after a restart, writes it anew. -/
theorem bytes_hold_points_torn : ∃ r, Written ['d'] ['m'] r ∧
    (left.chunks.lookup "m_5.chunk".toList).map chunkFile = some .torn ∧
    r.metric.entry.head.points = [] ∧ (storedPoints r.metric).Perm r.accepted := by
  have hput (r : Record) (ts : Int) (h : Written ['d'] ['m'] r)
      (hroom : r.metric.entry.head.size < 3)
      (htime : 0 ≤ ts ∧ ts < 2 ^ 32) (hnew : ∀ q ∈ r.accepted, q.ts < ts) :
      Written ['d'] ['m'] (put r ts) :=
    .next (.put .ok pad ⟨ts, 0x4045400000000000⟩) h
      ⟨⟨rfl, fun hfull => absurd hfull (by unfold headCapacity; omega), htime, hnew⟩, rfl⟩
  have h0 : Written ['d'] ['m'] start := .start ⟨0, rfl⟩
  have h1 := hput start 5 h0 (by decide) (by decide) (by decide)
  have h2 := hput _ 7 h1 (by decide) (by decide) (by decide +kernel)
  have hpoints : (put (put start 5) 7).metric.entry.head.points =
      [⟨5, 0x4045400000000000⟩, ⟨7, 0x4045400000000000⟩] := by decide +kernel
  have hexact : Exactness.Exact id
      ([⟨5, 0x4045400000000000⟩, ⟨7, 0x4045400000000000⟩] : List Sample) := by
    decide
  have hdoubled : ((put (put start 5) 7).doubled ||
      (Stop.bytes 40).doubles ['d'] ['m'] pad (put (put start 5) 7).metric) = false := by
    decide +kernel
  have h3 : Written ['d'] ['m'] back := .next (.restart (.bytes 40) pad 0 left) h2
    ⟨⟨rfl, fun _ => by rwa [hpoints], (fun _ h => by cases h), ⟨rfl, rfl, rfl, .refl _⟩,
      by decide +kernel⟩, by rw [Record.run, hdoubled]; rfl⟩
  have hback : back.metric.entry.head.points =
      [⟨5, 0x4045400000000000⟩, ⟨7, 0x4045400000000000⟩] := by decide +kernel
  have h4 : Written ['d'] ['m']
      ⟨(flushSection ['d'] ['m'] .ok pad back.metric).2, back.accepted, false⟩ :=
    .next (.flush .ok pad) h3 ⟨⟨rfl, by rwa [hback], (fun _ h => by cases h)⟩, rfl⟩
  obtain ⟨_, hstored, _⟩ := bytes_hold_points ⟨by decide, by decide⟩ h4
  exact ⟨_, h4, by decide +kernel, by decide +kernel, hstored rfl⟩

end Tsdb.ByteRuns
