import Tsdb.DirBytes
import Tsdb.SyncedFiles

namespace Tsdb.Durability

open CStrings Head Files Registry Sections LittleEndian WalBytes FileBytes DirBytes SyncedFiles
  Runs

inductive Path where
  | wal
  | chunk (name : Text)
  deriving DecidableEq

/-- How one `wal_append` goes: whether the log can be opened, whether `fwrite` says that it has
written the record, how many of its bytes reach the file, and whether `fsync` succeeds. -/
structure AppendIO where
  opens : Bool
  fwrite : Bool
  bytes : Nat
  fsync : Bool
  deriving DecidableEq, Repr

/-- One section of `Head_PUT` or `headflush` under the head's lock. `removes` tells whether
`wal_truncate` gets the log removed. -/
inductive Section where
  | put (io : AppendIO) (point : Sample)
  | flush (io : Writing) (pad : List Byte) (removes : Bool)

/-- What `wal_append` does to the log. Stdio hands the record over in `fflush`, whose result nobody
looks at. -/
def walAppendOps (io : AppendIO) (point : Sample) : List (Op Path Byte) :=
  if io.opens then
    .append .wal ((recordBytes point).take io.bytes) ::
      if io.fwrite && io.fsync then [.fsync .wal] else []
  else []

/-- What `chunkwrite` does to the file it opens; it closes the file without an `fsync`. -/
def chunkWriteOps (io : Writing) (name : Text) (bytes : List Byte) : List (Op Path Byte) :=
  if name = [] then []
  else
    match io with
    | .openFails => []
    | .writeFails n | .closeFails n =>
      [.openTruncated (.chunk name), .append (.chunk name) (bytes.dropLast.take n)]
    | .ok => [.openTruncated (.chunk name), .append (.chunk name) bytes]

def Writes (io : Writing) (name : Text) : Prop :=
  name ≠ [] ∧ (io.outcome = .ok ∨ io.outcome = .closeFails)

instance (io : Writing) (name : Text) : Decidable (Writes io name) :=
  inferInstanceAs (Decidable (_ ∧ (_ ∨ _)))

/-- A metric in memory, its files with what of them is on disk, and the points that `Head_PUT` said
yes to. -/
structure Host where
  entry : MetricRegistry (BitVec 64)
  disk : Disk Path Byte
  accepted : List Sample

def Host.start (unset : Int) : Host := ⟨⟨getNewHeadBlock unset, [], 4⟩, Disk.blank, []⟩

def sectionOps (dataDir metric : Text) (s : Host) : Section → List (Op Path Byte)
  | .put io point => if (putValue s.entry.head point).1 then walAppendOps io point else []
  | .flush io pad removes =>
    match s.entry.head.points with
    | [] => []
    | first :: rest =>
      chunkWriteOps io (flushName dataDir metric first)
          (flushBytes (chunkId first.ts) pad (first :: rest)) ++
        if Writes io (flushName dataDir metric first) ∧ removes = true then [.remove .wal] else []

def sectionEntry (dataDir metric : Text) (entry : MetricRegistry (BitVec 64)) :
    Section → Bool × MetricRegistry (BitVec 64)
  | .put _ point =>
    let (res, head) := putValue entry.head point
    (res, { entry with head := head })
  | .flush io _ _ =>
    match entry.head.points with
    | [] => (false, entry)
    | first :: _ =>
      if Writes io (flushName dataDir metric first) then
        (false, { addChunk entry
          ⟨first.ts, entry.head.lastTimestamp, flushName dataDir metric first⟩ with
          head := ⟨[], 0⟩ })
      else (false, entry)

/-- `Head_PUT` returns what `PUT_value` returned, whatever has become of the record. -/
def accept (accepted : List Sample) (res : Bool) : Section → List Sample
  | .put _ point => if res then accepted ++ [point] else accepted
  | .flush _ _ _ => accepted

def Host.run (dataDir metric : Text) (s : Host) (x : Section) : Host :=
  let (res, entry) := sectionEntry dataDir metric s.entry x
  ⟨entry, (sectionOps dataDir metric s x).foldl Op.run s.disk, accept s.accepted res x⟩

def recordsOf : Nat → List Byte → List Sample
  | 0, _ => []
  | fuel + 1, file =>
    match readRecord file with
    | none => []
    | some (point, file) => point :: recordsOf fuel file

def pointsOf : Path → List Byte → List Sample
  | .wal, file => recordsOf file.length file
  | .chunk _, file =>
    match chunkFile file with
    | .torn => []
    | .whole data => data.points

/-- A section is safe when all accepted points are on disk at every moment of it, and at its
end also the point it accepted. -/
def Safe (dataDir metric : Text) (s : Host) (x : Section) : Prop :=
  (∀ d ∈ moments (sectionOps dataDir metric s x) s.disk, Durable pointsOf d s.accepted) ∧
  Durable pointsOf (s.run dataDir metric x).disk (s.run dataDir metric x).accepted

def Complete (io : AppendIO) : Prop :=
  io.opens = true ∧ io.fwrite = true ∧ walRecordBytes ≤ io.bytes ∧ io.fsync = true

/-- A point that the head takes has its record written and synced, and no flush that moves a head
into a chunk removes the log. -/
def Keeps (dataDir metric : Text) (s : Host) : Section → Prop
  | .put io point => Accepts s.entry.head point → Complete io
  | .flush io _ removes => ∀ first ∈ s.entry.head.points.head?,
    Writes io (flushName dataDir metric first) → removes = false

def Typed (_ : Host) : Section → Prop
  | .put _ point => InLong point.ts
  | .flush _ _ _ => True

/-- Every accepted point has its record in the log, which is synced, and no chunk file is. -/
structure Good (s : Host) : Prop where
  log : s.disk .wal = ⟨s.accepted.flatMap recordBytes, s.accepted.flatMap recordBytes⟩
  unsynced : ∀ name, (s.disk (.chunk name)).synced = []
  long : ∀ p ∈ s.accepted, InLong p.ts
  fewer : s.entry.head.points.length ≤ s.accepted.length

variable {dataDir metric : Text} {s : Host}

theorem good_start (unset : Int) : Good (Host.start unset) :=
  ⟨rfl, fun _ => rfl, fun _ h => absurd h List.not_mem_nil, le_rfl⟩

theorem recordsOf_eq {records : List Sample} (hlong : ∀ p ∈ records, InLong p.ts)
    {tail : List Byte} (htail : tail.length < walRecordBytes) {fuel : Nat}
    (hfuel : records.length ≤ fuel) :
    recordsOf fuel (records.flatMap recordBytes ++ tail) = records := by
  induction records generalizing fuel with
  | nil =>
    cases fuel with
    | zero => rfl
    | succ fuel => rw [recordsOf, List.flatMap_nil, List.nil_append, readRecord_none htail]
  | cons p records ih =>
    cases fuel with
    | zero => simp at hfuel
    | succ fuel =>
      rw [recordsOf, List.flatMap_cons, List.append_assoc, readRecord_append (hlong p (by simp))]
      dsimp only
      rw [ih (fun q hq => hlong q (List.mem_cons_of_mem _ hq)) (by simpa using hfuel)]

theorem pointsOf_wal {records : List Sample} (hlong : ∀ p ∈ records, InLong p.ts)
    {tail : List Byte} (htail : tail.length < walRecordBytes) :
    pointsOf .wal (records.flatMap recordBytes ++ tail) = records := by
  apply recordsOf_eq hlong htail
  rw [List.length_append, records_length, walRecordBytes]
  omega

theorem pointsOf_log {records : List Sample} (hlong : ∀ p ∈ records, InLong p.ts) :
    pointsOf .wal (records.flatMap recordBytes) = records := by
  have h := pointsOf_wal hlong (show ([] : List Byte).length < walRecordBytes by decide)
  rwa [List.append_nil] at h

theorem Good.durable (h : Good s) : Durable pointsOf s.disk s.accepted := by
  have hsynced : s.accepted.Subperm (pointsOf .wal (s.disk .wal).synced) := by
    rw [h.log, pointsOf_log h.long]
  exact durable_one hsynced

theorem durable_log {d : Disk Path Byte} (hchunks : ∀ name, (d (.chunk name)).synced = [])
    {items : List Sample} (h : Durable pointsOf d items) :
    items.Subperm (pointsOf .wal (d .wal).synced) := by
  apply h.only
  intro other hother
  cases other with
  | wal => exact absurd rfl hother
  | chunk name =>
    rw [hchunks name]
    rfl

theorem put_taken {io : AppendIO} {point : Sample} (h : Accepts s.entry.head point) :
    sectionOps dataDir metric s (.put io point) = walAppendOps io point ∧
      s.run dataDir metric (.put io point) =
        ⟨{ s.entry with head := ⟨s.entry.head.points ++ [point], point.ts⟩ },
          (walAppendOps io point).foldl Op.run s.disk, s.accepted ++ [point]⟩ := by
  rcases putValue_cases s.entry.head point with ⟨_, _, he⟩ | ⟨hrej, _⟩
  · simp [Host.run, sectionEntry, sectionOps, accept, he]
  · unfold Accepts at h
    omega

theorem put_refused {io : AppendIO} {point : Sample} (h : ¬ Accepts s.entry.head point) :
    sectionOps dataDir metric s (.put io point) = [] ∧
      s.run dataDir metric (.put io point) = s := by
  rcases putValue_cases s.entry.head point with ⟨hts, hroom, _⟩ | ⟨_, he⟩
  · exact absurd ⟨hts, hroom⟩ h
  · simp [Host.run, sectionEntry, sectionOps, accept, he]

theorem wal_frame (io : AppendIO) (point : Sample) (name : Text) (d : Disk Path Byte) :
    (walAppendOps io point).foldl Op.run d (.chunk name) = d (.chunk name) := by
  apply foldl_frame
  unfold walAppendOps
  split
  · split <;> simp [Op.path]
  · simp

theorem complete_ops {io : AppendIO} (h : Complete io) (point : Sample) :
    walAppendOps io point = [.append .wal (recordBytes point), .fsync .wal] := by
  obtain ⟨hopens, hfwrite, hbytes, hfsync⟩ := h
  have hall : (recordBytes point).take io.bytes = recordBytes point :=
    List.take_of_length_le (by rw [recordBytes_length]; exact hbytes)
  rw [walAppendOps, if_pos hopens, hfwrite, hfsync, hall]
  rfl

/-- Short of a whole record and its `fsync`, no more than a part of one gets synced. -/
theorem incomplete_synced {io : AppendIO} (h : ¬ Complete io) (point : Sample)
    {d : Disk Path Byte} {bytes : List Byte} (hd : d .wal = ⟨bytes, bytes⟩) :
    ∃ tail : List Byte, tail.length < walRecordBytes ∧
      ((walAppendOps io point).foldl Op.run d .wal).synced = bytes ++ tail := by
  unfold walAppendOps
  by_cases hopens : io.opens = true
  case neg =>
    rw [if_neg hopens]
    exact ⟨[], by decide, by rw [List.foldl_nil, hd, List.append_nil]⟩
  rw [if_pos hopens]
  by_cases hsyncs : (io.fwrite && io.fsync) = true
  · obtain ⟨hfwrite, hfsync⟩ := Bool.and_eq_true_iff.mp hsyncs
    rw [if_pos hsyncs, logged_synced, hd]
    refine ⟨_, ?_, rfl⟩
    have hshort : ¬ walRecordBytes ≤ io.bytes := fun hbytes =>
      h ⟨hopens, hfwrite, hbytes, hfsync⟩
    rw [List.length_take]
    omega
  · rw [if_neg hsyncs]
    refine ⟨[], by decide, ?_⟩
    simp [Op.run, Op.path, Op.apply, hd]

theorem chunkWriteOps_path (io : Writing) (name : Text) (bytes : List Byte) :
    ∀ op ∈ chunkWriteOps io name bytes, op.path = .chunk name ∧ ∀ path, op ≠ .fsync path := by
  unfold chunkWriteOps
  split
  · simp
  · cases io <;> simp [Op.path]

theorem unsynced_run {d : Disk Path Byte} {ops : List (Op Path Byte)} {path : Path}
    (hops : ∀ op ∈ ops, ∀ path, op ≠ .fsync path) (h : (d path).synced = []) :
    (ops.foldl Op.run d path).synced = [] := by
  induction ops generalizing d with
  | nil => exact h
  | cons op ops ih =>
    obtain ⟨hop, hops⟩ := List.forall_mem_cons.mp hops
    apply ih hops
    by_cases hpath : path = op.path
    · rw [Op.run, hpath, Function.update_self]
      rw [hpath] at h
      cases op with
      | openTruncated path | remove path => rfl
      | append path items => exact h
      | fsync path => exact absurd rfl (hop path)
    · rw [run_ne d hpath]
      exact h

theorem flush_ops {io : Writing} {pad : List Byte} {removes : Bool} {first : Sample}
    (hfirst : first ∈ s.entry.head.points.head?) :
    ∃ bytes, sectionOps dataDir metric s (.flush io pad removes) =
      chunkWriteOps io (flushName dataDir metric first) bytes ++
        if Writes io (flushName dataDir metric first) ∧ removes = true then [.remove .wal]
        else [] := by
  unfold sectionOps
  cases hp : s.entry.head.points with
  | nil =>
    rw [hp] at hfirst
    cases hfirst
  | cons p rest =>
    rw [hp] at hfirst
    obtain rfl := Option.some.inj hfirst
    exact ⟨_, rfl⟩

theorem flush_entry (io : Writing) (pad : List Byte) (removes : Bool) :
    (sectionEntry dataDir metric s.entry (.flush io pad removes)).2.head.points.length ≤
      s.entry.head.points.length := by
  cases hp : s.entry.head.points with
  | nil => simp [sectionEntry, hp]
  | cons first rest =>
    by_cases hwrites : Writes io (flushName dataDir metric first)
    · simp [sectionEntry, hp, hwrites]
    · simp [sectionEntry, hp, hwrites]

theorem flush_keeps {io : Writing} {pad : List Byte} {removes : Bool}
    (h : Keeps dataDir metric s (.flush io pad removes)) :
    ∀ op ∈ sectionOps dataDir metric s (.flush io pad removes),
      Path.wal ≠ op.path ∧ ∀ path, op ≠ .fsync path := by
  cases hf : s.entry.head.points.head? with
  | none =>
    rw [List.head?_eq_none_iff] at hf
    simp [sectionOps, hf]
  | some first =>
    obtain ⟨bytes, hops⟩ := @flush_ops dataDir metric s io pad removes first hf
    have hnot : ¬ (Writes io (flushName dataDir metric first) ∧ removes = true) := by
      rintro ⟨hwrites, hremoves⟩
      rw [h first hf hwrites] at hremoves
      cases hremoves
    rw [hops, if_neg hnot, List.append_nil]
    intro op hop
    obtain ⟨hpath, hsync⟩ := chunkWriteOps_path io _ bytes op hop
    exact ⟨by rw [hpath]; exact Path.noConfusion, hsync⟩

theorem good_put (h : Good s) {io : AppendIO} {point : Sample} (hlong : InLong point.ts)
    (hkeeps : Keeps dataDir metric s (.put io point)) :
    Good (s.run dataDir metric (.put io point)) := by
  by_cases haccepts : Accepts s.entry.head point
  · obtain ⟨_, hrun⟩ := @put_taken dataDir metric s io point haccepts
    rw [hrun]
    refine ⟨?_, fun name => ?_, ?_, ?_⟩
    · dsimp only
      rw [complete_ops (hkeeps haccepts), logged_synced, h.log]
      simp
    · dsimp only
      rw [wal_frame]
      exact h.unsynced name
    · exact List.forall_mem_append.mpr ⟨h.long, List.forall_mem_singleton.mpr hlong⟩
    · have := h.fewer
      simp only [List.length_append, List.length_singleton]
      omega
  · rw [(put_refused haccepts).2]
    exact h

theorem good_flush (h : Good s) {io : Writing} {pad : List Byte} {removes : Bool}
    (hkeeps : Keeps dataDir metric s (.flush io pad removes)) :
    Good (s.run dataDir metric (.flush io pad removes)) := by
  have hops := flush_keeps hkeeps
  refine ⟨?_, fun name => ?_, h.long, (flush_entry io pad removes).trans h.fewer⟩
  · exact (foldl_frame (fun op hop => (hops op hop).1) s.disk).trans h.log
  · exact unsynced_run (fun op hop => (hops op hop).2) (h.unsynced name)

theorem safe_put (h : Good s) {io : AppendIO} {point : Sample} (hlong : InLong point.ts) :
    Safe dataDir metric s (.put io point) ↔ Keeps dataDir metric s (.put io point) := by
  constructor
  · intro hsafe haccepts
    by_contra hincomplete
    obtain ⟨_, hrun⟩ := @put_taken dataDir metric s io point haccepts
    obtain ⟨tail, htail, hsynced⟩ := incomplete_synced hincomplete point h.log
    have hdurable := hsafe.2
    rw [hrun] at hdurable
    dsimp only at hdurable
    have hsub := durable_log (fun name => by rw [wal_frame]; exact h.unsynced name) hdurable
    rw [hsynced, pointsOf_wal h.long htail] at hsub
    have := hsub.length_le
    simp at this
  · intro hkeeps
    refine ⟨?_, (good_put h hlong hkeeps).durable⟩
    by_cases haccepts : Accepts s.entry.head point
    · rw [(put_taken haccepts).1, complete_ops (hkeeps haccepts)]
      have hsub : s.accepted.Subperm (pointsOf .wal (s.disk .wal).synced) := by
        rw [h.log, pointsOf_log h.long]
      have hlonger : s.accepted.Subperm
          (pointsOf .wal ((s.disk .wal).written ++ recordBytes point)) := by
        have hall : (s.disk .wal).written ++ recordBytes point =
            (s.accepted ++ [point]).flatMap recordBytes := by
          rw [h.log]
          simp
        rw [hall, pointsOf_log (List.forall_mem_append.mpr
          ⟨h.long, List.forall_mem_singleton.mpr hlong⟩)]
        exact (List.sublist_append_left _ _).subperm
      have hmoments := @moments_logged Path Byte _ s.disk .wal (recordBytes point)
        (fun bytes => s.accepted.Subperm (pointsOf .wal bytes)) hsub hlonger
      exact fun d hd => durable_one (hmoments d hd)
    · rw [(put_refused haccepts).1]
      exact forall_moments_nil.mpr h.durable

theorem safe_flush (h : Good s) {io : Writing} {pad : List Byte} {removes : Bool} :
    Safe dataDir metric s (.flush io pad removes) ↔
      Keeps dataDir metric s (.flush io pad removes) := by
  constructor
  · intro hsafe first hfirst hwrites
    cases removes with
    | false => rfl
    | true =>
      obtain ⟨bytes, hops⟩ := @flush_ops dataDir metric s io pad true first hfirst
      rw [if_pos ⟨hwrites, rfl⟩] at hops
      have hdurable := hsafe.2
      unfold Host.run at hdurable
      dsimp only [accept] at hdurable
      rw [hops, List.foldl_append] at hdurable
      have hchunks (name : Text) : (Op.run ((chunkWriteOps io (flushName dataDir metric first)
          bytes).foldl Op.run s.disk) (.remove .wal) (.chunk name)).synced = [] := by
        rw [run_ne _ Path.noConfusion]
        exact unsynced_run (fun op hop => (chunkWriteOps_path io _ bytes op hop).2)
          (h.unsynced name)
      have hsub := durable_log hchunks hdurable
      have hgone : (Op.run ((chunkWriteOps io (flushName dataDir metric first) bytes).foldl Op.run
          s.disk) (.remove .wal) .wal).synced = [] := by
        simp [Op.run, Op.path, Op.apply, File.empty]
      rw [hgone] at hsub
      have hnone : s.accepted.length ≤ 0 := hsub.length_le
      have hfewer := h.fewer
      have hpos := List.length_pos_of_mem (List.mem_of_mem_head? hfirst)
      omega
  · intro hkeeps
    refine ⟨fun d hd => ?_, (good_flush h hkeeps).durable⟩
    have hsynced : s.accepted.Subperm (pointsOf .wal (d .wal).synced) := by
      rw [moments_frame (fun op hop => (flush_keeps hkeeps op hop).1) d hd, h.log,
        pointsOf_log h.long]
    exact durable_one hsynced

/-- In every run, all accepted points stay on disk exactly while every record is written and synced
and no flush removes the log. -/
theorem durable_iff {xs : List Section} {unset : Int}
    (htyped : Allowed Typed (fun s x => some (Host.run dataDir metric s x)) xs (Host.start unset)) :
    Allowed (Safe dataDir metric) (fun s x => some (Host.run dataDir metric s x)) xs
        (Host.start unset) ↔
      Allowed (Keeps dataDir metric) (fun s x => some (Host.run dataDir metric s x)) xs
        (Host.start unset) := by
  refine allowed_iff (fun s x s' hs hlong hkeeps hrun => ?_) (fun s x hs hlong => ?_)
    (good_start unset) htyped
  · obtain rfl := Option.some.inj hrun
    cases x with
    | put io point => exact good_put hs hlong hkeeps
    | flush io pad removes => exact good_flush hs hkeeps
  · cases x with
    | put io point => exact safe_put hs hlong
    | flush io pad removes => exact safe_flush hs

theorem durable_iff_two_puts :
    ((Host.start 0).run ['d'] ['m'] (.put ⟨true, true, 16, true⟩ ⟨5, 1⟩)).accepted = [⟨5, 1⟩] ∧
      Allowed (Safe ['d'] ['m']) (fun s x => some (Host.run ['d'] ['m'] s x))
        [.put ⟨true, true, 16, true⟩ ⟨5, 1⟩, .put ⟨true, true, 16, true⟩ ⟨7, 2⟩]
        (Host.start 0) :=
  have complete : Complete ⟨true, true, 16, true⟩ := ⟨rfl, rfl, le_rfl, rfl⟩
  ⟨rfl, (@durable_iff ['d'] ['m']
    [.put ⟨true, true, 16, true⟩ ⟨5, 1⟩, .put ⟨true, true, 16, true⟩ ⟨7, 2⟩] 0
    ⟨⟨by decide, by decide⟩, fun _ _ => ⟨⟨by decide, by decide⟩, fun _ _ => trivial⟩⟩).mpr
    ⟨fun _ => complete, fun _ _ => ⟨fun _ => complete, fun _ _ => trivial⟩⟩⟩

/-- The log is removed while the chunk that replaces it may still be lost. -/
theorem flush_interrupts_durability : ¬ ∀ (dataDir metric : Text) (xs : List Section),
    Allowed Typed (fun s x => some (Host.run dataDir metric s x)) xs (Host.start 0) →
      Allowed (Safe dataDir metric) (fun s x => some (Host.run dataDir metric s x)) xs
        (Host.start 0) := by
  intro h
  have hputs : Keeps ['d'] ['m'] (Host.start 0) (.put ⟨true, true, 16, true⟩ ⟨5, 1⟩) :=
    fun _ => ⟨rfl, rfl, le_rfl, rfl⟩
  have hgood := good_put (good_start 0) ⟨by decide, by decide⟩ hputs
  have hsafe := (h ['d'] ['m'] [.put ⟨true, true, 16, true⟩ ⟨5, 1⟩, .flush .ok [0, 0, 0, 0] true]
    ⟨⟨by decide, by decide⟩, fun _ _ => ⟨trivial, fun _ _ => trivial⟩⟩).2 _ rfl
  have hkeeps := (safe_flush hgood).mp hsafe.1
  have hremoves : true = false := hkeeps ⟨5, 1⟩ rfl (by decide)
  cases hremoves

structure Shows (s : Host) (b : ByteMetric) : Prop where
  entry : s.entry = b.entry
  wal : (s.disk .wal).written = b.dir.wal.getD []
  chunks : ∀ name, (s.disk (.chunk name)).written = (b.dir.chunks.lookup name).getD []

theorem shows_put {b : ByteMetric} (h : Shows s b) {io : AppendIO} (hcomplete : Complete io)
    (point : Sample) :
    Shows (s.run dataDir metric (.put io point)) (DirBytes.putSection point b).2 := by
  unfold DirBytes.putSection
  rw [← h.entry]
  by_cases haccepts : Accepts s.entry.head point
  · rw [(put_taken haccepts).2]
    rcases putValue_cases s.entry.head point with ⟨_, _, he⟩ | ⟨hrej, _⟩
    · rw [he, complete_ops hcomplete]
      refine ⟨rfl, ?_, fun name => ?_⟩
      · dsimp only
        rw [logged_synced, h.wal]
        rfl
      · dsimp only
        rw [← complete_ops hcomplete, wal_frame]
        exact h.chunks name
    · unfold Accepts at haccepts
      omega
  · rw [(put_refused haccepts).2]
    rcases putValue_cases s.entry.head point with ⟨hts, hroom, _⟩ | ⟨_, he⟩
    · exact absurd ⟨hts, hroom⟩ haccepts
    · rw [he]
      exact h

theorem chunk_written (d : Disk Path Byte) (name : Text) (bytes : List Byte) (path : Path) :
    ([Op.openTruncated (.chunk name), .append (.chunk name) bytes].foldl Op.run d path).written =
      if path = .chunk name then bytes else (d path).written := by
  by_cases hpath : path = .chunk name
  · rw [hpath, if_pos rfl]
    simp [Op.run, Op.path, Op.apply, File.empty]
  · rw [if_neg hpath, foldl_frame]
    simp [Op.path, hpath]

theorem shows_written {entry : MetricRegistry (BitVec 64)} {accepted : List Sample} {b : ByteDir}
    (hwal : (s.disk .wal).written = b.wal.getD [])
    (hchunks : ∀ name, (s.disk (.chunk name)).written = (b.chunks.lookup name).getD [])
    (name : Text) (bytes : List Byte) :
    Shows ⟨entry, [Op.openTruncated (.chunk name), .append (.chunk name) bytes].foldl Op.run s.disk,
      accepted⟩ ⟨entry, b.mkdir.write name bytes⟩ := by
  refine ⟨rfl, ?_, fun other => ?_⟩
  · rw [chunk_written, if_neg Path.noConfusion]
    exact hwal
  · rw [chunk_written]
    change _ = ((b.chunks.insert name bytes).lookup other).getD []
    by_cases hother : other = name
    · rw [hother, if_pos rfl, AList.lookup_insert]
      rfl
    · rw [if_neg fun h => hother (Path.chunk.inj h), AList.lookup_insert_ne hother]
      exact hchunks other

theorem shows_truncated {b : ByteMetric} (h : Shows s b) :
    Shows ⟨s.entry, Op.run s.disk (.remove .wal), s.accepted⟩ ⟨b.entry, b.dir.truncate⟩ := by
  refine ⟨h.entry, ?_, fun name => ?_⟩
  · simp [Op.run, Op.path, Op.apply, File.empty, ByteDir.truncate]
  · dsimp only
    rw [run_ne _ Path.noConfusion]
    exact h.chunks name

theorem flush_run (io : Writing) (pad : List Byte) {first : Sample} {rest : List Sample}
    (hp : s.entry.head.points = first :: rest) :
    s.run dataDir metric (.flush io pad true) =
      if Writes io (flushName dataDir metric first) then
        ⟨{ addChunk s.entry ⟨first.ts, s.entry.head.lastTimestamp, flushName dataDir metric first⟩
            with head := ⟨[], 0⟩ },
          Op.run ((chunkWriteOps io (flushName dataDir metric first)
            (flushBytes (chunkId first.ts) pad (first :: rest))).foldl Op.run s.disk)
            (.remove .wal), s.accepted⟩
      else ⟨s.entry, (chunkWriteOps io (flushName dataDir metric first)
        (flushBytes (chunkId first.ts) pad (first :: rest))).foldl Op.run s.disk, s.accepted⟩ := by
  by_cases hwrites : Writes io (flushName dataDir metric first)
  · simp [Host.run, sectionEntry, sectionOps, accept, hp, hwrites]
  · simp [Host.run, sectionEntry, sectionOps, accept, hp, hwrites]

theorem shows_flush {b : ByteMetric} (h : Shows s b) (io : Writing) (pad : List Byte) :
    Shows (s.run dataDir metric (.flush io pad true))
      (DirBytes.flushSection dataDir metric io pad b).2 := by
  unfold DirBytes.flushSection
  rw [← h.entry]
  cases hp : s.entry.head.points with
  | nil =>
    have hrun : s.run dataDir metric (.flush io pad true) = s := by
      simp [Host.run, sectionEntry, sectionOps, accept, hp]
    rw [hrun]
    exact h
  | cons first rest =>
    rw [flush_run io pad hp]
    unfold chunkWriteOps
    dsimp only
    have hname : chunkName dataDir metric (chunkId first.ts) = flushName dataDir metric first :=
      rfl
    rw [hname]
    by_cases hname : flushName dataDir metric first = []
    · have hnot : ¬ Writes io (flushName dataDir metric first) := fun hwrites => hwrites.1 hname
      rw [if_pos hname, if_pos hname, if_neg hnot]
      exact ⟨rfl, h.wal, h.chunks⟩
    rw [if_neg hname, if_neg hname]
    have hwritten (entry : MetricRegistry (BitVec 64)) (bytes : List Byte) :=
      @shows_written s entry s.accepted b.dir h.wal h.chunks (flushName dataDir metric first) bytes
    cases io with
    | openFails =>
      rw [if_neg (by simp [Writes, Writing.outcome])]
      exact ⟨rfl, h.wal, h.chunks⟩
    | writeFails n =>
      rw [if_neg (by simp [Writes, Writing.outcome])]
      exact hwritten _ _
    | closeFails n =>
      rw [if_pos ⟨hname, .inr rfl⟩]
      exact shows_truncated (hwritten _ _)
    | ok =>
      rw [if_pos ⟨hname, .inl rfl⟩]
      exact shows_truncated (hwritten _ _)

end Tsdb.Durability
