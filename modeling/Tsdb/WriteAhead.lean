import Tsdb.WalBytes

namespace Tsdb.WriteAhead

open CStrings Head Files Wal Registry Sections LittleEndian WalBytes

structure Logging where
  entry : MetricRegistry (BitVec 64)
  dir : Dir (BitVec 64)
  log : Option (List Byte)

/-- How the file operations of one `wal_append` end: whether the metric's directory can be made
and the log opened, and how many bytes of either item of the record reach the file. -/
structure AppendIO where
  mkdir : Bool
  fopen : Bool
  first : Nat
  second : Nat
  deriving DecidableEq, Repr

/-- `wal_append`; the second item is written only when `fwrite` has written all of the first. -/
def walAppend (io : AppendIO) (point : Sample) (s : Logging) : Logging :=
  let dir := if io.mkdir then s.dir.mkdir else s.dir
  let ts64 := wordBytes (BitVec.ofInt 64 point.ts)
  if !(dir.present && io.fopen) then { s with dir := dir }
  else if io.first < 8 then { s with dir := dir, log := some (s.log.getD [] ++ ts64.take io.first) }
  else { s with
    dir := dir
    log := some (s.log.getD [] ++ (ts64 ++ (wordBytes point.value).take io.second)) }

def headFlush (dataDir metric : Text) (io : FlushIO) (s : Logging) : Bool × Logging :=
  match s.entry.head.points with
  | [] => (true, s)
  | _ :: _ =>
    match flushSection dataDir metric io ⟨s.entry, s.dir⟩ with
    | (false, m) => (false, ⟨m.entry, m.dir, s.log⟩)
    | (true, m) => (true, ⟨m.entry, m.dir, none⟩)

/-- One attempt of `Head_PUT`: what became of the log does not reach its result. -/
def putSection (io : AppendIO) (point : Sample) (s : Logging) : Bool × Logging :=
  match putValue s.entry.head point with
  | (true, head) => (true, walAppend io point { s with entry := { s.entry with head := head } })
  | (false, _) => (false, s)

def headPut (dataDir metric : Text) (flush : FlushIO) (io : AppendIO) (point : Sample)
    (s : Logging) : Bool × Logging :=
  match putSection io point s with
  | (true, s) => (true, s)
  | (false, s) =>
    if headCapacity ≤ s.entry.head.size then
      putSection io point (headFlush dataDir metric flush s).2
    else (false, s)

def records (log : Option (List Byte)) : List Byte :=
  (log.getD []).take ((log.getD []).length / walRecordBytes * walRecordBytes)

def Flushes (dataDir metric : Text) (flush : FlushIO) (s : Logging) : Prop :=
  flush = .ok ∧ ∃ first ∈ s.entry.head.points.head?, flushName dataDir metric first ≠ []

/-- The point gets into the head, at once or after a flush of a full head. -/
def Taken (dataDir metric : Text) (flush : FlushIO) (point : Sample) (s : Logging) : Prop :=
  Accepts s.entry.head point ∨
    headCapacity ≤ s.entry.head.size ∧ Flushes dataDir metric flush s

/-- A whole record can be written. The flush of a full head has made the directory. -/
def Writable (io : AppendIO) (s : Logging) : Prop :=
  (s.dir.present = true ∨ io.mkdir = true ∨ headCapacity ≤ s.entry.head.size) ∧
    io.fopen = true ∧ 8 ≤ io.first ∧ 8 ≤ io.second

/-- A write-ahead log: a point is accepted only with its record behind what the log held, and
where the record cannot be written nothing is accepted and nothing has changed. -/
structure LogsFirst (dataDir metric : Text) (flush : FlushIO) (io : AppendIO) (point : Sample)
    (s : Logging) : Prop where
  logged : (headPut dataDir metric flush io point s).1 = true → ∃ old,
    (headPut dataDir metric flush io point s).2.log = some (old ++ recordBytes point) ∧
      (old = s.log.getD [] ∨ headCapacity ≤ s.entry.head.size ∧ old = [])
  unlogged : ¬ Writable io s → (headPut dataDir metric flush io point s).1 = false ∧
    (headPut dataDir metric flush io point s).2.entry.head = s.entry.head ∧
    (headPut dataDir metric flush io point s).2.entry.chunks = s.entry.chunks ∧
    records (headPut dataDir metric flush io point s).2.log = records s.log

def madeDir (io : AppendIO) (dir : Dir (BitVec 64)) : Dir (BitVec 64) :=
  if io.mkdir then dir.mkdir else dir

theorem walAppend_written {io : AppendIO} {point : Sample} {s : Logging}
    (hdir : s.dir.present = true ∨ io.mkdir = true) (hopen : io.fopen = true)
    (hfirst : 8 ≤ io.first) (hsecond : 8 ≤ io.second) :
    walAppend io point s = { s with
      dir := madeDir io s.dir, log := some (s.log.getD [] ++ recordBytes point) } := by
  have hpresent : (madeDir io s.dir).present = true := by
    unfold madeDir
    split
    case isTrue => rfl
    case isFalse hmkdir => exact hdir.resolve_right hmkdir
  have hvalue : (wordBytes point.value).take io.second = wordBytes point.value :=
    List.take_of_length_le (by rw [wordBytes_length]; exact hsecond)
  have hfound : (!((madeDir io s.dir).present && io.fopen)) = false := by rw [hpresent, hopen]; rfl
  unfold walAppend
  dsimp only
  rw [← madeDir, hfound, if_neg Bool.false_ne_true, if_neg (not_lt.mpr hfirst), hvalue]
  rfl

theorem putSection_cases (io : AppendIO) (point : Sample) (s : Logging) :
    (Accepts s.entry.head point ∧ ∃ entry, putSection io point s =
        (true, walAppend io point { s with entry := entry })) ∨
      (¬ Accepts s.entry.head point ∧ putSection io point s = (false, s)) := by
  unfold putSection Accepts
  rcases putValue_cases s.entry.head point with ⟨hts, hroom, he⟩ | ⟨hrej, he⟩
  · rw [he]
    exact .inl ⟨⟨hts, hroom⟩, _, rfl⟩
  · rw [he]
    exact .inr ⟨by omega, rfl⟩

theorem headFlush_cases (dataDir metric : Text) (flush : FlushIO) (s : Logging)
    (hne : s.entry.head.points ≠ []) :
    (Flushes dataDir metric flush s ∧
        (headFlush dataDir metric flush s).2.entry.head = ⟨[], 0⟩ ∧
        (headFlush dataDir metric flush s).2.dir.present = true ∧
        (headFlush dataDir metric flush s).2.log = none) ∨
      (¬ Flushes dataDir metric flush s ∧
        (headFlush dataDir metric flush s).2.entry = s.entry ∧
        (headFlush dataDir metric flush s).2.log = s.log) := by
  obtain ⟨p, rest, hp⟩ := List.exists_cons_of_ne_nil hne
  unfold headFlush
  rw [hp]
  dsimp only
  rcases flushSection_cases dataDir metric flush ⟨s.entry, s.dir⟩ with
    ⟨hnil, _⟩ | ⟨first, hfirst, ⟨hfail, dir, _, hflush⟩ | ⟨hio, hname, hflush⟩⟩
  · exact absurd hnil hne
  · rw [hflush]
    refine .inr ⟨?_, rfl, rfl⟩
    rintro ⟨hio, first', hfirst', hname⟩
    rcases hfail with hfail | hfail
    · exact hfail hio
    · rw [Option.mem_unique hfirst hfirst'] at hfail
      exact hname hfail
  · rw [hflush]
    exact .inl ⟨⟨hio, first, hfirst, hname⟩, rfl, rfl, rfl⟩

theorem accepts_empty {head : HeadBlock (BitVec 64)} (h : head = ⟨[], 0⟩) (point : Sample) :
    Accepts head point := by
  rw [h]
  exact ⟨fun hpos => absurd hpos (by simp [HeadBlock.size]), by simp [HeadBlock.size, headCapacity]⟩

/-- A point that gets into the head is accepted, whatever became of its record. -/
theorem headPut_taken {dataDir metric : Text} {flush : FlushIO} {point : Sample} {s : Logging}
    (h : Taken dataDir metric flush point s) (io : AppendIO) :
    ∃ t : Logging, headPut dataDir metric flush io point s = (true, walAppend io point t) ∧
      ((s.entry.head.size < headCapacity ∧ t.dir = s.dir ∧ t.log = s.log) ∨
        headCapacity ≤ s.entry.head.size ∧ t.dir.present = true ∧ t.log = none) := by
  unfold headPut
  rcases putSection_cases io point s with ⟨haccepts, entry, hput⟩ | ⟨hrej, hput⟩
  · rw [hput]
    exact ⟨_, rfl, .inl ⟨haccepts.2, rfl, rfl⟩⟩
  · obtain ⟨hfull, hflush⟩ := h.resolve_left hrej
    have hne : s.entry.head.points ≠ [] := by
      intro hnil
      simp [HeadBlock.size, hnil, headCapacity] at hfull
    rcases headFlush_cases dataDir metric flush s hne with ⟨_, hhead, hpresent, hlog⟩ | ⟨hfail, _⟩
    · rw [hput]
      dsimp only
      rw [if_pos hfull]
      rcases putSection_cases io point (headFlush dataDir metric flush s).2 with
        ⟨_, entry, hagain⟩ | ⟨hrej', _⟩
      · exact ⟨_, hagain, .inr ⟨hfull, hpresent, hlog⟩⟩
      · exact absurd (accepts_empty hhead point) hrej'
    · exact absurd hflush hfail

theorem headPut_rejected {dataDir metric : Text} {flush : FlushIO} {point : Sample} {s : Logging}
    (h : ¬ Taken dataDir metric flush point s) (io : AppendIO) :
    (headPut dataDir metric flush io point s).1 = false ∧
      (headPut dataDir metric flush io point s).2.entry = s.entry ∧
      (headPut dataDir metric flush io point s).2.log = s.log := by
  obtain ⟨hrej, hnoflush⟩ := not_or.mp h
  unfold headPut
  rcases putSection_cases io point s with ⟨haccepts, _⟩ | ⟨_, hput⟩
  · exact absurd haccepts hrej
  rw [hput]
  dsimp only
  by_cases hfull : headCapacity ≤ s.entry.head.size
  · have hne : s.entry.head.points ≠ [] := by
      intro hnil
      simp [HeadBlock.size, hnil, headCapacity] at hfull
    rw [if_pos hfull]
    rcases headFlush_cases dataDir metric flush s hne with ⟨hflush, _⟩ | ⟨_, hentry, hlog⟩
    · exact absurd ⟨hfull, hflush⟩ hnoflush
    · rcases putSection_cases io point (headFlush dataDir metric flush s).2 with
        ⟨haccepts, _⟩ | ⟨_, hagain⟩
      · rw [hentry] at haccepts
        exact absurd haccepts hrej
      · rw [hagain]
        exact ⟨rfl, hentry, hlog⟩
  · rw [if_neg hfull]
    exact ⟨rfl, rfl, rfl⟩

/-- The log is written ahead exactly where no point is taken without a whole record for it. -/
theorem logsFirst_iff (dataDir metric : Text) (flush : FlushIO) (io : AppendIO) (point : Sample)
    (s : Logging) :
    LogsFirst dataDir metric flush io point s ↔
      (Taken dataDir metric flush point s → Writable io s) := by
  constructor
  · intro h htaken
    by_contra hunwritable
    obtain ⟨t, hput, _⟩ := headPut_taken htaken io
    have hfalse := (h.unlogged hunwritable).1
    rw [hput] at hfalse
    cases hfalse
  · intro h
    by_cases htaken : Taken dataDir metric flush point s
    · obtain ⟨hdir, hopen, hfirst, hsecond⟩ := h htaken
      obtain ⟨t, hput, hfrom⟩ := headPut_taken htaken io
      refine ⟨fun _ => ?_, fun hunwritable => absurd (h htaken) hunwritable⟩
      rw [hput]
      rcases hfrom with ⟨hroom, htdir, htlog⟩ | ⟨hfull, hpresent, htlog⟩
      · refine ⟨s.log.getD [], ?_, .inl rfl⟩
        have hdir : s.dir.present = true ∨ io.mkdir = true :=
          hdir.imp_right fun h => h.resolve_right (not_le.mpr hroom)
        rw [← htdir] at hdir
        rw [walAppend_written hdir hopen hfirst hsecond]
        exact congrArg some (congrArg (·.getD [] ++ recordBytes point) htlog)
      · refine ⟨[], ?_, .inr ⟨hfull, rfl⟩⟩
        rw [walAppend_written (.inl hpresent) hopen hfirst hsecond]
        exact congrArg some (congrArg (·.getD [] ++ recordBytes point) htlog)
    · obtain ⟨hres, hentry, hlog⟩ := headPut_rejected htaken io
      refine ⟨fun h => ?_, fun _ => ⟨hres, by rw [hentry], by rw [hentry], by rw [hlog]⟩⟩
      rw [hres] at h
      cases h

/-- A log that cannot be opened, and a point that is accepted all the same. -/
theorem unlogged_point_accepted : ¬ ∀ (dataDir metric : Text) (flush : FlushIO) (io : AppendIO)
    (point : Sample) (s : Logging), LogsFirst dataDir metric flush io point s := by
  intro h
  have hunlogged := (h ['d'] ['m'] .ok ⟨true, false, 0, 0⟩ ⟨5, 0⟩
    ⟨⟨⟨[], 0⟩, [], 4⟩, Dir.empty, none⟩).unlogged fun hwritable => Bool.false_ne_true hwritable.2.1
  exact Bool.false_ne_true (hunlogged.1.symm.trans rfl)

def Logging.of (m : MetricState (BitVec 64)) : Logging :=
  ⟨m.entry, { m.dir with wal := none }, logBytes m.dir.wal⟩

theorem headFlush_of (dataDir metric : Text) (flush : FlushIO) (m : MetricState (BitVec 64)) :
    headFlush dataDir metric flush (.of m) =
      ((flushSection dataDir metric flush m).1, .of (flushSection dataDir metric flush m).2) := by
  obtain ⟨⟨⟨points, last⟩, chunks, capacity⟩, dir⟩ := m
  cases points with
  | nil => rfl
  | cons first rest =>
    unfold headFlush flushSection flushHead chunkwrite
    dsimp only [Logging.of]
    by_cases hname : chunkName dataDir metric (chunkId first.ts) = []
    · rw [if_pos hname, if_pos hname]
      rfl
    · rw [if_neg hname, if_neg hname]
      cases flush <;> rfl

theorem walAppend_of {io : AppendIO} (m : MetricState (BitVec 64)) (point : Sample)
    (hdir : m.dir.present = true ∨ io.mkdir = true) (hopen : io.fopen = true)
    (hfirst : 8 ≤ io.first) (hsecond : 8 ≤ io.second) :
    walAppend io point (.of m) = .of ⟨m.entry, Wal.walAppend m.dir point⟩ := by
  have hmade : madeDir io { m.dir with wal := none } = { m.dir.mkdir with wal := none } := by
    unfold madeDir
    split
    case isTrue => rfl
    case isFalse hmkdir => rw [Dir.mkdir, ← hdir.resolve_right hmkdir]
  have hlog := logBytes_append m.dir point
  rw [walAppendBytes] at hlog
  rw [walAppend_written hdir hopen hfirst hsecond]
  dsimp only [Logging.of]
  rw [hmade, hlog]
  rfl

theorem putSection_of {io : AppendIO} (m : MetricState (BitVec 64)) (point : Sample)
    (hdir : m.dir.present = true ∨ io.mkdir = true) (hopen : io.fopen = true)
    (hfirst : 8 ≤ io.first) (hsecond : 8 ≤ io.second) :
    putSection io point (.of m) =
      ((Registry.putSection point m).1, .of (Registry.putSection point m).2) := by
  unfold putSection Registry.putSection
  rcases putValue_cases m.entry.head point with ⟨_, _, he⟩ | ⟨_, he⟩
  · rw [Logging.of, he]
    exact congrArg (Prod.mk true) (walAppend_of ⟨_, m.dir⟩ point hdir hopen hfirst hsecond)
  · rw [Logging.of, he]
    rfl

theorem flushSection_present (dataDir metric : Text) (flush : FlushIO)
    {m : MetricState (BitVec 64)} (hne : m.entry.head.points ≠ []) :
    (flushSection dataDir metric flush m).2.dir.present = true := by
  rcases flushSection_cases dataDir metric flush m with
    ⟨hnil, _⟩ | ⟨_, _, ⟨_, dir, hfailed, hflush⟩ | ⟨_, _, hflush⟩⟩
  · exact absurd hnil hne
  · rw [hflush]
    exact hfailed.present
  · rw [hflush]
    rfl

theorem headPut_of {dataDir metric : Text} {flush : FlushIO} {io : AppendIO}
    (m : MetricState (BitVec 64)) (point : Sample) (hdir : m.dir.present = true ∨ io.mkdir = true)
    (hopen : io.fopen = true) (hfirst : 8 ≤ io.first) (hsecond : 8 ≤ io.second) :
    headPut dataDir metric flush io point (.of m) =
      ((putLocked dataDir metric flush point m).1, .of (putLocked dataDir metric flush point m).2) := by
  unfold headPut putLocked putHead
  rw [putSection_of m point hdir hopen hfirst hsecond]
  rcases Sections.putSection_cases point m with ⟨_, hput⟩ | ⟨_, hput⟩
  · rw [hput]
  · rw [hput]
    dsimp only
    by_cases hfull : headCapacity ≤ m.entry.head.size
    · have hne : m.entry.head.points ≠ [] := by
        intro hnil
        simp [HeadBlock.size, hnil, headCapacity] at hfull
      have hfull' : headCapacity ≤ (Logging.of m).entry.head.size := hfull
      rw [if_pos hfull, if_pos hfull', headFlush_of]
      exact putSection_of _ point (.inl (flushSection_present dataDir metric flush hne)) hopen
        hfirst hsecond
    · have hroom : ¬ headCapacity ≤ (Logging.of m).entry.head.size := hfull
      rw [if_neg hfull, if_neg hroom]

end Tsdb.WriteAhead
