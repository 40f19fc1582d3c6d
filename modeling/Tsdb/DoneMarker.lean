import Tsdb.Downsample

namespace Tsdb.DoneMarker

open CStrings Head Files Registry Downsample

variable {V : Type}

/-- How the steps of one `write_coarse_chunk` end: no memory for the output arrays, none for the
bit writer (which nothing checks), a failure of `fopen`, of either `fwrite` or of `fclose`. -/
inductive CoarseIO where
  | noArrays
  | noWriter
  | openFails
  | headerFails
  | payloadFails
  | closeFails
  | ok
  deriving DecidableEq, Repr

/-- `decompress_all` on a file that can be read: it succeeds, has no memory for the points, or
none for the bit reader (which nothing checks). -/
inductive ReadIO where
  | noPoints
  | noReader
  | ok
  deriving DecidableEq, Repr

structure RoundIO where
  mkdir : Bool
  read : ReadIO
  write : CoarseIO
  marker : Bool
  deriving DecidableEq, Repr

def CoarseIO.chunk : CoarseIO → ChunkIO
  | .openFails => .openFails
  | .headerFails => .writeFails
  | .payloadFails => .writeFails
  | .closeFails => .closeFails
  | _ => .ok

def coarseWrite (io : CoarseIO) (coarseDir : Dir V) (name : Text) (data : ChunkData V) :
    Bool × Dir V :=
  if !coarseDir.present then (false, coarseDir) else chunkwrite io.chunk coarseDir name data

section Arithmetic

variable [Zero V] [Add V] [Div V] [NatCast V]

/-- `write_coarse_chunk`, which drops the result of `flushtochunk`; `none` is the end of the
process on a null pointer. -/
def writeCoarseChunk (io : CoarseIO) (metric : Text) (coarseDir : Dir V)
    (points : List (Point V)) : Option (Dir V) :=
  if io = .noArrays then some coarseDir
  else
    let out := coarsePoints points
    match out.head?, out.getLast? with
    | some first, some last =>
      if io = .noWriter then none
      else some (coarseWrite io coarseDir (coarseName metric (chunkId first.ts))
        ⟨first.ts, last.ts, out⟩).2
    | _, _ => some coarseDir

structure Pass (V : Type) where
  coarseDir : Dir V
  madeDir : Bool
  alive : Bool

/-- One round of the loop of `downsample_metric`. -/
def passRound (cutoff : Int) (metric : Text) (dir : Dir V) (io : RoundIO) (p : Pass V)
    (chunk : ChunkMetadata) : Pass V :=
  if !p.alive then p
  else if cutoff ≤ chunk.endTs then p
  else if chunkId chunk.startTs ∈ p.coarseDir.done then p
  else
    let coarseDir := if !p.madeDir && io.mkdir then p.coarseDir.mkdir else p.coarseDir
    match chunkRead dir chunk.filename with
    | none => ⟨coarseDir, true, true⟩
    | some data =>
      match io.read with
      | .noPoints => ⟨coarseDir, true, true⟩
      | .noReader => ⟨coarseDir, true, false⟩
      | .ok =>
        if data.points = [] then ⟨coarseDir, true, true⟩
        else
          match writeCoarseChunk io.write metric coarseDir data.points with
          | none => ⟨coarseDir, true, false⟩
          | some coarseDir =>
            ⟨if io.marker && coarseDir.present then
              createMarker coarseDir (chunkId chunk.startTs) else coarseDir, true, true⟩

def Complete (metric : Text) (points : List (Point V)) (coarseDir : Dir V) : Prop :=
  ∃ first ∈ (coarsePoints points).head?, ∃ last ∈ (coarsePoints points).getLast?,
    chunkRead coarseDir (coarseName metric (chunkId first.ts)) =
      some ⟨first.ts, last.ts, coarsePoints points⟩

def Due (cutoff : Int) (coarseDir : Dir V) (chunk : ChunkMetadata) : Prop :=
  chunk.endTs < cutoff ∧ chunkId chunk.startTs ∉ coarseDir.done

/-- What a round owes to the chunk it looks at: a new marker only with the complete coarse chunk,
and without that another try in every later pass. -/
structure DoneMeansDone (cutoff : Int) (metric : Text) (dir : Dir V) (p q : Pass V)
    (chunk : ChunkMetadata) : Prop where
  done : Due cutoff p.coarseDir chunk → chunkId chunk.startTs ∈ q.coarseDir.done →
    ∃ data, chunkRead dir chunk.filename = some data ∧ Complete metric data.points q.coarseDir
  again : Due cutoff p.coarseDir chunk →
    (¬ ∃ data, chunkRead dir chunk.filename = some data ∧
      Complete metric data.points q.coarseDir) →
    ∀ later, cutoff ≤ later → Due later q.coarseDir chunk

structure Marks (cutoff : Int) (dir : Dir V) (io : RoundIO) (p : Pass V) (chunk : ChunkMetadata)
    (data : ChunkData V) : Prop where
  alive : p.alive = true
  due : Due cutoff p.coarseDir chunk
  found : chunkRead dir chunk.filename = some data
  points : data.points ≠ []
  read : io.read = .ok
  writer : io.write ≠ .noWriter
  present : p.coarseDir.present = true ∨ p.madeDir = false ∧ io.mkdir = true
  marker : io.marker = true

def Writes (metric : Text) (io : RoundIO) (p : Pass V) (data : ChunkData V) : Prop :=
  io.write = .ok ∨
    (io.write = .noArrays ∨ io.write = .openFails) ∧ Complete metric data.points p.coarseDir

def EveryRound (cutoff : Int) (metric : Text) (dir : Dir V)
    (P : RoundIO → Pass V → Pass V → ChunkMetadata → Prop) :
    List (ChunkMetadata × RoundIO) → Pass V → Prop
  | [], _ => True
  | (chunk, io) :: rounds, p =>
    P io p (passRound cutoff metric dir io p chunk) chunk ∧
      EveryRound cutoff metric dir P rounds (passRound cutoff metric dir io p chunk)

omit [Zero V] [Add V] [Div V] [NatCast V] in
theorem chunkRead_torn (dir : Dir V) (name : Text) : chunkRead (fopenWb dir name) name = none := by
  simp [chunkRead, fopenWb]

theorem coarsePoints_ne_nil {points : List (Point V)} (hne : points ≠ []) :
    coarsePoints points ≠ [] := by
  obtain ⟨first, rest, rfl⟩ := List.exists_cons_of_ne_nil hne
  obtain ⟨init, last, hsplit⟩ := List.eq_nil_or_concat'  (first :: rest) |>.resolve_left hne
  rw [coarsePoints, hsplit, List.foldl_append, List.foldl_cons, List.foldl_nil, Coarse.emit,
    if_pos (by simp [Coarse.add])]
  simp

theorem Complete.congr {metric : Text} {points : List (Point V)} {dir dir' : Dir V}
    (h : dir.chunks = dir'.chunks) :
    Complete metric points dir ↔ Complete metric points dir' := by
  unfold Complete chunkRead
  rw [h]

omit [Zero V] [Add V] [Div V] [NatCast V] in
theorem coarseWrite_file (io : CoarseIO) {coarseDir : Dir V} (hpresent : coarseDir.present = true)
    {name : Text} (hname : name ≠ []) (data : ChunkData V) :
    (coarseWrite io coarseDir name data).2 =
      if io = .openFails then coarseDir
      else if io = .headerFails ∨ io = .payloadFails ∨ io = .closeFails then fopenWb coarseDir name
      else chunkWrite (fopenWb coarseDir name) name data := by
  unfold coarseWrite chunkwrite
  rw [hpresent, if_neg hname]
  cases io <;> rfl

theorem writeCoarseChunk_spec {io : CoarseIO} (metric : Text) {coarseDir : Dir V}
    {points : List (Point V)} (hne : points ≠ []) (hpresent : coarseDir.present = true)
    (hwriter : io ≠ .noWriter) :
    ∃ d, writeCoarseChunk io metric coarseDir points = some d ∧ d.done = coarseDir.done ∧
      d.present = true ∧ (Complete metric points d ↔ io = .ok ∨
        (io = .noArrays ∨ io = .openFails) ∧ Complete metric points coarseDir) := by
  have hout := coarsePoints_ne_nil hne
  have hfirst := List.head?_eq_some_head hout
  have hlast := List.getLast?_eq_some_getLast hout
  generalize (coarsePoints points).head hout = first at hfirst
  generalize (coarsePoints points).getLast hout = last at hlast
  have hcomplete (d : Dir V) : Complete metric points d ↔
      chunkRead d (coarseName metric (chunkId first.ts)) =
        some ⟨first.ts, last.ts, coarsePoints points⟩ := by
    simp [Complete, hfirst, hlast]
  have hname : coarseName metric (chunkId first.ts) ≠ [] := by simp [coarseName]
  have hfile := coarseWrite_file io hpresent hname
    ⟨first.ts, last.ts, coarsePoints points⟩
  unfold writeCoarseChunk
  dsimp only
  rw [hfirst, hlast]
  dsimp only
  rw [if_neg hwriter, hfile]
  cases io with
  | noWriter => exact absurd rfl hwriter
  | noArrays => exact ⟨coarseDir, rfl, rfl, hpresent, by simp⟩
  | openFails => exact ⟨coarseDir, rfl, rfl, hpresent, by simp⟩
  | headerFails | payloadFails | closeFails =>
    refine ⟨_, rfl, rfl, hpresent, ?_⟩
    rw [hcomplete]
    simp [chunkRead_torn]
  | ok =>
    refine ⟨_, rfl, rfl, hpresent, ?_⟩
    rw [hcomplete]
    simp [chunkRead_write_self]

theorem writeCoarseChunk_absent (io : CoarseIO) (metric : Text) {coarseDir : Dir V}
    (points : List (Point V)) (habsent : coarseDir.present = false) :
    writeCoarseChunk io metric coarseDir points = some coarseDir ∨
      writeCoarseChunk io metric coarseDir points = none := by
  unfold writeCoarseChunk coarseWrite
  rw [habsent]
  dsimp only
  split
  · exact .inl rfl
  · split
    · split
      · exact .inr rfl
      · exact .inl rfl
    · exact .inl rfl

theorem writeCoarseChunk_noWriter (metric : Text) (coarseDir : Dir V) {points : List (Point V)}
    (hne : points ≠ []) : writeCoarseChunk .noWriter metric coarseDir points = none := by
  have hout := coarsePoints_ne_nil hne
  unfold writeCoarseChunk
  dsimp only
  rw [List.head?_eq_some_head hout, List.getLast?_eq_some_getLast hout]
  rfl

def made (io : RoundIO) (p : Pass V) : Dir V :=
  if !p.madeDir && io.mkdir then p.coarseDir.mkdir else p.coarseDir

omit [Zero V] [Add V] [Div V] [NatCast V] in
theorem made_spec (io : RoundIO) (p : Pass V) :
    (made io p).done = p.coarseDir.done ∧ (made io p).chunks = p.coarseDir.chunks ∧
      ((made io p).present = true ↔
        p.coarseDir.present = true ∨ p.madeDir = false ∧ io.mkdir = true) := by
  unfold made
  cases hmade : p.madeDir <;> cases hmkdir : io.mkdir <;> simp [Dir.mkdir]

theorem passRound_cases (cutoff : Int) (metric : Text) (dir : Dir V) (io : RoundIO) (p : Pass V)
    (chunk : ChunkMetadata) :
    (∃ data, Marks cutoff dir io p chunk data ∧
        (passRound cutoff metric dir io p chunk).coarseDir.done =
          chunkId chunk.startTs :: p.coarseDir.done ∧
        (Complete metric data.points (passRound cutoff metric dir io p chunk).coarseDir ↔
          Writes metric io p data)) ∨
      (∀ data, ¬ Marks cutoff dir io p chunk data) ∧
        (passRound cutoff metric dir io p chunk).coarseDir.done = p.coarseDir.done := by
  obtain ⟨hdone, hchunks, hpresent⟩ := made_spec io p
  unfold passRound
  by_cases halive : p.alive = true
  case neg =>
    rw [if_pos (by simpa using halive)]
    exact .inr ⟨fun data h => halive h.alive, rfl⟩
  rw [halive, if_neg (by decide)]
  by_cases hold : cutoff ≤ chunk.endTs
  · rw [if_pos hold]
    exact .inr ⟨fun data h => not_lt.mpr hold h.due.1, rfl⟩
  by_cases hmarked : chunkId chunk.startTs ∈ p.coarseDir.done
  · rw [if_neg hold, if_pos hmarked]
    exact .inr ⟨fun data h => h.due.2 hmarked, rfl⟩
  rw [if_neg hold, if_neg hmarked]
  dsimp only
  rw [← made]
  cases hread : chunkRead dir chunk.filename with
  | none =>
    refine .inr ⟨fun data h => ?_, hdone⟩
    have := hread.symm.trans h.found
    cases this
  | some data =>
    cases hio : io.read with
    | noPoints | noReader =>
      refine .inr ⟨fun data h => ?_, hdone⟩
      have := hio.symm.trans h.read
      cases this
    | ok =>
      dsimp only
      have hsame (data' : ChunkData V) (h : Marks cutoff dir io p chunk data') : data' = data :=
        Option.some.inj (h.found.symm.trans hread)
      by_cases hpoints : data.points = []
      · rw [if_pos hpoints]
        exact .inr ⟨fun data' h => h.points (hsame data' h ▸ hpoints), hdone⟩
      rw [if_neg hpoints]
      cases hfound : (made io p).present with
      | false =>
        have hnone (data' : ChunkData V) : ¬ Marks cutoff dir io p chunk data' := fun h =>
          Bool.false_ne_true (hfound.symm.trans (hpresent.mpr h.present))
        rcases writeCoarseChunk_absent io.write metric data.points hfound with he | he
        · rw [he]
          refine .inr ⟨hnone, ?_⟩
          dsimp only
          rw [hfound, Bool.and_false, if_neg Bool.false_ne_true]
          exact hdone
        · rw [he]
          exact .inr ⟨hnone, hdone⟩
      | true =>
        by_cases hwriter : io.write = .noWriter
        · rw [hwriter, writeCoarseChunk_noWriter metric (made io p) hpoints]
          exact .inr ⟨fun data' h => h.writer hwriter, hdone⟩
        · obtain ⟨d, he, hd, hdpresent, hcomplete⟩ :=
            writeCoarseChunk_spec metric hpoints hfound hwriter
          rw [he]
          dsimp only
          rw [hdpresent, Bool.and_true]
          cases hmarker : io.marker with
          | false =>
            refine .inr ⟨fun data' h => ?_, hd.trans hdone⟩
            exact Bool.false_ne_true (hmarker.symm.trans h.marker)
          | true =>
            refine .inl ⟨data, ⟨halive, ⟨not_le.mp hold, hmarked⟩, hread, hpoints, hio, hwriter,
              hpresent.mp hfound, hmarker⟩, ?_, ?_⟩
            · exact congrArg (chunkId chunk.startTs :: ·) (hd.trans hdone)
            · rw [Writes, ← Complete.congr hchunks, ← hcomplete]
              exact Complete.congr rfl

theorem everyRound_congr {cutoff : Int} {metric : Text} {dir : Dir V}
    {P Q : RoundIO → Pass V → Pass V → ChunkMetadata → Prop}
    (h : ∀ io p chunk, P io p (passRound cutoff metric dir io p chunk) chunk ↔
      Q io p (passRound cutoff metric dir io p chunk) chunk)
    (rounds : List (ChunkMetadata × RoundIO)) (p : Pass V) :
    EveryRound cutoff metric dir P rounds p ↔ EveryRound cutoff metric dir Q rounds p := by
  induction rounds generalizing p with
  | nil => exact Iff.rfl
  | cons round rounds ih => exact and_congr (h round.2 p round.1) (ih _)

/-- A pass never leaves a marker without its coarse chunk exactly when every round that comes to
its marker has written the chunk, or found it complete and not touched it. -/
theorem doneMeansDone_iff (cutoff : Int) (metric : Text) (dir : Dir V)
    (rounds : List (ChunkMetadata × RoundIO)) (p : Pass V) :
    EveryRound cutoff metric dir (fun _ p q chunk => DoneMeansDone cutoff metric dir p q chunk)
        rounds p ↔
      EveryRound cutoff metric dir (fun io p _ chunk =>
        ∀ data, Marks cutoff dir io p chunk data → Writes metric io p data) rounds p := by
  apply everyRound_congr
  intro io p chunk
  rcases passRound_cases cutoff metric dir io p chunk with
    ⟨data, hmarks, hdone, hcomplete⟩ | ⟨hnone, hdone⟩
  · constructor
    · intro h data' hmarks'
      obtain rfl : data' = data := Option.some.inj (hmarks'.found.symm.trans hmarks.found)
      obtain ⟨data, hfound, hdata⟩ := h.done hmarks.due (by rw [hdone]; exact List.mem_cons_self)
      obtain rfl : data = data' := Option.some.inj (hfound.symm.trans hmarks.found)
      exact hcomplete.mp hdata
    · intro h
      have hwritten := hcomplete.mpr (h data hmarks)
      exact ⟨fun _ _ => ⟨data, hmarks.found, hwritten⟩,
        fun _ hnot => absurd ⟨data, hmarks.found, hwritten⟩ hnot⟩
  · refine ⟨fun _ data hmarks => absurd hmarks (hnone data), fun _ => ⟨fun hdue hnew => ?_, ?_⟩⟩
    · rw [hdone] at hnew
      exact absurd hnew hdue.2
    · intro hdue _ later hlater
      refine ⟨hdue.1.trans_le hlater, ?_⟩
      rw [hdone]
      exact hdue.2

def CoarseIO.flush : CoarseIO → FlushIO
  | .ok => .ok
  | .openFails => .openFails
  | _ => .writeFails

theorem writeCoarseChunk_flush {io : CoarseIO} (metric : Text) {coarseDir : Dir V}
    {points : List (Point V)} (hne : points ≠ []) (hpresent : coarseDir.present = true)
    (harrays : io ≠ .noArrays) (hwriter : io ≠ .noWriter) :
    writeCoarseChunk io metric coarseDir points =
      some (Downsample.writeCoarseChunk io.flush metric coarseDir points) := by
  have hout := coarsePoints_ne_nil hne
  have hname (id : Nat) : coarseName metric id ≠ [] := by simp [coarseName]
  unfold writeCoarseChunk Downsample.writeCoarseChunk flushToChunk chunkwrite
  dsimp only
  rw [List.head?_eq_some_head hout, List.getLast?_eq_some_getLast hout]
  dsimp only
  rw [if_neg harrays, if_neg hwriter, coarseWrite_file io hpresent (hname _), if_neg (hname _)]
  cases io with
  | noArrays => exact absurd rfl harrays
  | noWriter => exact absurd rfl hwriter
  | openFails | headerFails | payloadFails | closeFails | ok => rfl

/-- Where memory, directory and marker can be had, a round is the one of the store's model. -/
theorem passRound_round (cutoff : Int) (metric : Text) (dir : Dir V) {io : CoarseIO}
    (harrays : io ≠ .noArrays) (hwriter : io ≠ .noWriter) {p : Pass V} (halive : p.alive = true)
    (hdir : p.madeDir = true → p.coarseDir.present = true) (chunk : ChunkMetadata) :
    (passRound cutoff metric dir ⟨true, .ok, io, true⟩ p chunk).coarseDir =
      downsampleChunk cutoff io.flush metric dir p.coarseDir chunk := by
  have hmade : (if !p.madeDir && true then p.coarseDir.mkdir else p.coarseDir) =
      p.coarseDir.mkdir := by
    cases hm : p.madeDir with
    | false => rfl
    | true =>
      have hpresent := hdir hm
      obtain ⟨⟨present, chunks, wal, done⟩, _, _⟩ := p
      cases hpresent
      rfl
  unfold passRound downsampleChunk
  rw [halive, if_neg (by decide)]
  split
  · rfl
  split
  · rfl
  dsimp only
  rw [hmade]
  cases chunkRead dir chunk.filename with
  | none => rfl
  | some data =>
    dsimp only
    by_cases hpoints : data.points = []
    · rw [if_pos hpoints, if_pos hpoints]
    · have hmkdir : p.coarseDir.mkdir.present = true := rfl
      have hwrite := writeCoarseChunk_flush metric hpoints hmkdir harrays hwriter
      obtain ⟨d, hd, _, hpresent, _⟩ := writeCoarseChunk_spec metric hpoints hmkdir hwriter
      obtain rfl := Option.some.inj (hwrite.symm.trans hd)
      rw [if_neg hpoints, if_neg hpoints, hwrite]
      dsimp only
      rw [hpresent]
      rfl

end Arithmetic

/-- A coarse file that cannot be opened, and a marker all the same. -/
theorem marker_without_chunk : ¬ ∀ (cutoff : Int) (metric : Text) (dir : Dir ℚ)
    (rounds : List (ChunkMetadata × RoundIO)) (p : Pass ℚ),
      EveryRound cutoff metric dir
        (fun _ p q chunk => DoneMeansDone cutoff metric dir p q chunk) rounds p := by
  intro h
  let dir : Dir ℚ := ⟨true, (∅ : AList _).insert ['a'] (.whole ⟨0, 0, [⟨0, 1⟩]⟩), none, []⟩
  let io : RoundIO := ⟨true, .ok, .openFails, true⟩
  have hmarks : Marks 1 dir io ⟨Dir.empty, false, true⟩ ⟨0, 0, ['a']⟩ ⟨0, 0, [⟨0, 1⟩]⟩ :=
    ⟨rfl, ⟨by decide, by simp [Dir.empty]⟩, rfl, by simp, rfl, by decide, .inr ⟨rfl, rfl⟩, rfl⟩
  have hround := (h 1 ['m'] dir [(⟨0, 0, ['a']⟩, io)] ⟨Dir.empty, false, true⟩).1
  rcases passRound_cases 1 ['m'] dir io ⟨Dir.empty, false, true⟩ ⟨0, 0, ['a']⟩ with
    ⟨data, hmarks', hdone, hcomplete⟩ | ⟨hnone, _⟩
  · obtain ⟨data', hfound, hdata⟩ := hround.done hmarks.due (by rw [hdone]; exact List.mem_cons_self)
    obtain rfl : data' = data := Option.some.inj (hfound.symm.trans hmarks'.found)
    rcases hcomplete.mp hdata with hok | ⟨_, first, _, last, _, hread⟩
    · cases hok
    · simp [chunkRead, Dir.empty] at hread
  · exact hnone _ hmarks

end Tsdb.DoneMarker
