import Tsdb.CoarseRuns
import Tsdb.Folds

namespace Tsdb.MinutePasses

open CStrings Head Files Wal Registry Sections History Disk Downsample CoarseDirs CoarseFiles
  CoarseRuns Folds

variable {V : Type} [Zero V] [Add V] [Div V] [NatCast V]

structure RawChunks (dataDir metric : Text) (m : MetricState V) : Prop where
  distinct : (filenames m).Nodup
  named : ∀ chunk ∈ m.entry.chunks,
    chunk.filename = chunkName dataDir metric (chunkId chunk.startTs)
  readable : ∀ chunk ∈ m.entry.chunks, chunkRead m.dir chunk.filename =
    some ⟨chunk.startTs, chunk.endTs, chunkPoints m.dir chunk⟩
  describes : ∀ chunk ∈ m.entry.chunks, Describes chunk (chunkPoints m.dir chunk)

omit [Zero V] [Add V] [Div V] [NatCast V] in
theorem OnDisk.rawChunks {dataDir metric : Text} {l : Ledger V} (h : OnDisk dataDir metric l) :
    RawChunks dataDir metric l.metric :=
  ⟨h.distinct, h.named, fun _ hc => (h.reads_chunk hc).1, fun _ hc => (h.reads_chunk hc).2⟩

/-- A round changes the coarse directory in its own coarse files and its markers. -/
theorem downsampleChunk_frame (cutoff : Int) (io : FlushIO) (metric : Text) (dir coarseDir : Dir V)
    (chunk : ChunkMetadata) :
    (downsampleChunk cutoff io metric dir coarseDir chunk).wal = coarseDir.wal ∧
      ∀ name, (∀ id, name ≠ coarseName metric id) →
        chunkRead (downsampleChunk cutoff io metric dir coarseDir chunk) name =
          chunkRead coarseDir name := by
  have hwrite (points : List (Point V)) :
      (writeCoarseChunk io metric coarseDir.mkdir points).wal = coarseDir.wal ∧
        ∀ name, (∀ id, name ≠ coarseName metric id) →
          chunkRead (writeCoarseChunk io metric coarseDir.mkdir points) name =
            chunkRead coarseDir name := by
    unfold writeCoarseChunk
    dsimp only
    split
    · rename_i first last _ _
      rcases flushToChunk_cases io coarseDir.mkdir (coarseName metric (chunkId first.ts))
        ⟨first.ts, last.ts, coarsePoints points⟩ with ⟨_, dir', hdir, he⟩ | ⟨_, _, he⟩
      · rw [he]
        exact ⟨hdir.wal, fun name hname => hdir.frame (hname _)⟩
      · rw [he]
        refine ⟨rfl, fun name hname => ?_⟩
        exact (chunkRead_write_ne _ (hname _) _).trans (chunkRead_open_ne _ (hname _))
    · exact ⟨rfl, fun _ _ => rfl⟩
  unfold downsampleChunk
  split
  · exact ⟨rfl, fun _ _ => rfl⟩
  split
  · exact ⟨rfl, fun _ _ => rfl⟩
  dsimp only
  split
  · exact ⟨rfl, fun _ _ => rfl⟩
  split
  · exact ⟨rfl, fun _ _ => rfl⟩
  · exact hwrite _

/-- One run of the downsampling thread: its time, and how the coarse writes of each metric's
rounds end. -/
structure Pass where
  now : Int
  io : Text → Nat → FlushIO

def Pass.run (s : Store V) (pass : Pass) : Store V := downsampleRunNow pass.now pass.io s

/-- What rounds keep of a metric whose chunks have coarse files of their own. -/
structure Kept (metric : Text) (m : MetricState V) (s : Store V) : Prop where
  find : ∃ dir, hashFindStr metric s = some ⟨m.entry, dir⟩ ∧
    ∀ chunk ∈ m.entry.chunks, chunkRead dir chunk.filename = chunkRead m.dir chunk.filename
  ok : CoarseOk metric m (s.dirOf (downsampleCoarseDir metric))
  only : ∀ name, chunkRead (s.dirOf (downsampleCoarseDir metric)) name ≠ none →
    ∃ chunk ∈ m.entry.chunks, name = coarseFile metric chunk

def Marked (metric : Text) (chunk : ChunkMetadata) (s : Store V) : Prop :=
  chunkId chunk.startTs ∈ (s.dirOf (downsampleCoarseDir metric)).done

omit [Zero V] [Add V] [Div V] [NatCast V] in
theorem coarseFresh_of_apart {m : MetricState V} (hids : (m.entry.chunks.map coarseId).Nodup)
    {coarseDir : Dir V} {chunk : ChunkMetadata} (hc : chunk ∈ m.entry.chunks)
    (hid : chunkId chunk.startTs ∉ coarseDir.done) : CoarseFresh m coarseDir chunk := by
  intro other ho hmarked heq
  obtain rfl := List.inj_on_of_nodup_map hids ho hc heq
  exact hid hmarked

theorem kept_other {dataDir metric : Text} {m : MetricState V} (hraw : RawChunks dataDir metric m)
    {s : Store V} (h : Kept metric m s) {n : Text} (hn : n ≠ metric) (now : Int) (io : FlushIO)
    (i : Nat) :
    Kept metric m (downsampleRound now io n i s) ∧
      (downsampleRound now io n i s).dirOf (downsampleCoarseDir metric) =
        s.dirOf (downsampleCoarseDir metric) := by
  unfold downsampleRound
  cases hn' : hashFindStr n s with
  | none => exact ⟨h, rfl⟩
  | some mn =>
    cases hi : mn.entry.chunks[i]? with
    | none =>
      simp only [hi]
      exact ⟨h, trivial⟩
    | some chunk =>
      simp only [hi]
      have hframe := (downsampleChunk_frame (now - downsampleAfterSeconds) io n mn.dir
        (s.dirOf (downsampleCoarseDir n)) chunk).2
      have hcoarse := dirOf_setDir_ne s (fun heq => hn (coarseDir_injective heq).symm)
        (downsampleChunk (now - downsampleAfterSeconds) io n mn.dir
          (s.dirOf (downsampleCoarseDir n)) chunk)
      refine ⟨⟨?_, ?_, ?_⟩, hcoarse⟩
      · obtain ⟨dir, hfind, hdir⟩ := h.find
        have hown : dir = s.dirOf metric := find_dir hfind
        rw [find_setDir, hfind]
        refine ⟨_, rfl, fun c hc => ?_⟩
        rw [← hdir c hc, hown]
        by_cases hm : metric = downsampleCoarseDir n
        · rw [hm, dirOf_setDir]
          apply hframe
          intro id
          rw [hraw.named c hc, hm]
          exact (coarseName_ne_chunkName dataDir n id _).symm
        · rw [dirOf_setDir_ne s hm]
      · rw [hcoarse]
        exact h.ok
      · rw [hcoarse]
        exact h.only

theorem kept_self {dataDir metric : Text} {m : MetricState V} (hraw : RawChunks dataDir metric m)
    (hids : (m.entry.chunks.map coarseId).Nodup) {s : Store V} (h : Kept metric m s) (now : Int)
    {i : Nat} {chunk : ChunkMetadata} (hi : m.entry.chunks[i]? = some chunk) :
    Kept metric m (downsampleRound now .ok metric i s) ∧
      (∀ other, Marked metric other s → Marked metric other (downsampleRound now .ok metric i s)) ∧
      (chunk.endTs < now - downsampleAfterSeconds →
        Marked metric chunk (downsampleRound now .ok metric i s)) := by
  obtain ⟨dir, hfind, hdir⟩ := h.find
  have hc := List.mem_of_getElem? hi
  have hread := (hdir chunk hc).trans (hraw.readable chunk hc)
  have hround : downsampleRound now .ok metric i s = s.setDir (downsampleCoarseDir metric)
      (downsampleChunk (now - downsampleAfterSeconds) .ok metric dir
        (s.dirOf (downsampleCoarseDir metric)) chunk) := by
    simp only [downsampleRound, hfind, hi]
  have hfind' (coarseDir : Dir V) :
      ∃ dir, hashFindStr metric (s.setDir (downsampleCoarseDir metric) coarseDir) =
          some ⟨m.entry, dir⟩ ∧
        ∀ c ∈ m.entry.chunks, chunkRead dir c.filename = chunkRead m.dir c.filename := by
    have hown : dir = s.dirOf metric := find_dir hfind
    rw [find_setDir, hfind]
    refine ⟨_, rfl, fun c hc => ?_⟩
    rw [dirOf_setDir_ne s (coarseDir_ne metric).symm, ← hdir c hc, hown]
  unfold Marked
  rw [hround, dirOf_setDir]
  rcases downsampleChunk_cases hread (hraw.describes chunk hc) (now - downsampleAfterSeconds)
    (fun _ _ => rfl) metric with ⟨hskip, he⟩ | ⟨_, hid, data, hdata, he⟩
  · rw [he]
    refine ⟨⟨hfind' _, ?_, ?_⟩, fun _ hother => hother, fun hold => ?_⟩
    · rw [dirOf_setDir]
      exact h.ok
    · rw [dirOf_setDir]
      exact h.only
    · cases hskip with
      | inl hyoung => omega
      | inr hid => exact hid
  · rw [he]
    have hfresh := coarseFresh_of_apart hids hc hid
    refine ⟨⟨hfind' _, ?_, ?_⟩, fun _ hother => List.mem_cons_of_mem _ hother,
      fun _ => List.mem_cons_self⟩
    · rw [dirOf_setDir]
      exact h.ok.round hraw.distinct hraw.named hc hfresh hdata
    · rw [dirOf_setDir]
      intro name hname
      by_cases hn : name = coarseFile metric chunk
      · exact ⟨chunk, hc, hn⟩
      · rw [chunkRead_coarsened_ne hn] at hname
        exact h.only name hname

theorem kept_round {dataDir metric : Text} {m : MetricState V} (hraw : RawChunks dataDir metric m)
    (hids : (m.entry.chunks.map coarseId).Nodup) {s : Store V} (h : Kept metric m s) (now : Int)
    {io : FlushIO} {n : Text} (hio : n = metric → io = .ok) (i : Nat) :
    Kept metric m (downsampleRound now io n i s) ∧
      ∀ other, Marked metric other s → Marked metric other (downsampleRound now io n i s) := by
  by_cases hn : n = metric
  · subst hn
    rw [hio rfl]
    cases hi : m.entry.chunks[i]? with
    | none =>
      obtain ⟨dir, hfind, _⟩ := h.find
      have hround : downsampleRound now .ok n i s = s := by
        simp only [downsampleRound, hfind, hi]
      rw [hround]
      exact ⟨h, fun _ => id⟩
    | some chunk =>
      obtain ⟨hkept, hmarks, _⟩ := kept_self hraw hids h now hi
      exact ⟨hkept, hmarks⟩
  · obtain ⟨hkept, hcoarse⟩ := kept_other hraw h hn now io i
    refine ⟨hkept, fun other hother => ?_⟩
    unfold Marked
    rwa [hcoarse]

theorem kept_metric {dataDir metric : Text} {m : MetricState V} (hraw : RawChunks dataDir metric m)
    (hids : (m.entry.chunks.map coarseId).Nodup) {s : Store V} (h : Kept metric m s) (now : Int)
    {io : Nat → FlushIO} {n : Text} (hio : n = metric → ∀ i, io i = .ok) :
    Kept metric m (downsampleMetric now io s n) ∧
      ∀ other, Marked metric other s → Marked metric other (downsampleMetric now io s n) := by
  unfold downsampleMetric
  cases hashFindStr n s with
  | none => exact ⟨h, fun _ => id⟩
  | some mn =>
    apply foldl_carries (P := Kept metric m) (Q := Marked metric) _ h
    exact fun s i _ hs => kept_round hraw hids hs now (fun hn => hio hn i) i

theorem metric_marks {dataDir metric : Text} {m : MetricState V} (hraw : RawChunks dataDir metric m)
    (hids : (m.entry.chunks.map coarseId).Nodup) {s : Store V} (h : Kept metric m s) {now : Int}
    {chunk : ChunkMetadata} (hc : chunk ∈ m.entry.chunks)
    (hold : chunk.endTs < now - downsampleAfterSeconds) {io : Nat → FlushIO}
    (hio : ∀ i, io i = .ok) : Marked metric chunk (downsampleMetric now io s metric) := by
  obtain ⟨dir, hfind, _⟩ := h.find
  obtain ⟨i, hi, hget⟩ := List.mem_iff_getElem.mp hc
  have hround (s : Store V) (i : Nat) (hs : Kept metric m s) :=
    kept_round hraw hids hs now (fun (_ : metric = metric) => hio i) i
  simp only [downsampleMetric, hfind]
  apply foldl_reaches (P := Kept metric m) (Q := Marked metric chunk) (List.mem_range.mpr hi)
  · exact fun s j _ hs => (hround s j hs).1
  · intro s hs
    rw [hio i]
    exact (kept_self hraw hids hs now (List.getElem?_eq_some_iff.mpr ⟨hi, hget⟩)).2.2 hold
  · exact fun s j _ hs => (hround s j hs).2 chunk
  · exact h

theorem kept_pass {dataDir metric : Text} {m : MetricState V} (hraw : RawChunks dataDir metric m)
    (hids : (m.entry.chunks.map coarseId).Nodup) {s : Store V} (h : Kept metric m s) {pass : Pass}
    (hio : ∀ i, pass.io metric i = .ok) :
    Kept metric m (pass.run s) ∧
      ∀ other, Marked metric other s → Marked metric other (pass.run s) := by
  apply foldl_carries (P := Kept metric m) (Q := Marked metric) _ h
  exact fun s n _ hs => kept_metric hraw hids hs pass.now fun hn i => hn ▸ hio i

theorem pass_marks {dataDir metric : Text} {m : MetricState V} (hraw : RawChunks dataDir metric m)
    (hids : (m.entry.chunks.map coarseId).Nodup) {s : Store V} (h : Kept metric m s) {pass : Pass}
    (hio : ∀ i, pass.io metric i = .ok) {chunk : ChunkMetadata} (hc : chunk ∈ m.entry.chunks)
    (hold : chunk.endTs < pass.now - downsampleAfterSeconds) :
    Marked metric chunk (pass.run s) := by
  obtain ⟨dir, hfind, _⟩ := h.find
  have hkey : metric ∈ s.registry.keys := AList.mem_keys.mp (mem_of_find hfind)
  have hone (s : Store V) (n : Text) (hs : Kept metric m s) :=
    kept_metric hraw hids hs pass.now (fun (hn : n = metric) i => hn ▸ hio i)
  apply foldl_reaches (P := Kept metric m) (Q := Marked metric chunk) hkey
  · exact fun s n _ hs => (hone s n hs).1
  · exact fun s hs => metric_marks hraw hids hs hc hold hio
  · exact fun s n _ hs => (hone s n hs).2 chunk
  · exact h

theorem kept_passes {dataDir metric : Text} {m : MetricState V} (hraw : RawChunks dataDir metric m)
    (hids : (m.entry.chunks.map coarseId).Nodup) {s : Store V} (h : Kept metric m s)
    {passes : List Pass} (hio : ∀ pass ∈ passes, ∀ i, pass.io metric i = .ok)
    (hall : ∀ chunk ∈ m.entry.chunks, ∃ pass ∈ passes,
      chunk.endTs < pass.now - downsampleAfterSeconds) :
    Kept metric m (passes.foldl Pass.run s) ∧
      ∀ chunk ∈ m.entry.chunks, Marked metric chunk (passes.foldl Pass.run s) := by
  have hone (s : Store V) (pass : Pass) (hp : pass ∈ passes) (hs : Kept metric m s) :=
    kept_pass hraw hids hs (hio pass hp)
  refine ⟨(foldl_carries hone h).1, fun chunk hc => ?_⟩
  obtain ⟨pass, hp, hold⟩ := hall chunk hc
  apply foldl_reaches (P := Kept metric m) (Q := Marked metric chunk) hp
  · exact fun s pass hp hs => (hone s pass hp hs).1
  · exact fun s hs => pass_marks hraw hids hs (hio pass hp) hc hold
  · exact fun s pass hp hs => (hone s pass hp hs).2 chunk
  · exact h

end Tsdb.MinutePasses
