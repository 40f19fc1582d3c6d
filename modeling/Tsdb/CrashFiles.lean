import Tsdb.Loading

namespace Tsdb.CrashFiles

open CStrings Head Files Wal Registry Sections History Service Disk ChunkNames Recovery Replay
  Loading

variable {V : Type}

/-- What a restart can read from a directory: the points of the complete chunk files and the
records of the log. -/
structure Leaves (dataDir metric : Text) (dir : Dir V) (onDisk records : List (Point V)) : Prop where
  loaded : ((loadedChunks dataDir metric dir
    (dir.chunks.keys.filter fun name => ".chunk".toList <:+: name)).flatMap (chunkPoints dir)).Perm
      onDisk
  logged : dir.wal.getD [] = records

theorem walReplay_eq (dir : Dir V) (head : HeadBlock V) :
    walReplay dir head = (dir.wal.getD []).foldl replayRecord head := by
  unfold walReplay
  cases dir.wal <;> rfl

def crashFiles (point : CrashPoint) (head : List (Point V)) : List (Point V) × List (Point V) :=
  match point with
  | .beforeOpen => ([], head)
  | .opened => ([], head)
  | .written => (head, head)
  | .registered => (head, head)
  | .truncated => (head, [])

theorem filePoints_filenames (m : MetricState V) :
    (filenames m).flatMap (filePoints m.dir) = m.entry.chunks.flatMap (chunkPoints m.dir) := by
  rw [filenames, List.flatMap_map]
  rfl

theorem complete_filenames {dataDir metric : Text} {l : Ledger V} (hd : OnDisk dataDir metric l)
    (hr : Registered l) : Complete dataDir metric l.metric.dir (filenames l.metric) := by
  refine ⟨hd.distinct, fun name => ⟨hr.named name, fun hname => ?_⟩, fun name hname => ?_⟩
  · obtain ⟨chunk, hchunk, rfl⟩ := List.mem_map.mp hname
    rw [(hd.reads_chunk hchunk).1]
    exact Option.some_ne_none _
  · obtain ⟨chunk, hchunk, rfl⟩ := List.mem_map.mp hname
    exact ⟨chunk.startTs, hd.named chunk hchunk⟩

theorem leaves_unchanged {dataDir metric : Text} {l : Ledger V} (hd : OnDisk dataDir metric l)
    (hr : Registered l) (hload : Loadable dataDir metric) :
    Leaves dataDir metric l.metric.dir l.flushed.flatten l.metric.entry.head.points := by
  refine ⟨(complete_loaded (complete_filenames hd hr) hload).trans ?_, hd.conserved.logged⟩
  rw [filePoints_filenames, List.flatMap_def, Readable.points hd.readable]

theorem complete_opened {dataDir metric : Text} {l : Ledger V} (hd : OnDisk dataDir metric l)
    (hr : Registered l) {name : Text} (hname : name ∉ filenames l.metric) :
    Complete dataDir metric (fopenWb l.metric.dir.mkdir name) (filenames l.metric) := by
  have hc := complete_filenames hd hr
  refine ⟨hc.nodup, fun other => ?_, hc.named⟩
  by_cases hn : other = name
  · subst hn
    refine iff_of_false (fun hread => hread ?_) hname
    simp [chunkRead, fopenWb]
  · rw [chunkRead_open_ne _ hn]
    exact hc.readable other

theorem complete_written {dataDir metric : Text} {l : Ledger V} (hd : OnDisk dataDir metric l)
    (hr : Registered l) {first : Point V} (hname : flushName dataDir metric first ∉ filenames l.metric)
    (data : ChunkData V) :
    Complete dataDir metric
      (chunkWrite (fopenWb l.metric.dir.mkdir (flushName dataDir metric first))
        (flushName dataDir metric first) data)
      (filenames l.metric ++ [flushName dataDir metric first]) := by
  have hc := complete_filenames hd hr
  refine ⟨nodup_concat hc.nodup hname, fun name => ?_, fun name hmem => ?_⟩
  · rw [List.mem_append, List.mem_singleton, ← hc.readable name]
    by_cases hn : name = flushName dataDir metric first
    · subst hn
      rw [chunkRead_write_self]
      exact iff_of_true (Option.some_ne_none data) (.inr rfl)
    · rw [chunkRead_write_ne _ hn, chunkRead_open_ne _ hn, or_iff_left hn]
      rfl
  · rcases List.mem_append.mp hmem with hmem | hmem
    · exact hc.named name hmem
    · exact ⟨first.ts, List.mem_singleton.mp hmem⟩

theorem filePoints_frame {l : Ledger V} {dir : Dir V} {name : Text}
    (hname : name ∉ filenames l.metric)
    (hframe : ∀ other, other ≠ name → chunkRead dir other = chunkRead l.metric.dir other) :
    (filenames l.metric).flatMap (filePoints dir) =
      l.metric.entry.chunks.flatMap (chunkPoints l.metric.dir) := by
  rw [← filePoints_filenames]
  refine List.flatMap_congr fun other hmem => ?_
  rw [filePoints, filePoints, hframe other fun heq => hname (heq ▸ hmem)]

theorem leaves_crash {dataDir metric : Text} {l : Ledger V} (hd : OnDisk dataDir metric l)
    (hr : Registered l) (hload : Loadable dataDir metric)
    (hfresh : ∀ first ∈ l.metric.entry.head.points.head?,
      flushName dataDir metric first ∉ filenames l.metric) (point : CrashPoint) :
    Leaves dataDir metric (crashFlush point dataDir metric l.metric)
      (l.flushed.flatten ++ (crashFiles point l.metric.entry.head.points).1)
      (crashFiles point l.metric.entry.head.points).2 := by
  have hsame := leaves_unchanged hd hr hload
  have hflushed : l.metric.entry.chunks.flatMap (chunkPoints l.metric.dir) = l.flushed.flatten := by
    rw [List.flatMap_def, Readable.points hd.readable]
  have hlogged := hd.conserved.logged
  cases hp : l.metric.entry.head.points with
  | nil =>
    have hdir : crashFlush point dataDir metric l.metric = l.metric.dir := by
      unfold crashFlush
      rw [hp]
    rw [hp] at hsame
    rw [hdir]
    cases point <;> simpa [crashFiles] using hsame
  | cons first rest =>
    have hname := hfresh first (by simp [hp])
    have hne := chunkName_ne_nil hload.fits first.ts
    rw [hp] at hsame hlogged
    have hcomplete (data : ChunkData V) (hdata : data.points = first :: rest) :
        Leaves dataDir metric (chunkWrite (fopenWb l.metric.dir.mkdir (flushName dataDir metric first))
          (flushName dataDir metric first) data) (l.flushed.flatten ++ first :: rest)
          (first :: rest) := by
      refine ⟨(complete_loaded (complete_written hd hr hname data) hload).trans ?_, hlogged⟩
      have hframe := @filePoints_frame V l (chunkWrite (fopenWb l.metric.dir.mkdir
        (flushName dataDir metric first)) (flushName dataDir metric first) data) _ hname
        fun other ho => (chunkRead_write_ne _ ho _).trans (chunkRead_open_ne l.metric.dir.mkdir ho)
      rw [List.flatMap_append, hframe, hflushed, List.flatMap_singleton, filePoints,
        chunkRead_write_self, Option.map_some, Option.getD_some, hdata]
    unfold crashFlush
    simp only [hp, hne, if_false]
    cases point with
    | beforeOpen =>
      rw [crashFiles, List.append_nil]
      exact ⟨hsame.loaded, hsame.logged⟩
    | opened =>
      refine ⟨(complete_loaded (complete_opened hd hr hname) hload).trans ?_, hlogged⟩
      rw [filePoints_frame hname fun other ho => chunkRead_open_ne l.metric.dir.mkdir ho, hflushed]
      simp [crashFiles]
    | written => exact hcomplete _ rfl
    | registered => exact hcomplete _ rfl
    | truncated => exact ⟨(hcomplete _ rfl).loaded, rfl⟩

theorem leaves_recovers {dataDir metric : Text} {dir : Dir V}
    {flushed extra records head : List (Point V)}
    (h : Leaves dataDir metric dir (flushed ++ extra) records) (unset : Int) :
    (storedPoints (loadMetric dataDir metric unset dir)).Perm (flushed ++ head) ↔
      (extra ++ (records.foldl replayRecord (getNewHeadBlock unset)).points).Perm head := by
  rw [loadMetric_eq, walReplay_eq, h.logged, (h.loaded.append_right _).congr_left,
    List.append_assoc, List.perm_append_left_iff]

end Tsdb.CrashFiles
