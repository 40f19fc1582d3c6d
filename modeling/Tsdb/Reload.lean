import Tsdb.CrashFiles
import Tsdb.DirectoryUse
import Tsdb.Shutdown

namespace Tsdb.Reload

open CStrings Head Files Wal Registry Sections History Service Disk Downsample CoarseDirs ChunkNames
  Recovery Replay Loading CrashFiles DirectoryUse Directories Shutdown

variable {V : Type} {dataDir k : Text}

theorem stored_loadMetric {dir : Dir V} (hwal : dir.wal.getD [] = [])
    (hnames : ∀ name, chunkRead dir name ≠ none → loadedName dataDir k name = name) (unset : Int) :
    storedPoints (loadMetric dataDir k unset dir) =
      (loadedNames dir).flatMap (filePoints dir) := by
  rw [loadMetric_eq, loadedChunks_points hnames, walReplay_eq, hwal]
  exact List.append_nil _

theorem coarseName_loaded {n : Text} (hload : Loadable dataDir (downsampleCoarseDir n))
    {ts : Int} : loadedName dataDir (downsampleCoarseDir n) (coarseName n (chunkId ts)) =
      coarseName n (chunkId ts) := by
  have hlen := decimal_length (by decide) (chunkId_lt ts)
  have hext : ".chunk".toList.length = 6 := by decide
  have hfits := hload.2
  unfold loadedName
  apply List.take_of_length_le
  simp only [downsampleCoarseDir, List.length_append] at hfits ⊢
  simp only [coarseName, List.length_append, List.length_cons, hext]
  omega

theorem more_points {dir : Dir V} {names : List Text} (hnames : names.Nodup) {name : Text}
    (hnew : name ∉ names) (hsub : names ++ [name] ⊆ loadedNames dir)
    (hpoints : filePoints dir name ≠ []) :
    ¬ ((loadedNames dir).flatMap (filePoints dir)).Perm (names.flatMap (filePoints dir)) := by
  intro hperm
  obtain ⟨found, hfound, hsublist⟩ := List.subperm_of_subset (nodup_concat hnames hnew) hsub
  have hle := (hsublist.flatMap (filePoints dir)).length_le
  have hsame := (hfound.flatMap_right (filePoints dir)).length_eq
  rw [List.flatMap_append, List.flatMap_singleton, List.length_append] at hsame
  have hpos := List.length_pos_iff.mpr hpoints
  have hlen := hperm.length_eq
  omega

/-- The points a shut down metric gets back are those it had, exactly when its directory holds
no coarse file of another metric. -/
theorem reload_iff {l : Ledger V} (hd : OnDisk dataDir k l) (hempty : l.metric.entry.head.points = [])
    {dir : Dir V} (hlist : Relisted l.metric.dir dir) (hload : Loadable dataDir k)
    (hfiles : ∀ name data, chunkRead l.metric.dir name = some data →
      name ∈ filenames l.metric ∨ data.points ≠ [] ∧ ∃ n ts, k = downsampleCoarseDir n ∧
        name = coarseName n (chunkId ts)) (unset : Int) :
    (storedPoints (loadMetric dataDir k unset dir)).Perm l.accepted ↔
      ∀ n, k = downsampleCoarseDir n → ∀ ts,
        chunkRead l.metric.dir (coarseName n (chunkId ts)) = none := by
  have hsub : filenames l.metric ⊆ loadedNames dir := by
    intro name hname
    obtain ⟨chunk, hc, rfl⟩ := List.mem_map.mp hname
    rw [mem_loadedNames, ← hlist.read, (hd.reads_chunk hc).1, hd.named chunk hc]
    exact ⟨chunkName_isChunk hload.fits chunk.startTs, Option.some_ne_none _⟩
  have haccepted : (filenames l.metric).flatMap (filePoints dir) = l.accepted := by
    have hstored := hd.stored
    rw [storedPoints, hempty, List.append_nil, ← filePoints_filenames] at hstored
    rw [← hstored]
    apply List.flatMap_congr
    intro name _
    rw [filePoints, filePoints, hlist.read]
  have hloaded : storedPoints (loadMetric dataDir k unset dir) =
      (loadedNames dir).flatMap (filePoints dir) := by
    apply stored_loadMetric
    · rw [← hlist.wal, hd.conserved.logged, hempty]
    · intro name hread
      rw [← hlist.read] at hread
      obtain ⟨data, hdata⟩ := Option.ne_none_iff_exists'.mp hread
      rcases hfiles name data hdata with hname | ⟨_, n, ts, rfl, rfl⟩
      · obtain ⟨chunk, hc, rfl⟩ := List.mem_map.mp hname
        rw [hd.named chunk hc]
        exact loadedName_eq chunk.startTs
      · exact coarseName_loaded hload
  rw [hloaded, ← haccepted]
  constructor
  · rintro hperm n rfl ts
    by_contra hread
    obtain ⟨data, hdata⟩ := Option.ne_none_iff_exists'.mp hread
    have hnew := coarseName_not_chunk hd (chunkId ts)
    have hpoints : filePoints dir (coarseName n (chunkId ts)) ≠ [] := by
      rw [filePoints, ← hlist.read, hdata]
      rcases hfiles _ data hdata with hmem | ⟨hpoints, _⟩
      · exact absurd hmem hnew
      · exact hpoints
    -- the coarse file is one file more than the metric has chunks
    refine more_points hd.distinct hnew (fun name hname => ?_) hpoints hperm
    rcases List.mem_append.mp hname with hname | hname
    · exact hsub hname
    · rw [List.mem_singleton.mp hname, mem_loadedNames, ← hlist.read]
      exact ⟨⟨n ++ '_' :: decimal (chunkId ts), [], by simp [coarseName]⟩, hread⟩
  · intro hnone
    apply List.Perm.flatMap_right
    apply (List.perm_ext_iff_of_nodup (loadedNames_nodup dir) hd.distinct).mpr
    intro name
    refine ⟨fun hname => ?_, fun hname => hsub hname⟩
    have hread := (mem_loadedNames.mp hname).2
    rw [← hlist.read] at hread
    obtain ⟨data, hdata⟩ := Option.ne_none_iff_exists'.mp hread
    rcases hfiles name data hdata with hmem | ⟨_, n, ts, hk, rfl⟩
    · exact hmem
    · exact absurd (hnone n hk ts) hread

end Tsdb.Reload
