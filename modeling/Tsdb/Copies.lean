import Tsdb.Keeping

namespace Tsdb.Copies

open CStrings Head Files Wal Registry Sections History Service Disk Recovery Loading CrashFiles
  Shutdown Lifetime Keeping

variable {V : Type} {dataDir metric : Text} {accepted : List (Point V)}

/-- The complete files of the directory, which have these names, and its log hold every accepted
point once. -/
structure Single (dataDir metric : Text) (dir : Dir V) (names : List Text)
    (accepted : List (Point V)) : Prop where
  complete : Complete dataDir metric dir names
  stored : (names.flatMap (filePoints dir) ++ dir.wal.getD []).Perm accepted
  filled : ∀ name data, chunkRead dir name = some data → data.points ≠ []

variable {dir dir' : Dir V} {names : List Text}

theorem filePoints_read {name : Text} {data : ChunkData V} (h : chunkRead dir name = some data) :
    filePoints dir name = data.points := by
  rw [filePoints, h]
  rfl

theorem single_empty : Single dataDir metric (Dir.empty : Dir V) [] [] :=
  ⟨⟨.nil, fun _ => iff_of_false (fun h => h rfl) List.not_mem_nil,
    fun _ h => absurd h List.not_mem_nil⟩, .nil, fun _ _ h => by cases h⟩

theorem Single.frame (h : Single dataDir metric dir names accepted)
    (hread : ∀ name, chunkRead dir' name = chunkRead dir name) (hwal : dir'.wal = dir.wal) :
    Single dataDir metric dir' names accepted := by
  have hpoints : filePoints dir' = filePoints dir := by
    funext name
    rw [filePoints, filePoints, hread]
  refine ⟨⟨h.complete.nodup, fun name => ?_, h.complete.named⟩, ?_, fun name data hr => ?_⟩
  · rw [hread]
    exact h.complete.readable name
  · rw [hpoints, hwal]
    exact h.stored
  · exact h.filled name data (hread name ▸ hr)

theorem Single.reorder (h : Single dataDir metric dir names accepted) {names' : List Text}
    (hperm : names'.Perm names) : Single dataDir metric dir names' accepted := by
  refine ⟨⟨hperm.nodup_iff.mpr h.complete.nodup, fun name => ?_, fun name hname => ?_⟩, ?_, h.filled⟩
  · rw [hperm.mem_iff]
    exact h.complete.readable name
  · exact h.complete.named name (hperm.mem_iff.mp hname)
  · exact ((hperm.flatMap_right _).append_right _).trans h.stored

theorem Single.append (h : Single dataDir metric dir names accepted) (point : Point V) :
    Single dataDir metric (walAppend dir point) names (accepted ++ [point]) := by
  refine ⟨⟨h.complete.nodup, h.complete.readable, h.complete.named⟩, ?_, h.filled⟩
  have hwal : (walAppend dir point).wal.getD [] = dir.wal.getD [] ++ [point] := rfl
  rw [hwal, ← List.append_assoc]
  exact h.stored.append_right _

theorem Single.unreadable (h : Single dataDir metric dir names accepted) {name : Text}
    (hname : name ∉ names) : chunkRead dir name = none := by
  by_contra hread
  exact hname ((h.complete.readable name).mp hread)

theorem Single.failed (h : Single dataDir metric dir names accepted) {name : Text}
    (hname : name ∉ names) (hdir : FailedFlush name dir.mkdir dir') :
    Single dataDir metric dir' names accepted := by
  apply h.frame _ hdir.wal
  intro other
  by_cases ho : other = name
  · rw [ho, h.unreadable hname]
    by_contra hread
    exact FailedFlush.read hdir hread (h.unreadable hname)
  · exact hdir.frame ho

theorem Single.written (h : Single dataDir metric dir names accepted) {name : Text}
    (hname : name ∉ names) (hnamed : ∃ ts, name = chunkName dataDir metric (chunkId ts))
    {data : ChunkData V} (hdata : data.points = dir.wal.getD []) (hne : data.points ≠ []) :
    Single dataDir metric (walTruncate (chunkWrite (fopenWb dir.mkdir name) name data))
      (names ++ [name]) accepted := by
  have hself : chunkRead (walTruncate (chunkWrite (fopenWb dir.mkdir name) name data)) name =
      some data := chunkRead_write_self _ name data
  have hother {other : Text} (ho : other ≠ name) :
      chunkRead (walTruncate (chunkWrite (fopenWb dir.mkdir name) name data)) other =
        chunkRead dir other := (chunkRead_write_ne _ ho _).trans (chunkRead_open_ne dir.mkdir ho)
  refine ⟨⟨nodup_concat h.complete.nodup hname, fun other => ?_, ?_⟩, ?_, fun other data' hr => ?_⟩
  · rw [List.mem_append, List.mem_singleton]
    by_cases ho : other = name
    · rw [ho, hself]
      exact iff_of_true (Option.some_ne_none _) (.inr rfl)
    · rw [hother ho, h.complete.readable, or_iff_left ho]
  · exact List.forall_mem_append.mpr ⟨h.complete.named, List.forall_mem_singleton.mpr hnamed⟩
  · have hold : names.flatMap (filePoints (walTruncate (chunkWrite (fopenWb dir.mkdir name) name
        data))) = names.flatMap (filePoints dir) := by
      apply List.flatMap_congr
      intro other ho
      rw [filePoints, filePoints, hother (ne_of_mem_of_not_mem ho hname)]
    rw [List.flatMap_append, List.flatMap_singleton, hold, filePoints_read hself, hdata]
    exact (List.append_nil _).symm ▸ h.stored
  · by_cases ho : other = name
    · rw [ho, hself] at hr
      rwa [← Option.some.inj hr]
    · exact h.filled other data' (hother ho ▸ hr)

variable {gone : Point V → Prop} {m : MetricState V}

/-- The name of the next file is a new one: a file under it would hold points of the log. -/
theorem Single.unopened (h : Single dataDir metric m.dir names accepted)
    (hkept : MetricKept dataDir metric gone m accepted) {first : Point V}
    (hf : first ∈ m.entry.head.points.head?) : flushName dataDir metric first ∉ names := by
  intro hmem
  obtain ⟨data, hr⟩ := Option.ne_none_iff_exists'.mp ((h.complete.readable _).mpr hmem)
  have hlogged := hkept.dir.same_name (by rwa [hkept.log]) hr
  obtain ⟨p, hp⟩ := List.exists_mem_of_ne_nil _ (h.filled _ data hr)
  have hnodup : (names.flatMap (filePoints m.dir) ++ m.dir.wal.getD []).Nodup := by
    rw [h.stored.nodup_iff]
    refine hkept.dir.rising.imp fun hlt he => ?_
    rw [he] at hlt
    exact lt_irrefl _ hlt
  refine (List.nodup_append.mp hnodup).2.2 p ?_ p (hlogged hp) rfl
  exact List.mem_flatMap.mpr ⟨_, hmem, by rwa [filePoints_read hr]⟩

theorem single_put (h : Single dataDir metric m.dir (filenames m) accepted) (point : Point V) :
    Single dataDir metric (putSection point m).2.dir (filenames (putSection point m).2)
      (if (putSection point m).1 then accepted ++ [point] else accepted) := by
  rcases putSection_cases point m with ⟨_, he⟩ | ⟨_, he⟩
  · rw [he]
    exact h.append point
  · rw [he]
    exact h

theorem single_moved (h : Single dataDir metric m.dir names accepted)
    (hkept : MetricKept dataDir metric gone m accepted) {first : Point V}
    (hf : first ∈ m.entry.head.points.head?) :
    Single dataDir metric (walTruncate (writtenHead dataDir metric m first))
      (names ++ [flushName dataDir metric first]) accepted :=
  h.written (h.unopened hkept hf) ⟨first.ts, rfl⟩ hkept.log.symm
    (List.ne_nil_of_mem (List.mem_of_mem_head? hf))

theorem single_flush (h : Single dataDir metric m.dir (filenames m) accepted)
    (hkept : MetricKept dataDir metric gone m accepted) (io : FlushIO) :
    Single dataDir metric (flushSection dataDir metric io m).2.dir
      (filenames (flushSection dataDir metric io m).2) accepted := by
  rcases flushSection_cases dataDir metric io m with
    ⟨_, he⟩ | ⟨first, hf, ⟨_, dir, hdir, he⟩ | ⟨_, _, he⟩⟩
  · rw [he]
    exact h
  · rw [he]
    exact h.failed (h.unopened hkept hf) hdir
  · rw [he, filenames_moved]
    exact single_moved h hkept hf

theorem single_order {l : Ledger V} (h : Single dataDir metric l.metric.dir (filenames l.metric)
      l.accepted) (hkept : MetricKept dataDir metric gone l.metric l.accepted) {io : FlushIO}
    {order : Order V} (hguard : ∀ point, order = .put point → Loadable dataDir metric ∧
      (0 ≤ point.ts ∧ point.ts < 2 ^ 32) ∧ ∀ q ∈ l.accepted, q.ts < point.ts) :
    Single dataDir metric (order.run dataDir metric io l).2.metric.dir
      (filenames (order.run dataDir metric io l).2.metric)
      (order.run dataDir metric io l).2.accepted := by
  cases order with
  | put point =>
    apply putLocked_invariant fun l => Single dataDir metric l.metric.dir (filenames l.metric)
      l.accepted
    · exact single_put h point
    · exact fun _ => single_put (single_flush h hkept io) point
  | flush => exact single_flush h hkept io

/-- An end of the process that does not leave a complete file beside the log of the same points. -/
theorem single_left (h : Single dataDir metric m.dir (filenames m) accepted)
    (hkept : MetricKept dataDir metric gone m accepted) {cut : CrashPoint → Prop}
    (hcut : ∀ point, cut point → point ≠ .written ∧ point ≠ .registered)
    (hleft : LeftBy dataDir metric cut m dir) :
    ∃ names, Single dataDir metric dir names accepted := by
  cases hleft with
  | idle => exact ⟨_, h⟩
  | stopped point hpoint =>
    rcases crashFlush_cases point dataDir metric m with he | ⟨first, hf, hdir | ⟨hp, _⟩ | he⟩
    · rw [he]
      exact ⟨_, h⟩
    · exact ⟨_, h.failed (h.unopened hkept hf) hdir⟩
    · exact absurd hp (not_or_intro (hcut point hpoint).1 (hcut point hpoint).2)
    · rw [he]
      exact ⟨_, single_moved h hkept hf⟩
  | cleaned io => exact ⟨_, single_flush h hkept io⟩

theorem single_loaded (h : Single dataDir metric dir names accepted)
    (hload : Loadable dataDir metric) (unset : Int) :
    Single dataDir metric (loadMetric dataDir metric unset dir).dir
      (filenames (loadMetric dataDir metric unset dir)) accepted := by
  have hloaded (name : Text) (hr : chunkRead dir name ≠ none) :
      loadedName dataDir metric name = name := by
    obtain ⟨ts, rfl⟩ := h.complete.named name ((h.complete.readable name).mp hr)
    exact loadedName_eq ts
  have hnames (found : List Text) : (loadedChunks dataDir metric dir found).map
      ChunkMetadata.filename = found.filter fun name => (chunkRead dir name).isSome := by
    induction found with
    | nil => rfl
    | cons name found ih =>
      cases hr : chunkRead dir name with
      | none => simpa [loadedChunks, hr] using ih
      | some data =>
        have hname := hloaded name (by rw [hr]; exact Option.some_ne_none data)
        simpa [loadedChunks, hr, hname] using ih
  refine Single.reorder h ?_
  rw [filenames, loadMetric_chunks, hnames]
  apply (List.perm_ext_iff_of_nodup (loadedNames_nodup dir) h.complete.nodup).mpr
  intro name
  rw [mem_loadedNames, ← h.complete.readable]
  refine ⟨fun hr => hr.2, fun hr => ⟨?_, hr⟩⟩
  obtain ⟨ts, rfl⟩ := h.complete.named name ((h.complete.readable name).mp hr)
  exact chunkName_isChunk hload.fits ts

theorem Single.points (h : Single dataDir metric m.dir (filenames m) accepted)
    (hkept : MetricKept dataDir metric gone m accepted) : (storedPoints m).Perm accepted := by
  rw [storedPoints, ← filePoints_filenames, ← hkept.log]
  exact h.stored

end Tsdb.Copies
