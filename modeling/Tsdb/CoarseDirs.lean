import Tsdb.Disk
import Tsdb.Downsample

namespace Tsdb.CoarseDirs

open CStrings Head Files Wal Registry Sections History Service Disk Downsample

variable {V : Type}

def coarseId (chunk : ChunkMetadata) : Nat := chunkId (minuteStart chunk.startTs)

def coarseFile (metric : Text) (chunk : ChunkMetadata) : Text := coarseName metric (coarseId chunk)

theorem coarseFile_isChunk (metric : Text) (chunk : ChunkMetadata) :
    ".chunk".toList <:+: coarseFile metric chunk :=
  ⟨metric ++ '_' :: decimal (coarseId chunk), [], by simp [coarseFile, coarseName]⟩

theorem coarseDir_ne (metric : Text) : downsampleCoarseDir metric ≠ metric := by
  intro h
  have := congrArg List.length h
  simp [downsampleCoarseDir] at this

theorem coarseDir_injective {a b : Text} (h : downsampleCoarseDir a = downsampleCoarseDir b) :
    a = b := List.append_cancel_right h

theorem decimal_digits {n : Nat} {c : Char} (h : c ∈ decimal n) : c.isDigit = true :=
  Nat.isDigit_of_mem_toDigits (by decide) (by decide) h

theorem decimal_ne_nil (n : Nat) : decimal n ≠ [] := Nat.toDigits_ne_nil

theorem second_char (id : Nat) : ∃ c ∈ (decimal id ++ ".chunk".toList)[1]?, c ≠ 'm' := by
  cases hd : decimal id with
  | nil => exact absurd hd (decimal_ne_nil id)
  | cons d ds =>
    cases ds with
    | nil => exact ⟨'.', rfl, by decide⟩
    | cons e es =>
      refine ⟨e, rfl, ?_⟩
      rintro rfl
      exact absurd (@decimal_digits id 'm' (by simp [hd])) (by decide)

/-- A client's metric `<metric>_1m` shares the coarse directory, but no file name in it. -/
theorem coarseName_ne_chunkName (dataDir metric : Text) (id id' : Nat) :
    coarseName metric id ≠ chunkName dataDir (downsampleCoarseDir metric) id' := by
  intro h
  obtain ⟨c, hc, hne⟩ := second_char id
  have hget := congrArg (fun cs => cs[metric.length + 2]?) h
  have hleft : (coarseName metric id)[metric.length + 2]? =
      (decimal id ++ ".chunk".toList)[1]? := by
    rw [coarseName, List.getElem?_append_right (by omega)]
    simp
  have hright : (downsampleCoarseDir metric ++
      '_' :: (decimal id' ++ ".chunk".toList))[metric.length + 2]? = some 'm' := by
    rw [downsampleCoarseDir, List.append_assoc, List.getElem?_append_right (by omega)]
    simp
  rw [hleft, hc, chunkName, List.getElem?_take] at hget
  split at hget
  · rw [hright] at hget
    exact hne (Option.some.inj hget)
  · cases hget

structure Grows (dataDir metric : Text) (m m' : MetricState V) : Prop where
  chunks : m.entry.chunks <+: m'.entry.chunks
  kept : ∀ chunk ∈ m.entry.chunks,
    chunkRead m'.dir chunk.filename = chunkRead m.dir chunk.filename
  done : m'.dir.done = m.dir.done
  frame : ∀ name, (∀ ts, name ≠ chunkName dataDir metric (chunkId ts)) →
    chunkRead m'.dir name = chunkRead m.dir name

theorem Grows.refl (dataDir metric : Text) (m : MetricState V) : Grows dataDir metric m m :=
  ⟨List.prefix_refl _, fun _ _ => rfl, rfl, fun _ _ => rfl⟩

theorem Grows.trans {dataDir metric : Text} {m m' m'' : MetricState V}
    (h : Grows dataDir metric m m') (h' : Grows dataDir metric m' m'') :
    Grows dataDir metric m m'' :=
  ⟨h.chunks.trans h'.chunks,
    fun chunk hc => (h'.kept chunk (h.chunks.subset hc)).trans (h.kept chunk hc),
    h'.done.trans h.done, fun name hn => (h'.frame name hn).trans (h.frame name hn)⟩

theorem grows_put (dataDir metric : Text) (point : Point V) (m : MetricState V) :
    Grows dataDir metric m (putSection point m).2 := by
  rcases putSection_cases point m with ⟨_, he⟩ | ⟨_, he⟩
  · rw [he]
    exact ⟨List.prefix_refl _, fun _ _ => rfl, rfl, fun _ _ => rfl⟩
  · rw [he]
    exact Grows.refl dataDir metric m

theorem grows_flush {dataDir metric : Text} (io : FlushIO) {m : MetricState V}
    (hfresh : ∀ first ∈ m.entry.head.points.head?, flushName dataDir metric first ∉ filenames m) :
    Grows dataDir metric m (flushSection dataDir metric io m).2 := by
  have hother {first : Point V} (hf : first ∈ m.entry.head.points.head?) {chunk : ChunkMetadata}
      (hmem : chunk ∈ m.entry.chunks) : chunk.filename ≠ flushName dataDir metric first := by
    intro heq
    exact hfresh first hf (heq ▸ List.mem_map_of_mem hmem)
  rcases flushSection_cases dataDir metric io m with
    ⟨_, he⟩ | ⟨first, hf, ⟨_, dir, hdir, he⟩ | ⟨_, _, he⟩⟩
  · rw [he]
    exact Grows.refl dataDir metric m
  · rw [he]
    refine ⟨List.prefix_refl _, fun chunk hmem => hdir.frame (hother hf hmem), ?_,
      fun name hn => hdir.frame (hn first.ts)⟩
    rcases hdir with rfl | rfl <;> rfl
  · rw [he]
    exact ⟨List.prefix_append _ _, fun chunk hmem => chunkRead_moved_ne (hother hf hmem) first m,
      rfl, fun name hn => chunkRead_moved_ne (hn first.ts) first m⟩

theorem grows_order {dataDir metric : Text} {io : FlushIO} {order : Order V} {l : Ledger V}
    (hguard : opensFresh dataDir metric io order l.metric) :
    Grows dataDir metric l.metric (order.run dataDir metric io l).2.metric := by
  cases order with
  | put point =>
    exact putLocked_invariant (fun l' => Grows dataDir metric l.metric l'.metric)
      (grows_put dataDir metric point l.metric)
      (fun hfull => (grows_flush io (hguard hfull)).trans (grows_put dataDir metric point _))
  | flush => exact grows_flush io (hguard trivial)

end Tsdb.CoarseDirs
