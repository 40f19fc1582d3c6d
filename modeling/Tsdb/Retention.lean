import Tsdb.Folds
import Tsdb.Sections

namespace Tsdb.Retention

open CStrings Head Files Registry Folds

variable {V : Type}

structure RetentionRule where
  metric : Text
  maxAgeSeconds : Int
  deriving DecidableEq, Repr

abbrev RetentionConfig := List RetentionRule

def retentionGet (cfg : RetentionConfig) (metric : Text) : Int :=
  ((cfg.find? fun rule => rule.metric = metric).map RetentionRule.maxAgeSeconds).getD (-1)

def removeFile (dir : Dir V) (name : Text) : Dir V := { dir with chunks := dir.chunks.erase name }

/-- `expire_chunk`; `removed` is what became of `remove`. The entry goes in any case. -/
def expireChunk (removed : Bool) (m : MetricState V) (i : Nat) (chunk : ChunkMetadata) :
    MetricState V :=
  ⟨{ m.entry with chunks := m.entry.chunks.eraseIdx i },
    if removed then removeFile m.dir chunk.filename else m.dir⟩

/-- The loop of `run_expiry` over one chunk list, from `chunks[count - 1]` down. -/
def expireLoop (cutoff : Int) (removes : Nat → Bool) : Nat → MetricState V → MetricState V
  | 0, m => m
  | i + 1, m =>
    match m.entry.chunks[i]? with
    | none => expireLoop cutoff removes i m
    | some chunk =>
      if chunk.endTs < cutoff then
        expireLoop cutoff removes i (expireChunk (removes i) m i chunk)
      else expireLoop cutoff removes i m

/-- `run_expiry` on one metric. -/
def expireMetric (cfg : RetentionConfig) (now : Int) (removes : Nat → Bool) (metric : Text)
    (m : MetricState V) : MetricState V :=
  let maxAge := retentionGet cfg metric
  if maxAge ≤ 0 then m else expireLoop (now - maxAge) removes m.entry.chunks.length m

/-- One round of the registry loop of `run_expiry`. -/
def expireEntry (cfg : RetentionConfig) (now : Int) (removes : Text → Nat → Bool) (s : Store V)
    (metric : Text) : Store V :=
  match hashFindStr metric s with
  | none => s
  | some m => s.set metric (expireMetric cfg now (removes metric) metric m)

/-- `run_expiry`; `removes metric i` is what became of `remove` for the entry `chunks[i]`. -/
def runExpiry (cfg : RetentionConfig) (now : Int) (removes : Text → Nat → Bool) (s : Store V) :
    Store V :=
  s.registry.keys.foldl (expireEntry cfg now removes) s

theorem chunkRead_remove_ne (dir : Dir V) {name other : Text} (h : other ≠ name) :
    chunkRead (removeFile dir name) other = chunkRead dir other := by
  simp [chunkRead, removeFile, AList.lookup_erase_ne h]

theorem chunkRead_remove_self (dir : Dir V) (name : Text) :
    chunkRead (removeFile dir name) name = none := by
  simp [chunkRead, removeFile]

/-- What becomes of a metric when the entries `old` are looked at: at most the files of expired
ones go, and head, log and markers stay. -/
structure Sheds (cutoff : Int) (removes : Nat → Bool) (old : List ChunkMetadata)
    (m m' : MetricState V) : Prop where
  head : m'.entry.head = m.entry.head
  present : m'.dir.present = m.dir.present
  wal : m'.dir.wal = m.dir.wal
  done : m'.dir.done = m.dir.done
  read : ∀ name data, chunkRead m'.dir name = some data → chunkRead m.dir name = some data
  frame : ∀ name, (∀ chunk ∈ old, chunk.endTs < cutoff → chunk.filename ≠ name) →
    chunkRead m'.dir name = chunkRead m.dir name
  gone : ∀ i chunk, old[i]? = some chunk → chunk.endTs < cutoff → removes i = true →
    chunkRead m'.dir chunk.filename = none

theorem Sheds.refl {cutoff : Int} {removes : Nat → Bool} {old : List ChunkMetadata}
    (m : MetricState V) (h : ∀ chunk ∈ old, cutoff ≤ chunk.endTs) :
    Sheds cutoff removes old m m :=
  ⟨rfl, rfl, rfl, rfl, fun _ _ h => h, fun _ _ => rfl, fun i chunk hi hexp _ =>
    absurd (h chunk (List.mem_of_getElem? hi)) (by omega)⟩

theorem expireChunk_sheds {cutoff : Int} {removes : Nat → Bool} {old : List ChunkMetadata}
    {m m' : MetricState V} {chunk : ChunkMetadata} (hexp : chunk.endTs < cutoff)
    (h : Sheds cutoff removes old (expireChunk (removes old.length) m old.length chunk) m') :
    Sheds cutoff removes (old ++ [chunk]) m m' := by
  have hread (name : Text) (data : ChunkData V)
      (hr : chunkRead (expireChunk (removes old.length) m old.length chunk).dir name = some data) :
      chunkRead m.dir name = some data := by
    unfold expireChunk at hr
    split at hr
    · by_cases hn : name = chunk.filename
      · rw [hn] at hr
        exact absurd ((chunkRead_remove_self _ _).symm.trans hr) (by simp)
      · exact (chunkRead_remove_ne m.dir hn).symm.trans hr
    · exact hr
  have hdir : ∀ removed, (expireChunk removed m old.length chunk).dir.present = m.dir.present ∧
      (expireChunk removed m old.length chunk).dir.wal = m.dir.wal ∧
      (expireChunk removed m old.length chunk).dir.done = m.dir.done := by
    intro removed
    cases removed <;> exact ⟨rfl, rfl, rfl⟩
  obtain ⟨hpresent, hwal, hdone⟩ := hdir (removes old.length)
  refine ⟨h.head, h.present.trans hpresent, h.wal.trans hwal, h.done.trans hdone,
    fun name data hr => hread name data (h.read name data hr), fun name hother => ?_,
    fun i c hi hc hremoved => ?_⟩
  · have hne : name ≠ chunk.filename := (hother chunk (by simp) hexp).symm
    rw [h.frame name fun c hc => hother c (List.mem_append_left _ hc)]
    unfold expireChunk
    split
    · exact chunkRead_remove_ne _ hne
    · rfl
  · by_cases hlast : i < old.length
    · rw [List.getElem?_append_left hlast] at hi
      exact h.gone i c hi hc hremoved
    · rw [List.getElem?_append_right (by omega)] at hi
      rw [List.getElem?_singleton, Option.ite_none_right_eq_some, Option.some.injEq] at hi
      obtain ⟨hzero, rfl⟩ := hi
      obtain rfl : i = old.length := by omega
      cases hr : chunkRead m'.dir chunk.filename with
      | none => rfl
      | some data =>
        have hstill := h.read _ data hr
        rw [expireChunk, if_pos hremoved, chunkRead_remove_self] at hstill
        cases hstill

theorem Sheds.pass {cutoff : Int} {removes : Nat → Bool} {old : List ChunkMetadata}
    {m m' : MetricState V} {chunk : ChunkMetadata} (hkeep : ¬ chunk.endTs < cutoff)
    (h : Sheds cutoff removes old m m') : Sheds cutoff removes (old ++ [chunk]) m m' := by
  refine ⟨h.head, h.present, h.wal, h.done, h.read, fun name hother => ?_,
    fun i c hi hc hremoved => ?_⟩
  · exact h.frame name fun c hc => hother c (List.mem_append_left _ hc)
  · by_cases hlast : i < old.length
    · rw [List.getElem?_append_left hlast] at hi
      exact h.gone i c hi hc hremoved
    · rw [List.getElem?_append_right (by omega), List.getElem?_singleton,
        Option.ite_none_right_eq_some, Option.some.injEq] at hi
      rw [hi.2] at hkeep
      exact absurd hc hkeep

theorem expireChunk_list (removed : Bool) (chunk : ChunkMetadata) {m : MetricState V} {n : Nat}
    (hn : n < m.entry.chunks.length) :
    n ≤ (expireChunk removed m n chunk).entry.chunks.length ∧
      (expireChunk removed m n chunk).entry.chunks.take n = m.entry.chunks.take n ∧
      (expireChunk removed m n chunk).entry.chunks.drop n = m.entry.chunks.drop (n + 1) := by
  have hlen : (m.entry.chunks.take n).length = n := List.length_take_of_le (by omega)
  have herase : (expireChunk removed m n chunk).entry.chunks =
      m.entry.chunks.take n ++ m.entry.chunks.drop (n + 1) := List.eraseIdx_eq_take_drop_succ ..
  rw [herase]
  refine ⟨by rw [List.length_append]; omega, ?_, ?_⟩
  · rw [List.take_append_of_le_length (by omega), List.take_of_length_le (by omega)]
  · rw [List.drop_append_of_le_length (by omega), List.drop_of_length_le (by omega),
      List.nil_append]

/-- The loop looks at the first `n` entries, the last of them first, so that what it shifts has
been looked at before. -/
theorem expireLoop_spec (cutoff : Int) (removes : Nat → Bool) (n : Nat) (m : MetricState V)
    (hn : n ≤ m.entry.chunks.length) :
    (expireLoop cutoff removes n m).entry.chunks =
        (m.entry.chunks.take n).filter (fun chunk => cutoff ≤ chunk.endTs) ++
          m.entry.chunks.drop n ∧
      Sheds cutoff removes (m.entry.chunks.take n) m (expireLoop cutoff removes n m) := by
  induction n generalizing m with
  | zero => exact ⟨by simp [expireLoop], .refl m fun _ h => by simp at h⟩
  | succ n ih =>
    have hchunk := List.getElem?_eq_getElem (show n < m.entry.chunks.length by omega)
    have htake := List.take_succ_eq_append_getElem (show n < m.entry.chunks.length by omega)
    have hlen : (m.entry.chunks.take n).length = n := List.length_take_of_le (by omega)
    have hdrop := List.drop_eq_getElem_cons (show n < m.entry.chunks.length by omega)
    generalize m.entry.chunks[n] = chunk at hchunk htake hdrop
    rw [expireLoop, hchunk, htake]
    dsimp only
    by_cases hexp : chunk.endTs < cutoff
    · rw [if_pos hexp]
      obtain ⟨hroom, htake', hdrop'⟩ := expireChunk_list (removes n) chunk (show n < _ from hn)
      obtain ⟨hlist, hsheds⟩ := ih (expireChunk (removes n) m n chunk) hroom
      rw [htake'] at hlist hsheds
      refine ⟨?_, ?_⟩
      · rw [hlist, hdrop', List.filter_append, List.filter_singleton,
          decide_eq_false (by omega), cond_false, List.append_nil]
      · apply expireChunk_sheds hexp
        rwa [hlen]
    · rw [if_neg hexp]
      obtain ⟨hlist, hsheds⟩ := ih m (by omega)
      refine ⟨?_, hsheds.pass hexp⟩
      rw [hlist, List.filter_append, List.filter_singleton, decide_eq_true (by omega), cond_true,
        List.append_assoc, List.singleton_append, hdrop]

theorem expireLoop_chunks (cutoff : Int) (removes : Nat → Bool) (m : MetricState V) :
    (expireLoop cutoff removes m.entry.chunks.length m).entry.chunks =
        m.entry.chunks.filter (fun chunk => cutoff ≤ chunk.endTs) ∧
      Sheds cutoff removes m.entry.chunks m
        (expireLoop cutoff removes m.entry.chunks.length m) := by
  have h := expireLoop_spec cutoff removes m.entry.chunks.length m le_rfl
  rwa [List.take_length, List.drop_length, List.append_nil] at h

theorem expireMetric_sheds (cfg : RetentionConfig) (now : Int) (removes : Nat → Bool)
    (metric : Text) (m : MetricState V) :
    ∃ cutoff, (expireMetric cfg now removes metric m).entry.chunks =
        m.entry.chunks.filter (fun chunk => cutoff ≤ chunk.endTs) ∧
      Sheds cutoff removes m.entry.chunks m (expireMetric cfg now removes metric m) := by
  unfold expireMetric
  dsimp only
  split
  case isFalse => exact ⟨_, expireLoop_chunks _ _ _⟩
  case isTrue =>
    obtain ⟨cutoff, hcutoff⟩ : ∃ cutoff, ∀ chunk ∈ m.entry.chunks, cutoff ≤ chunk.endTs := by
      induction m.entry.chunks with
      | nil => exact ⟨0, fun _ h => absurd h List.not_mem_nil⟩
      | cons chunk chunks ih =>
        obtain ⟨cutoff, hcutoff⟩ := ih
        refine ⟨min cutoff chunk.endTs, fun c hc => ?_⟩
        rcases List.mem_cons.mp hc with rfl | hc
        · exact min_le_right _ _
        · exact (min_le_left _ _).trans (hcutoff c hc)
    exact ⟨cutoff, (List.filter_eq_self.mpr fun c hc => decide_eq_true (hcutoff c hc)).symm,
      .refl m hcutoff⟩

/-- The metric has a rule, and the chunk ends before what the rule keeps. -/
def Expires (cfg : RetentionConfig) (now : Int) (metric : Text) (chunk : ChunkMetadata) : Prop :=
  0 < retentionGet cfg metric ∧ chunk.endTs < now - retentionGet cfg metric

instance (cfg : RetentionConfig) (now : Int) (metric : Text) (chunk : ChunkMetadata) :
    Decidable (Expires cfg now metric chunk) :=
  inferInstanceAs (Decidable (0 < retentionGet cfg metric ∧
    chunk.endTs < now - retentionGet cfg metric))

theorem expireMetric_chunks (cfg : RetentionConfig) (now : Int) (removes : Nat → Bool)
    (metric : Text) (m : MetricState V) :
    (expireMetric cfg now removes metric m).entry.chunks =
        m.entry.chunks.filter (fun chunk => ¬ Expires cfg now metric chunk) ∧
      ∀ i chunk, m.entry.chunks[i]? = some chunk → Expires cfg now metric chunk →
        removes i = true →
          chunkRead (expireMetric cfg now removes metric m).dir chunk.filename = none := by
  unfold expireMetric
  dsimp only
  split
  case isTrue hrule =>
    have hnone (chunk : ChunkMetadata) : ¬ Expires cfg now metric chunk :=
      fun hexp => absurd hexp.1 (not_lt.mpr hrule)
    refine ⟨(List.filter_eq_self.mpr fun chunk _ => decide_eq_true (hnone chunk)).symm, ?_⟩
    exact fun i chunk _ hexp => absurd hexp (hnone chunk)
  case isFalse hrule =>
    obtain ⟨hlist, hsheds⟩ := expireLoop_chunks (now - retentionGet cfg metric) removes m
    refine ⟨?_, fun i chunk hi hexp hremoved => hsheds.gone i chunk hi hexp.2 hremoved⟩
    rw [hlist]
    apply List.filter_congr
    intro chunk _
    rw [decide_eq_decide]
    unfold Expires
    omega

theorem expireEntry_ne (cfg : RetentionConfig) (now : Int) (removes : Text → Nat → Bool)
    (s : Store V) {k metric : Text} (h : k ≠ metric) :
    hashFindStr k (expireEntry cfg now removes s metric) = hashFindStr k s ∧
      (expireEntry cfg now removes s metric).dirOf k = s.dirOf k := by
  unfold expireEntry
  split
  · exact ⟨rfl, rfl⟩
  · exact ⟨find_set_ne s h _, dirOf_set_ne s h _⟩

theorem find_runExpiry {cfg : RetentionConfig} {now : Int} {removes : Text → Nat → Bool}
    {s : Store V} {k : Text} {m : MetricState V} (h : hashFindStr k s = some m) :
    hashFindStr k (runExpiry cfg now removes s) =
      some (expireMetric cfg now (removes k) k m) := by
  have hkey : k ∈ s.registry.keys := AList.mem_keys.mp (mem_of_find h)
  obtain ⟨s', hs', hend⟩ := foldl_once (f := expireEntry cfg now removes) (g := hashFindStr k)
    s.registry.keys_nodup hkey
    (fun s metric _ hne => (expireEntry_ne cfg now removes s hne.symm).1) s
  rw [runExpiry, hend, expireEntry, hs', h]
  exact find_set _ _ _

theorem find_runExpiry_none {cfg : RetentionConfig} {now : Int} {removes : Text → Nat → Bool}
    {s : Store V} {k : Text} (h : hashFindStr k s = none) :
    hashFindStr k (runExpiry cfg now removes s) = none ∧
      (runExpiry cfg now removes s).dirOf k = s.dirOf k := by
  have hne {metric : Text} (hmem : metric ∈ s.registry.keys) : k ≠ metric := by
    rintro rfl
    exact mem_registry.mp (AList.mem_keys.mpr hmem) h
  constructor
  · rw [← h]
    exact foldl_same (fun s' metric hmem => (expireEntry_ne cfg now removes s' (hne hmem)).1) s
  · exact foldl_same (g := fun s : Store V => s.dirOf k)
      (fun s' metric hmem => (expireEntry_ne cfg now removes s' (hne hmem)).2) s

end Tsdb.Retention
