import Tsdb.Numbers
import Tsdb.Retention

namespace Tsdb.ExactExpiry

open CStrings Head Files Registry Numbers Retention

variable {V : Type}

def retentionMaxRules : Nat := 256

/-- `retention_add_rule`; `none` is the result -1. -/
def retentionAddRule (cfg : RetentionConfig) (spec : Text) : Option RetentionConfig :=
  if retentionMaxRules ≤ cfg.length then none
  else
    let name := spec.takeWhile (· ≠ '=')
    if '=' ∉ spec ∨ name = [] then none
    else if 64 ≤ name.length then none
    else
      let secs := strtol (spec.drop (name.length + 1))
      if secs ≤ 0 then none else some (cfg ++ [⟨name, secs⟩])

structure Rules where
  rules : RetentionConfig
  positive : ∀ rule ∈ rules, 0 < rule.maxAgeSeconds

theorem retentionAddRule_positive {cfg cfg' : RetentionConfig} {spec : Text}
    (hpos : ∀ rule ∈ cfg, 0 < rule.maxAgeSeconds) (h : retentionAddRule cfg spec = some cfg') :
    ∀ rule ∈ cfg', 0 < rule.maxAgeSeconds := by
  unfold retentionAddRule at h
  dsimp only at h
  split_ifs at h with _ _ _ hsecs
  rw [← Option.some.inj h]
  intro rule hrule
  rcases List.mem_append.mp hrule with hold | hnew
  · exact hpos rule hold
  · rw [List.mem_singleton.mp hnew]
    exact not_le.mp hsecs

def Rules.empty : Rules := ⟨[], fun _ h => absurd h List.not_mem_nil⟩

def Rules.add (cfg : Rules) (spec : Text) : Option Rules :=
  (retentionAddRule cfg.rules spec).pmap Rules.mk fun _ h =>
    retentionAddRule_positive cfg.positive h

def Rules.ruleOf (cfg : Rules) (metric : Text) : Option RetentionRule :=
  cfg.rules.find? fun rule => rule.metric = metric

theorem Rules.get_of_rule {cfg : Rules} {metric : Text} {rule : RetentionRule}
    (h : cfg.ruleOf metric = some rule) :
    retentionGet cfg.rules metric = rule.maxAgeSeconds ∧ 0 < rule.maxAgeSeconds := by
  refine ⟨?_, cfg.positive rule (List.mem_of_find?_eq_some h)⟩
  rw [retentionGet]
  exact congrArg (fun r => (r.map RetentionRule.maxAgeSeconds).getD (-1)) h

theorem Rules.get_of_none {cfg : Rules} {metric : Text} (h : cfg.ruleOf metric = none) :
    retentionGet cfg.rules metric = -1 :=
  congrArg (fun r => (r.map RetentionRule.maxAgeSeconds).getD (-1)) h

/-- The memory behind `entry->chunks`. What lies behind `chunkCount` is left over. -/
structure ChunkArray where
  cells : List ChunkMetadata
  chunkCount : Nat
  bound : chunkCount ≤ cells.length

def ChunkArray.entries (a : ChunkArray) : List ChunkMetadata := a.cells.take a.chunkCount

def memmove {α : Type} (cells : List α) (dst src n : Nat) : List α :=
  cells.take dst ++ ((cells.drop src).take n ++ cells.drop (dst + n))

def ChunkArray.expire (a : ChunkArray) (idx : Nat) (h : idx < a.chunkCount) : ChunkArray where
  cells := memmove a.cells idx (idx + 1) (a.chunkCount - idx - 1)
  chunkCount := a.chunkCount - 1
  bound := by
    have := a.bound
    simp only [memmove, List.length_append, List.length_take, List.length_drop]
    omega

theorem ChunkArray.entries_expire (a : ChunkArray) {idx : Nat} (h : idx < a.chunkCount) :
    (a.expire idx h).entries = a.entries.eraseIdx idx := by
  have hbound := a.bound
  have htail : ((a.cells.drop (idx + 1)).take (a.chunkCount - idx - 1)).length =
      a.chunkCount - idx - 1 := by
    rw [List.length_take_of_le]
    rw [List.length_drop]
    omega
  have hfront : (a.cells.take idx).length = idx := List.length_take_of_le (by omega)
  have hcells : (a.expire idx h).entries =
      (memmove a.cells idx (idx + 1) (a.chunkCount - idx - 1)).take (a.chunkCount - 1) := rfl
  rw [hcells, List.eraseIdx_eq_take_drop_succ, entries, memmove, List.take_take,
    min_eq_left h.le, List.drop_take, ← List.append_assoc, List.take_append_of_le_length]
  · rw [List.take_of_length_le]
    · rw [Nat.sub_sub]
    · rw [List.length_append, hfront, htail]
      omega
  · rw [List.length_append, hfront, htail]
    omega

def expireArray (cutoff : Int) : Nat → ChunkArray → ChunkArray
  | 0, a => a
  | i + 1, a =>
    if h : i < a.chunkCount then
      if (a.cells.get ⟨i, h.trans_le a.bound⟩).endTs < cutoff then expireArray cutoff i (a.expire i h)
      else expireArray cutoff i a
    else expireArray cutoff i a

/-- The walk over the array does to its entries what `expireLoop` does to the list. -/
theorem expireArray_entries (cutoff : Int) (removes : Nat → Bool) (n : Nat) (a : ChunkArray)
    (m : MetricState V) (h : a.entries = m.entry.chunks) :
    (expireArray cutoff n a).entries = (expireLoop cutoff removes n m).entry.chunks := by
  induction n generalizing a m with
  | zero => exact h
  | succ i ih =>
    unfold expireArray expireLoop
    by_cases hi : i < a.chunkCount
    · have hcell : m.entry.chunks[i]? = some (a.cells.get ⟨i, hi.trans_le a.bound⟩) := by
        rw [← h, ChunkArray.entries, List.getElem?_take_of_lt hi]
        exact List.getElem?_eq_getElem _
      rw [dif_pos hi, hcell]
      dsimp only
      split
      · apply ih
        rw [ChunkArray.entries_expire, h]
        rfl
      · exact ih a m h
    · have hcell : m.entry.chunks[i]? = none := by
        rw [← h, ChunkArray.entries, List.getElem?_take_eq_none (by omega)]
      rw [dif_neg hi, hcell]
      exact ih a m h

def Removed (cutoff : Int) (removes : Nat → Bool) (chunks : List ChunkMetadata) (name : Text) :
    Prop :=
  ∃ i chunk, chunks[i]? = some chunk ∧ chunk.endTs < cutoff ∧ removes i = true ∧
    chunk.filename = name

theorem removed_concat {cutoff : Int} {removes : Nat → Bool} {chunks : List ChunkMetadata}
    {chunk : ChunkMetadata} {name : Text} :
    Removed cutoff removes (chunks ++ [chunk]) name ↔ Removed cutoff removes chunks name ∨
      chunk.endTs < cutoff ∧ removes chunks.length = true ∧ chunk.filename = name := by
  constructor
  · rintro ⟨i, c, hi, h⟩
    rcases Nat.lt_or_ge i chunks.length with hlt | hge
    · rw [List.getElem?_append_left hlt] at hi
      exact .inl ⟨i, c, hi, h⟩
    · rw [List.getElem?_append_right hge, List.getElem?_singleton,
        Option.ite_none_right_eq_some, Option.some.injEq] at hi
      obtain ⟨hzero, rfl⟩ := hi
      obtain rfl : i = chunks.length := by omega
      exact .inr h
  · rintro (⟨i, c, hi, h⟩ | h)
    · have hlt := (List.getElem?_eq_some_iff.mp hi).1
      exact ⟨i, c, by rw [List.getElem?_append_left hlt, hi], h⟩
    · exact ⟨chunks.length, chunk, List.getElem?_concat_length, h⟩

theorem expireLoop_lookup (cutoff : Int) (removes : Nat → Bool) (n : Nat) (m : MetricState V)
    (hn : n ≤ m.entry.chunks.length) (name : Text) :
    (Removed cutoff removes (m.entry.chunks.take n) name →
        (expireLoop cutoff removes n m).dir.chunks.lookup name = none) ∧
      (¬ Removed cutoff removes (m.entry.chunks.take n) name →
        (expireLoop cutoff removes n m).dir.chunks.lookup name = m.dir.chunks.lookup name) := by
  induction n generalizing m with
  | zero =>
    refine ⟨?_, fun _ => rfl⟩
    rintro ⟨i, chunk, hi, _⟩
    simp at hi
  | succ n ih =>
    have hchunk := List.getElem?_eq_getElem (show n < m.entry.chunks.length by omega)
    have htake := List.take_succ_eq_append_getElem (show n < m.entry.chunks.length by omega)
    have hlen : (m.entry.chunks.take n).length = n := List.length_take_of_le (by omega)
    generalize m.entry.chunks[n] = chunk at hchunk htake
    rw [expireLoop, hchunk, htake, removed_concat, hlen]
    dsimp only
    by_cases hexp : chunk.endTs < cutoff
    · rw [if_pos hexp]
      obtain ⟨hroom, htake', _⟩ := expireChunk_list (removes n) chunk (show n < _ from hn)
      obtain ⟨hgone, hstays⟩ := ih (expireChunk (removes n) m n chunk) hroom
      rw [htake'] at hgone hstays
      by_cases hold : Removed cutoff removes (m.entry.chunks.take n) name
      · exact ⟨fun _ => hgone hold, fun h => absurd (.inl hold) h⟩
      rw [hstays hold]
      by_cases hthis : removes n = true ∧ chunk.filename = name
      · refine ⟨fun _ => ?_, fun h => absurd (.inr ⟨hexp, hthis⟩) h⟩
        rw [expireChunk, if_pos hthis.1, removeFile, ← hthis.2]
        exact AList.lookup_erase chunk.filename m.dir.chunks
      · refine ⟨fun h => absurd (h.resolve_left hold).2 hthis, fun _ => ?_⟩
        rw [expireChunk]
        split
        case isTrue hremoved =>
          exact AList.lookup_erase_ne fun heq => hthis ⟨hremoved, heq.symm⟩
        case isFalse => rfl
    · rw [if_neg hexp]
      obtain ⟨hgone, hstays⟩ := ih m (by omega)
      exact ⟨fun h => hgone (h.resolve_right fun h => hexp h.1),
        fun h => hstays fun hold => h (.inl hold)⟩

theorem removed_iff {cutoff : Int} {removes : Nat → Bool} {chunks : List ChunkMetadata}
    (hnames : (chunks.map ChunkMetadata.filename).Nodup) {i : Nat} {chunk : ChunkMetadata}
    (hi : chunks[i]? = some chunk) :
    Removed cutoff removes chunks chunk.filename ↔ chunk.endTs < cutoff ∧ removes i = true := by
  constructor
  · rintro ⟨j, c, hj, hexp, hremoved, hname⟩
    have hlt := (List.getElem?_eq_some_iff.mp hi).1
    have hsame : i = j := by
      apply (List.getElem?_inj (by rwa [List.length_map]) hnames).mp
      rw [List.getElem?_map, List.getElem?_map, hi, hj]
      exact congrArg some hname.symm
    subst hsame
    obtain rfl : chunk = c := Option.some.inj (hi.symm.trans hj)
    exact ⟨hexp, hremoved⟩
  · rintro ⟨hexp, hremoved⟩
    exact ⟨i, chunk, hi, hexp, hremoved, rfl⟩

/-- A pass of `run_expiry` over one metric with a rule that keeps what ends at `cutoff` or
later. -/
structure Filtered (cutoff : Int) (removes : Nat → Bool) (m m' : MetricState V) : Prop where
  chunks : m'.entry.chunks = m.entry.chunks.filter fun chunk => cutoff ≤ chunk.endTs
  head : m'.entry.head = m.entry.head
  wal : m'.dir.wal = m.dir.wal
  done : m'.dir.done = m.dir.done
  expired : ∀ i chunk, m.entry.chunks[i]? = some chunk → chunk.endTs < cutoff →
    m'.dir.chunks.lookup chunk.filename =
      if removes i then none else m.dir.chunks.lookup chunk.filename
  kept : ∀ name, (∀ chunk ∈ m.entry.chunks, chunk.endTs < cutoff → chunk.filename ≠ name) →
    m'.dir.chunks.lookup name = m.dir.chunks.lookup name

theorem expireLoop_filtered (cutoff : Int) (removes : Nat → Bool) (m : MetricState V)
    (hnames : (m.entry.chunks.map ChunkMetadata.filename).Nodup) :
    Filtered cutoff removes m (expireLoop cutoff removes m.entry.chunks.length m) := by
  obtain ⟨hlist, hsheds⟩ := expireLoop_chunks cutoff removes m
  have hfiles := expireLoop_lookup cutoff removes m.entry.chunks.length m le_rfl
  rw [List.take_length] at hfiles
  refine ⟨hlist, hsheds.head, hsheds.wal, hsheds.done, fun i chunk hi hexp => ?_,
    fun name hname => ?_⟩
  · split
    case isTrue hremoved => exact (hfiles _).1 ((removed_iff hnames hi).mpr ⟨hexp, hremoved⟩)
    case isFalse hremoved =>
      exact (hfiles _).2 fun h => hremoved ((removed_iff hnames hi).mp h).2
  · refine (hfiles name).2 ?_
    rintro ⟨i, chunk, hi, hexp, _, hfile⟩
    exact hname chunk (List.mem_of_getElem? hi) hexp hfile

/-- A pass of `run_expiry` filters the chunk list of every metric with a rule, in its order, and
takes the files of the entries that go and no others. -/
theorem runExpiry_exact (cfg : Rules) (now : Int) (removes : Text → Nat → Bool) (s : Store V)
    (hnames : ∀ k m, hashFindStr k s = some m →
      (m.entry.chunks.map ChunkMetadata.filename).Nodup) (k : Text) :
    (∀ m, hashFindStr k s = some m → ∃ m',
        hashFindStr k (runExpiry cfg.rules now removes s) = some m' ∧
        (∀ rule, cfg.ruleOf k = some rule →
          Filtered (now - rule.maxAgeSeconds) (removes k) m m') ∧
        (cfg.ruleOf k = none → m' = m)) ∧
      (hashFindStr k s = none → hashFindStr k (runExpiry cfg.rules now removes s) = none ∧
        (runExpiry cfg.rules now removes s).dirOf k = s.dirOf k) := by
  refine ⟨fun m hfind => ⟨_, find_runExpiry hfind, fun rule hrule => ?_, fun hnone => ?_⟩,
    find_runExpiry_none⟩
  · obtain ⟨hget, hpos⟩ := Rules.get_of_rule hrule
    rw [expireMetric, hget, if_neg (not_le.mpr hpos)]
    exact expireLoop_filtered _ _ m (hnames k m hfind)
  · rw [expireMetric, Rules.get_of_none hnone]
    exact if_pos (by decide)

def unordered : MetricState Nat :=
  ⟨⟨⟨[], 0⟩, [⟨0, 10, ['a']⟩, ⟨100, 200, ['b']⟩, ⟨5, 20, ['c']⟩], 4⟩,
    ⟨true, ((∅ : AList _).insert ['a'] .torn).insert ['b'] .torn, none, []⟩⟩

def keepFifty : Rules := ⟨[⟨['t'], 50⟩], by simp⟩

theorem runExpiry_exact_unordered :
    (∃ m', hashFindStr ['t'] (runExpiry keepFifty.rules 100 (fun _ _ => true)
        (Store.empty.set ['t'] unordered)) = some m' ∧
      m'.entry.chunks = [⟨100, 200, ['b']⟩] ∧ m'.dir.chunks.lookup ['a'] = none ∧
      m'.dir.chunks.lookup ['b'] = some .torn) := by
  have hnames (k : Text) (m : MetricState Nat)
      (h : hashFindStr k (Store.empty.set ['t'] unordered) = some m) :
      (m.entry.chunks.map ChunkMetadata.filename).Nodup := by
    by_cases hk : k = ['t']
    · rw [hk, find_set] at h
      rw [← Option.some.inj h]
      decide
    · rw [find_set_ne _ hk] at h
      cases h
  obtain ⟨m', hfind, hrule, _⟩ := (runExpiry_exact keepFifty 100 (fun _ _ => true)
    (Store.empty.set ['t'] unordered) hnames ['t']).1 unordered (find_set _ _ _)
  have hfiltered := hrule ⟨['t'], 50⟩ rfl
  refine ⟨m', hfind, hfiltered.chunks, ?_, ?_⟩
  · rw [hfiltered.expired 0 ⟨0, 10, ['a']⟩ rfl (by decide)]
    rfl
  · rw [hfiltered.kept ['b'] (by decide)]
    rfl

end Tsdb.ExactExpiry
