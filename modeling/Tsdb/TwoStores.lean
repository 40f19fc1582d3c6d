import Tsdb.MinutePasses
import Tsdb.OwnFiles

namespace Tsdb.TwoStores

open CStrings Head Files Registry Sections Service Downsample CoarseDirs MinutePasses Folds OwnFiles

variable {V : Type} {dataDir b : Text}

/-- Two stores that differ in the metric `b`, in its directory, and in what the coarse files
of `b` left in the directory `<b>_1m`. -/
structure Alike (dataDir b : Text) (s s' : Store V) : Prop where
  keys : s'.registry.keys = s.registry.keys.filter (· ≠ b)
  entries : ∀ k, k ≠ b → s.registry.lookup k = s'.registry.lookup k
  files : ∀ k, k ≠ b → SameFiles dataDir k (s.dirOf k) (s'.dirOf k)
  dirs : ∀ k, k ≠ b → k ≠ downsampleCoarseDir b → s.dirOf k = s'.dirOf k
  named : ∀ k, k ≠ b → ∀ entry ∈ s.registry.lookup k, Named dataDir k entry

theorem alike_empty (dataDir b : Text) : Alike dataDir b (Store.empty : Store V) Store.empty :=
  ⟨rfl, fun _ _ => rfl, fun k _ => .refl dataDir k _, fun _ _ _ => rfl,
    fun _ _ _ h => nomatch h⟩

theorem Alike.find {s s' : Store V} (h : Alike dataDir b s s') {k : Text} (hk : k ≠ b) :
    hashFindStr k s = none ∧ hashFindStr k s' = none ∨ ∃ m m', hashFindStr k s = some m ∧
      hashFindStr k s' = some m' ∧ SameMetric dataDir k m m' ∧ Named dataDir k m.entry ∧
      (k ≠ downsampleCoarseDir b → m = m') := by
  unfold hashFindStr
  rw [← h.entries k hk]
  cases hl : s.registry.lookup k with
  | none => exact .inl ⟨rfl, rfl⟩
  | some entry =>
    refine .inr ⟨_, _, rfl, rfl, ⟨rfl, h.files k hk⟩, h.named k hk entry hl, fun hcoarse => ?_⟩
    rw [h.dirs k hk hcoarse]

theorem Alike.get {s s' : Store V} (h : Alike dataDir b s s') {k : Text} (hk : k ≠ b)
    {unset : Int} {flag : Bool} {m : MetricState V}
    (hm : getMetricFromHashTable unset k flag s = some m) :
    ∃ m', getMetricFromHashTable unset k flag s' = some m' ∧ SameMetric dataDir k m m' ∧
      Named dataDir k m.entry ∧ (k ≠ downsampleCoarseDir b → m = m') := by
  unfold getMetricFromHashTable at hm ⊢
  rcases h.find hk with ⟨hf, hf'⟩ | ⟨m0, m', hf, hf', hsame, hnamed, heq⟩
  · rw [hf] at hm
    rw [hf']
    cases flag with
    | false => cases hm
    | true =>
      obtain rfl := Option.some.inj hm
      refine ⟨_, rfl, ⟨rfl, h.files k hk⟩, fun _ hc => absurd hc List.not_mem_nil, fun hcoarse => ?_⟩
      rw [h.dirs k hk hcoarse]
  · rw [hf] at hm
    rw [hf']
    obtain rfl := Option.some.inj hm
    exact ⟨m', rfl, hsame, hnamed, heq⟩

theorem Alike.get_none {s s' : Store V} (h : Alike dataDir b s s') {k : Text} (hk : k ≠ b)
    {unset : Int} {flag : Bool} (hm : getMetricFromHashTable unset k flag s = none) :
    getMetricFromHashTable unset k flag s' = none := by
  unfold getMetricFromHashTable at hm ⊢
  rcases h.find hk with ⟨hf, hf'⟩ | ⟨m, m', hf, _⟩
  · rw [hf] at hm
    rw [hf']
    cases flag with
    | false => rfl
    | true => cases hm
  · rw [hf] at hm
    cases hm

theorem keys_set (s : Store V) (k : Text) (m : MetricState V) :
    (s.set k m).registry.keys = k :: s.registry.keys.filter (· ≠ k) := by
  refine (AList.keys_insert _).trans (congrArg (k :: ·) ?_)
  refine (@List.Nodup.erase_eq_filter _ instBEqOfDecidableEq _ _ s.registry.keys_nodup k).trans ?_
  exact List.filter_congr fun x _ => by rw [Bool.eq_iff_iff]; simp

theorem Alike.set {s s' : Store V} (h : Alike dataDir b s s') {k : Text} (hk : k ≠ b)
    {m m' : MetricState V} (hsame : SameMetric dataDir k m m') (hnamed : Named dataDir k m.entry)
    (heq : k ≠ downsampleCoarseDir b → m = m') : Alike dataDir b (s.set k m) (s'.set k m') := by
  refine ⟨?_, fun n hn => ?_, fun n hn => ?_, fun n hn hcoarse => ?_, fun n hn entry hl => ?_⟩
  · rw [keys_set, keys_set, List.filter_cons_of_pos (by simpa using hk), List.filter_comm, h.keys]
  · by_cases hnk : n = k
    · rw [hnk, Store.set, Store.set, AList.lookup_insert, AList.lookup_insert, hsame.entry]
    · rw [Store.set, Store.set, AList.lookup_insert_ne hnk, AList.lookup_insert_ne hnk]
      exact h.entries n hn
  · by_cases hnk : n = k
    · rw [hnk, dirOf_set, dirOf_set]
      exact hsame.files
    · rw [dirOf_set_ne s hnk, dirOf_set_ne s' hnk]
      exact h.files n hn
  · by_cases hnk : n = k
    · rw [hnk, dirOf_set, dirOf_set, heq (hnk ▸ hcoarse)]
    · rw [dirOf_set_ne s hnk, dirOf_set_ne s' hnk]
      exact h.dirs n hn hcoarse
  · by_cases hnk : n = k
    · subst hnk
      rw [Store.set, AList.lookup_insert] at hl
      obtain rfl := Option.some.inj hl
      exact hnamed
    · rw [Store.set, AList.lookup_insert_ne hnk] at hl
      exact h.named n hn entry hl

theorem Alike.set_left {s s' : Store V} (h : Alike dataDir b s s') (m : MetricState V) :
    Alike dataDir b (s.set b m) s' := by
  refine ⟨?_, fun n hn => ?_, fun n hn => ?_, fun n hn hcoarse => ?_, fun n hn entry hl => ?_⟩
  · rw [keys_set, List.filter_cons_of_neg (by simp), List.filter_filter, h.keys]
    exact List.filter_congr fun x _ => (Bool.and_self _).symm
  · rw [Store.set, AList.lookup_insert_ne hn]
    exact h.entries n hn
  · rw [dirOf_set_ne s hn]
    exact h.files n hn
  · rw [dirOf_set_ne s hn]
    exact h.dirs n hn hcoarse
  · rw [Store.set, AList.lookup_insert_ne hn] at hl
    exact h.named n hn entry hl

theorem Alike.setDir {s s' : Store V} (h : Alike dataDir b s s') {name : Text} {dir dir' : Dir V}
    (heq : name ≠ b → dir = dir') : Alike dataDir b (s.setDir name dir) (s'.setDir name dir') := by
  refine ⟨h.keys, h.entries, fun n hn => ?_, fun n hn hcoarse => ?_, h.named⟩
  · by_cases hname : n = name
    · rw [hname, dirOf_setDir, dirOf_setDir]
      exact .of_eq (heq (hname ▸ hn))
    · rw [dirOf_setDir_ne s hname, dirOf_setDir_ne s' hname]
      exact h.files n hn
  · by_cases hname : n = name
    · rw [hname, dirOf_setDir, dirOf_setDir]
      exact heq (hname ▸ hn)
    · rw [dirOf_setDir_ne s hname, dirOf_setDir_ne s' hname]
      exact h.dirs n hn hcoarse

theorem Alike.setDir_left {s s' : Store V} (h : Alike dataDir b s s') {dir : Dir V}
    (hfiles : SameFiles dataDir (downsampleCoarseDir b) dir (s.dirOf (downsampleCoarseDir b))) :
    Alike dataDir b (s.setDir (downsampleCoarseDir b) dir) s' := by
  refine ⟨h.keys, h.entries, fun n hn => ?_, fun n hn hcoarse => ?_, h.named⟩
  · by_cases hname : n = downsampleCoarseDir b
    · subst hname
      rw [dirOf_setDir]
      have hold := h.files _ hn
      exact ⟨hfiles.wal.trans hold.wal, fun ts => (hfiles.read ts).trans (hold.read ts)⟩
    · rw [dirOf_setDir_ne s hname]
      exact h.files n hn
  · rw [dirOf_setDir_ne s hcoarse]
    exact h.dirs n hn hcoarse

variable [Zero V] [Add V] [Div V] [NatCast V]

theorem round_registry (now : Int) (io : FlushIO) (k : Text) (i : Nat) (s : Store V) :
    (downsampleRound now io k i s).registry = s.registry := by
  unfold downsampleRound
  split
  · rfl
  · split <;> rfl

theorem pass_registry (s : Store V) (pass : Pass) : (pass.run s).registry = s.registry := by
  apply foldl_same (g := Store.registry)
  intro s k _
  unfold downsampleMetric
  split
  · rfl
  · apply foldl_same (g := Store.registry)
    exact fun s i _ => round_registry pass.now (pass.io k i) k i s

theorem Alike.round_left {s s' : Store V} (h : Alike dataDir b s s') (now : Int) (io : FlushIO)
    (i : Nat) : Alike dataDir b (downsampleRound now io b i s) s' := by
  unfold downsampleRound
  cases hashFindStr b s with
  | none => exact h
  | some m =>
    dsimp only
    cases m.entry.chunks[i]? with
    | none => exact h
    | some chunk =>
      apply h.setDir_left
      obtain ⟨hwal, hread⟩ := downsampleChunk_frame (now - downsampleAfterSeconds) io b m.dir
        (s.dirOf (downsampleCoarseDir b)) chunk
      exact ⟨hwal, fun ts => hread _ fun id => (coarseName_ne_chunkName dataDir b id _).symm⟩

theorem downsampleChunk_congr (cutoff : Int) (io : FlushIO) (metric : Text) {dir dir' : Dir V}
    (coarseDir : Dir V) {chunk : ChunkMetadata}
    (h : chunkRead dir chunk.filename = chunkRead dir' chunk.filename) :
    downsampleChunk cutoff io metric dir coarseDir chunk =
      downsampleChunk cutoff io metric dir' coarseDir chunk := by
  unfold downsampleChunk
  rw [h]

theorem Alike.round {s s' : Store V} (h : Alike dataDir b s s') {k : Text} (hk : k ≠ b) (now : Int)
    (io : FlushIO) (i : Nat) :
    Alike dataDir b (downsampleRound now io k i s) (downsampleRound now io k i s') := by
  unfold downsampleRound
  rcases h.find hk with ⟨hf, hf'⟩ | ⟨m, m', hf, hf', hsame, hnamed, _⟩
  · rw [hf, hf']
    exact h
  · rw [hf, hf']
    dsimp only
    rw [← hsame.entry]
    cases hi : m.entry.chunks[i]? with
    | none => exact h
    | some chunk =>
      apply h.setDir
      intro hcoarse
      rw [h.dirs _ hcoarse fun heq => hk (coarseDir_injective heq)]
      exact downsampleChunk_congr _ io k _ (hsame.chunkFile hnamed (List.mem_of_getElem? hi))

theorem Alike.metric_left {s s' : Store V} (h : Alike dataDir b s s') (now : Int)
    (io : Nat → FlushIO) : Alike dataDir b (downsampleMetric now io s b) s' := by
  unfold downsampleMetric
  cases hashFindStr b s with
  | none => exact h
  | some m =>
    exact foldl_keeps (P := fun s => Alike dataDir b s s')
      (fun s i _ hs => hs.round_left now (io i) i) h

theorem Alike.metric {s s' : Store V} (h : Alike dataDir b s s') {k : Text} (hk : k ≠ b) (now : Int)
    (io : Nat → FlushIO) :
    Alike dataDir b (downsampleMetric now io s k) (downsampleMetric now io s' k) := by
  unfold downsampleMetric
  rcases h.find hk with ⟨hf, hf'⟩ | ⟨m, m', hf, hf', hsame, _⟩
  · rw [hf, hf']
    exact h
  · rw [hf, hf']
    dsimp only
    rw [← hsame.entry]
    exact List.foldl_rel h fun i _ s s' hs => hs.round hk now (io i) i

theorem Alike.pass {s s' : Store V} (h : Alike dataDir b s s') (pass : Pass) :
    Alike dataDir b (pass.run s) (pass.run s') := by
  unfold Pass.run downsampleRunNow
  rw [h.keys]
  apply foldl_filter_related _ _ h
  · intro s s' k _ hk hs
    exact hs.metric (by simpa using hk) pass.now (pass.io k)
  · intro s s' k _ hk hs
    obtain rfl : k = b := by simpa using hk
    exact hs.metric_left pass.now (pass.io k)

end Tsdb.TwoStores
