import Tsdb.HashTable
import Tsdb.Lifetime

namespace Tsdb.HashedRegistry

open CStrings Head Files Registry Sections Service Retention Lifetime Folds Runs DoublyLinked Uthash
  HashTable

variable {E V : Type}

/-- The registry as it is in memory: a hash of `metric_registry` elements, the fields of each
besides `key` and `hh`, and the directories. -/
structure Memory (E V : Type) where
  hash : Hash E Text
  entries : E → MetricRegistry V
  dirs : AList fun _ : Text => Dir V

def Memory.dirOf (s : Memory E V) (name : Text) : Dir V := (s.dirs.lookup name).getD Dir.empty

def hashStr (key : Text) : UInt32 := hashJen (key.map fun c => UInt8.ofNat c.toNat)

def Memory.metric (s : Memory E V) (name : Text) (e : E) : MetricState V :=
  ⟨s.entries e, s.dirOf name⟩

section Operations

variable [DecidableEq E]

def Memory.set (s : Memory E V) (name : Text) (e : E) (m : MetricState V) : Memory E V :=
  ⟨s.hash, Function.update s.entries e m.entry, s.dirs.insert name m.dir⟩

/-- `getMetricFromHashTable`; `fresh` is the element that `malloc` hands out for a new metric. The
outer `none` is a chain that does not end, the inner one a read through a null pointer. -/
def Memory.getMetric (unset : Int) (fresh : E) (key : Text) (flag : Bool) (s : Memory E V) :
    Option (Option (E × Memory E V)) :=
  (hashFind hashStr key s.hash).bind fun
    | some tempEntry => some (some (tempEntry, s))
    | none =>
      if flag then
        (hashAdd hashStr fresh
          { s.hash with key := Function.update s.hash.key fresh (key.take 63) }).map fun hash =>
            some (fresh,
              ⟨hash, Function.update s.entries fresh ⟨getNewHeadBlock unset, [], 4⟩, s.dirs⟩)
      else some none

def orderSection (dataDir metric : Text) (io : FlushIO) (m : MetricState V) :
    Order V → Bool × MetricState V
  | .put point => putLocked dataDir metric io point m
  | .flush => flushSection dataDir metric io m

def Memory.request (dataDir : Text) (env : Env) (fresh : E) (metric : Text) (order : Order V)
    (s : Memory E V) : Option (Option (Bool × Memory E V)) :=
  (s.getMetric env.unset fresh metric order.isPut).map fun got => got.map fun (e, s) =>
    let out := orderSection dataDir metric env.io (s.metric metric e) order
    (out.1, s.set metric e out.2)

/-- One round of the loop of `run_expiry`. -/
def Memory.expireElement (cfg : RetentionConfig) (now : Int) (removes : Text → Nat → Bool)
    (s : Memory E V) (e : E) : Memory E V :=
  let name := s.hash.key e
  s.set name e (expireMetric cfg now (removes name) name (s.metric name e))

def Memory.runExpiry (cfg : RetentionConfig) (now : Int) (removes : Text → Nat → Bool)
    (s : Memory E V) : Memory E V :=
  (hashIter s.hash).foldl (Memory.expireElement cfg now removes) s

end Operations

def serveAnswer (dataDir : Text) (env : Env) (metric : Text) (t : Store V) :
    Order V → Option (Bool × Store V)
  | .put point => headPut dataDir env metric point t
  | .flush => headFlush dataDir env metric t

/-- The elements stand for the metrics of the map. -/
structure Backs (s : Memory E V) (items : List E) (t : Store V) : Prop where
  hash : Represents hashStr s.hash items
  keys : (items.map s.hash.key).Nodup
  found : ∀ x ∈ items, hashFindStr (s.hash.key x) t = some (s.metric (s.hash.key x) x)
  absent : ∀ k, (∀ x ∈ items, s.hash.key x ≠ k) → hashFindStr k t = none
  dirs : ∀ k, s.dirOf k = t.dirOf k

theorem Backs.find {s : Memory E V} {items : List E} {t : Store V} (h : Backs s items t)
    (k : Text) :
    ∃ out, hashFind hashStr k s.hash = some out ∧ (∀ e ∈ out, e ∈ items ∧ s.hash.key e = k) ∧
      hashFindStr k t = out.map (s.metric k) := by
  obtain ⟨out, hout, hmem, hnone⟩ := hashFind_spec h.hash k
  refine ⟨out, hout, hmem, ?_⟩
  cases out with
  | none => exact h.absent k (hnone rfl)
  | some e =>
    obtain ⟨he, hkey⟩ := hmem e rfl
    have hfound := h.found e he
    rwa [hkey] at hfound

theorem Backs.congr {s : Memory E V} {items : List E} {t t' : Store V} (h : Backs s items t)
    (hfind : ∀ k, hashFindStr k t' = hashFindStr k t) (hdir : ∀ k, t'.dirOf k = t.dirOf k) :
    Backs s items t' := by
  refine ⟨h.hash, h.keys, fun x hx => ?_, fun k hk => ?_, fun k => (h.dirs k).trans (hdir k).symm⟩
  · rw [hfind]
    exact h.found x hx
  · rw [hfind]
    exact h.absent k hk

theorem Backs.keys_perm {s : Memory E V} {items : List E} {t : Store V} (h : Backs s items t) :
    (items.map s.hash.key).Perm t.registry.keys := by
  apply (List.perm_ext_iff_of_nodup h.keys t.registry.keys_nodup).mpr
  intro k
  rw [← AList.mem_keys, mem_registry, List.mem_map]
  constructor
  · rintro ⟨x, hx, rfl⟩
    rw [h.found x hx]
    exact Option.some_ne_none _
  · intro hne
    by_contra hnot
    push Not at hnot
    exact hne (h.absent k hnot)

theorem serveAnswer_eq (dataDir : Text) (env : Env) (metric : Text) (t : Store V)
    (order : Order V) :
    serveAnswer dataDir env metric t order =
      (getMetricFromHashTable env.unset metric order.isPut t).map fun m =>
        let out := orderSection dataDir metric env.io m order
        (out.1, t.set metric out.2) := by
  cases order with
  | put point =>
    unfold serveAnswer headPut
    dsimp only [Order.isPut]
    cases getMetricFromHashTable env.unset metric true t <;> rfl
  | flush =>
    unfold serveAnswer headFlush
    dsimp only [Order.isPut]
    cases getMetricFromHashTable env.unset metric false t <;> rfl

variable [DecidableEq E]

theorem dirOf_memory_set (s : Memory E V) (name : Text) (e : E) (m : MetricState V) :
    (s.set name e m).dirOf name = m.dir := by
  simp [Memory.set, Memory.dirOf]

theorem dirOf_memory_set_ne (s : Memory E V) {name other : Text} (h : other ≠ name) (e : E)
    (m : MetricState V) : (s.set name e m).dirOf other = s.dirOf other := by
  simp [Memory.set, Memory.dirOf, AList.lookup_insert_ne h]

theorem Backs.set {s : Memory E V} {items : List E} {t : Store V} (h : Backs s items t) {e : E}
    (he : e ∈ items) (m : MetricState V) :
    Backs (s.set (s.hash.key e) e m) items (t.set (s.hash.key e) m) := by
  have hdirs (k : Text) :
      (s.set (s.hash.key e) e m).dirOf k = (t.set (s.hash.key e) m).dirOf k := by
    by_cases hk : k = s.hash.key e
    · rw [hk, dirOf_memory_set, dirOf_set]
    · rw [dirOf_memory_set_ne s hk, dirOf_set_ne t hk]
      exact h.dirs k
  refine ⟨h.hash, h.keys, fun x hx => ?_, fun k hk => ?_, hdirs⟩
  · by_cases hxe : x = e
    · subst hxe
      unfold Memory.metric
      rw [hdirs]
      dsimp only [Memory.set]
      rw [find_set, dirOf_set, Function.update_self]
    · have hkey : s.hash.key x ≠ s.hash.key e := fun hkey =>
        hxe (List.inj_on_of_nodup_map h.keys hx he hkey)
      have hfound := h.found x hx
      unfold Memory.metric at hfound ⊢
      rw [dirOf_memory_set_ne s (by exact hkey)]
      dsimp only [Memory.set]
      rw [find_set_ne t hkey, hfound, Function.update_of_ne hxe]
  · have hne : k ≠ s.hash.key e := (hk e he).symm
    rw [find_set_ne t hne]
    exact h.absent k hk

theorem Backs.add {s : Memory E V} {items : List E} {t : Store V} (h : Backs s items t) {key : Text}
    (hlength : key.length ≤ 63) {fresh : E} (hfresh : fresh ∉ items)
    (hnone : hashFindStr key t = none)
    (entry : MetricRegistry V) :
    ∃ hash, hashAdd hashStr fresh
        { s.hash with key := Function.update s.hash.key fresh (key.take 63) } = some hash ∧
      hash.key fresh = key ∧
      Backs ⟨hash, Function.update s.entries fresh entry, s.dirs⟩ (items ++ [fresh])
        (t.set key ⟨entry, t.dirOf key⟩) := by
  rw [List.take_of_length_le hlength]
  have hold {x : E} (hx : x ∈ items) : Function.update s.hash.key fresh key x = s.hash.key x := by
    apply Function.update_of_ne
    rintro rfl
    exact hfresh hx
  have hne {x : E} (hx : x ∈ items) : s.hash.key x ≠ key := by
    intro hkey
    have hfound := h.found x hx
    rw [hkey, hnone] at hfound
    cases hfound
  have hrep :
      Represents hashStr { s.hash with key := Function.update s.hash.key fresh key } items :=
    ⟨h.hash.list, h.hash.first, fun x hx =>
      (h.hash.hashed x hx).trans (congrArg hashStr (hold hx).symm), h.hash.table⟩
  obtain ⟨hash, hadd, hnew, hkey⟩ := hashAdd_spec hrep hfresh
  dsimp only at hkey
  have hmap : items.map (Function.update s.hash.key fresh key) = items.map s.hash.key :=
    List.map_congr_left fun x hx => hold hx
  have hdir (k : Text) : (t.set key ⟨entry, t.dirOf key⟩).dirOf k = t.dirOf k := by
    by_cases hk : k = key
    · rw [hk, dirOf_set]
    · exact dirOf_set_ne t hk _
  refine ⟨hash, hadd, by rw [hkey, Function.update_self], hnew, ?_, fun x hx => ?_, fun k hk => ?_,
    fun k => (h.dirs k).trans (hdir k).symm⟩
  · dsimp only
    rw [hkey, List.map_append, hmap, List.map_singleton, Function.update_self]
    refine Disk.nodup_concat h.keys fun hmem => ?_
    obtain ⟨x, hx, hk⟩ := List.mem_map.mp hmem
    exact hne hx hk
  · unfold Memory.metric Memory.dirOf
    dsimp only
    rw [hkey]
    rcases List.mem_append.mp hx with hmem | hmem
    · have hxf : x ≠ fresh := by
        rintro rfl
        exact hfresh hmem
      rw [hold hmem, find_set_ne t (hne hmem), Function.update_of_ne hxf]
      exact h.found x hmem
    · rw [List.mem_singleton.mp hmem, Function.update_self, Function.update_self, find_set]
      exact congrArg (fun dir : Dir V => some (⟨entry, dir⟩ : MetricState V)) (h.dirs key).symm
  · dsimp only at hk
    rw [hkey] at hk
    have hk' : k ≠ key := by
      have hself := hk fresh (by simp)
      rw [Function.update_self] at hself
      exact hself.symm
    rw [find_set_ne t hk']
    apply h.absent
    intro x hx
    have hother := hk x (List.mem_append_left _ hx)
    rwa [hold hx] at hother

theorem set_set (t : Store V) (key : Text) (m m' : MetricState V) :
    (t.set key m).set key m' = t.set key m' := by
  unfold Store.set
  dsimp only
  rw [AList.insert_insert, AList.insert_insert]

theorem request_backed {s : Memory E V} {items : List E} {t : Store V} (h : Backs s items t)
    {dataDir metric : Text} (hlength : metric.length ≤ 63) {fresh : E} (hfresh : fresh ∉ items)
    (env : Env) (order : Order V) :
    (s.request dataDir env fresh metric order = some none ∧
        serveAnswer dataDir env metric t order = none) ∨
      ∃ res s' t' items', s.request dataDir env fresh metric order = some (some (res, s')) ∧
        serveAnswer dataDir env metric t order = some (res, t') ∧ Backs s' items' t' := by
  obtain ⟨out, hout, hmem, hfind⟩ := h.find metric
  rw [serveAnswer_eq]
  unfold Memory.request Memory.getMetric
  rw [hout]
  cases out with
  | some e =>
    obtain ⟨he, hkey⟩ := hmem e rfl
    have hget :
        getMetricFromHashTable env.unset metric order.isPut t = some (s.metric metric e) := by
      unfold getMetricFromHashTable
      rw [hfind]
      rfl
    have hset := h.set he (orderSection dataDir metric env.io (s.metric metric e) order).2
    rw [hkey] at hset
    rw [hget]
    exact .inr ⟨_, _, _, items, rfl, rfl, hset⟩
  | none =>
    have hget : getMetricFromHashTable env.unset metric order.isPut t =
        if order.isPut then some ⟨⟨getNewHeadBlock env.unset, [], 4⟩, t.dirOf metric⟩
        else none := by
      unfold getMetricFromHashTable
      rw [hfind]
      rfl
    rw [hget]
    cases hput : order.isPut with
    | false => exact .inl ⟨rfl, rfl⟩
    | true =>
      obtain ⟨hash, hadd, hkey, hnew⟩ :=
        h.add hlength hfresh hfind ⟨getNewHeadBlock env.unset, [], 4⟩
      right
      simp only [Option.bind_some, if_true, hadd, Option.map_some]
      have hmetric : Memory.metric ⟨hash, Function.update s.entries fresh
          ⟨getNewHeadBlock env.unset, [], 4⟩, s.dirs⟩ metric fresh =
            ⟨⟨getNewHeadBlock env.unset, [], 4⟩, t.dirOf metric⟩ := by
        unfold Memory.metric
        dsimp only
        rw [Function.update_self, ← h.dirs metric]
        rfl
      rw [hmetric]
      refine ⟨_, _, _, items ++ [fresh], rfl, rfl, ?_⟩
      have hset := hnew.set (List.mem_append_right _ (List.mem_singleton_self fresh))
        (orderSection dataDir metric env.io
          ⟨⟨getNewHeadBlock env.unset, [], 4⟩, t.dirOf metric⟩ order).2
      dsimp only at hset
      rwa [hkey, set_set] at hset

/-- What one round of the loop of `run_expiry` does, whatever the order of the rounds. -/
theorem find_expireEntries {cfg : RetentionConfig} {now : Int} {removes : Text → Nat → Bool}
    {names : List Text} (hnodup : names.Nodup) (t : Store V) (k : Text) :
    hashFindStr k (names.foldl (expireEntry cfg now removes) t) =
      if k ∈ names then (hashFindStr k t).map (expireMetric cfg now (removes k) k)
      else hashFindStr k t := by
  by_cases hk : k ∈ names
  · obtain ⟨t', ht', hend⟩ := foldl_once (f := expireEntry cfg now removes) (g := hashFindStr k)
      hnodup hk (fun s metric _ hne => (expireEntry_ne cfg now removes s hne.symm).1) t
    rw [if_pos hk, hend, expireEntry, ht']
    cases hf : hashFindStr k t with
    | none => exact ht'.trans hf
    | some m => exact find_set _ _ _
  · rw [if_neg hk]
    apply foldl_same
    intro t' metric hmetric
    apply (expireEntry_ne cfg now removes t' _).1
    rintro rfl
    exact hk hmetric

theorem dirOf_expireEntries {cfg : RetentionConfig} {now : Int} {removes : Text → Nat → Bool}
    {names : List Text} (hnodup : names.Nodup) (t : Store V) (k : Text) :
    (names.foldl (expireEntry cfg now removes) t).dirOf k =
      if k ∈ names then ((hashFindStr k t).map fun m =>
        (expireMetric cfg now (removes k) k m).dir).getD (t.dirOf k)
      else t.dirOf k := by
  have hfind := @find_expireEntries V cfg now removes names hnodup t k
  by_cases hk : k ∈ names
  · rw [if_pos hk] at hfind ⊢
    cases hf : hashFindStr k t with
    | some m =>
      rw [hf] at hfind
      exact (find_dir hfind).symm
    | none =>
      obtain ⟨t', ht', hend⟩ := foldl_once (f := expireEntry cfg now removes)
        (g := fun s : Store V => (hashFindStr k s, s.dirOf k)) hnodup hk
        (fun s metric _ hne => Prod.ext_iff.mpr (expireEntry_ne cfg now removes s hne.symm)) t
      obtain ⟨hnone, hdir⟩ := Prod.mk.inj ht'
      have hend := congrArg Prod.snd hend
      dsimp only at hend
      rw [hend, expireEntry, hnone, hf]
      exact hdir
  · rw [if_neg hk]
    apply foldl_same (g := fun s : Store V => s.dirOf k)
    intro t' metric hmetric
    apply (expireEntry_ne cfg now removes t' _).2
    rintro rfl
    exact hk hmetric

theorem expire_backed {s : Memory E V} {items : List E} {t : Store V} (h : Backs s items t)
    (cfg : RetentionConfig) (now : Int) (removes : Text → Nat → Bool) :
    Backs (s.runExpiry cfg now removes) items (runExpiry cfg now removes t) := by
  have hloop {rest : List E} (hrest : rest ⊆ items) {s' : Memory E V} {t' : Store V}
      (h' : Backs s' items t') (hsame : s'.hash = s.hash) :
      Backs (rest.foldl (Memory.expireElement cfg now removes) s') items
        ((rest.map s.hash.key).foldl (expireEntry cfg now removes) t') := by
    induction rest generalizing s' t' with
    | nil => exact h'
    | cons e rest ih =>
      have he : e ∈ items := hrest (by simp)
      apply ih fun x hx => hrest (List.mem_cons_of_mem _ hx)
      · have hset := h'.set he (expireMetric cfg now (removes (s'.hash.key e)) (s'.hash.key e)
          (s'.metric (s'.hash.key e) e))
        have hentry : expireEntry cfg now removes t' (s.hash.key e) =
            t'.set (s'.hash.key e) (expireMetric cfg now (removes (s'.hash.key e)) (s'.hash.key e)
              (s'.metric (s'.hash.key e) e)) := by
          rw [← hsame, expireEntry, h'.found e he]
        rw [hentry]
        exact hset
      · exact hsame
  have hperm := h.keys_perm
  unfold Memory.runExpiry
  rw [hashIter_spec h.hash]
  apply (hloop (List.Subset.refl _) h rfl).congr
  · intro k
    rw [runExpiry, find_expireEntries t.registry.keys_nodup, find_expireEntries h.keys,
      if_congr hperm.mem_iff.symm rfl rfl]
  · intro k
    rw [runExpiry, dirOf_expireEntries t.registry.keys_nodup, dirOf_expireEntries h.keys,
      if_congr hperm.mem_iff.symm rfl rfl]

inductive Use (E V : Type) where
  | request (env : Env) (fresh : E) (metric : Text) (order : Order V)
  | expire (cfg : RetentionConfig) (now : Int) (removes : Text → Nat → Bool)

/-- `none` is the null pointer of a `FLUSH` for an unknown metric. -/
def Memory.run (dataDir : Text) (s : Memory E V) : Use E V → Option (Memory E V)
  | .request env fresh metric order =>
    (s.request dataDir env fresh metric order).bind fun out => out.map Prod.snd
  | .expire cfg now removes => some (s.runExpiry cfg now removes)

def serveUse (dataDir : Text) (t : Store V) : Use E V → Option (Store V)
  | .request env _ metric order => (serveAnswer dataDir env metric t order).map Prod.snd
  | .expire cfg now removes => some (runExpiry cfg now removes t)

/-- A request names its metric in the 64 bytes of a `Request`, and `malloc` hands out no element
that is in use. -/
def Fits (s : Memory E V) : Use E V → Prop
  | .request _ fresh metric _ =>
    EntryName metric ∧ metric.length ≤ 63 ∧ fresh ∉ hashIter s.hash
  | .expire _ _ _ => True

def Unused (s : Memory E V) : Prop := s.hash.head = none ∧ s.dirs = ∅

omit [DecidableEq E] in
theorem unused_backed {s : Memory E V} (h : Unused s) : Backs s [] (Store.empty : Store V) := by
  obtain ⟨hhead, hdirs⟩ := h
  have hrep : Represents hashStr s.hash [] := by
    refine ⟨⟨.nil, trivial⟩, by rw [hhead]; rfl, fun x hx => absurd hx List.not_mem_nil, ?_⟩
    intro first t ht
    rw [hhead] at ht
    cases ht
  refine ⟨hrep, .nil, fun x hx => absurd hx List.not_mem_nil, fun k _ => rfl, fun k => ?_⟩
  unfold Memory.dirOf
  rw [hdirs]
  rfl

theorem use_backed {dataDir : Text} {s : Memory E V} {items : List E} {t : Store V}
    (h : Backs s items t) {x : Use E V} (hfits : Fits s x) :
    s.run dataDir x = none ∧ serveUse dataDir t x = none ∨
      ∃ s' items' t', s.run dataDir x = some s' ∧ serveUse dataDir t x = some t' ∧
        Backs s' items' t' := by
  cases x with
  | request env fresh metric order =>
    obtain ⟨_, hlength, hfresh⟩ := hfits
    rw [hashIter_spec h.hash] at hfresh
    rcases @request_backed E V _ s items t h dataDir metric hlength fresh hfresh env order with
      ⟨hnull, hanswer⟩ | ⟨res, s', t', items', hres, hanswer, hback⟩
    · exact .inl ⟨by rw [Memory.run, hnull]; rfl, by rw [serveUse, hanswer]; rfl⟩
    · exact .inr ⟨s', items', t', by rw [Memory.run, hres]; rfl, by rw [serveUse, hanswer]; rfl,
        hback⟩
  | expire cfg now removes =>
    exact .inr ⟨_, items, _, rfl, rfl, expire_backed h cfg now removes⟩

theorem uses_backed {dataDir : Text} {xs : List (Use E V)} {s : Memory E V} {items : List E}
    {t : Store V} (h : Backs s items t) (hfits : Allowed Fits (Memory.run dataDir) xs s) :
    xs.foldlM (Memory.run dataDir) s = none ∧ xs.foldlM (serveUse dataDir) t = none ∨
      ∃ s' items' t', xs.foldlM (Memory.run dataDir) s = some s' ∧
        xs.foldlM (serveUse dataDir) t = some t' ∧ Backs s' items' t' := by
  induction xs generalizing s items t with
  | nil => exact .inr ⟨s, items, t, rfl, rfl, h⟩
  | cons x xs ih =>
    obtain ⟨hx, hxs⟩ := hfits
    rw [List.foldlM_cons, List.foldlM_cons]
    rcases use_backed h hx with ⟨hs, ht⟩ | ⟨s1, items1, t1, hs, ht, hback⟩
    · rw [hs, ht]
      exact .inl ⟨rfl, rfl⟩
    · rw [hs, ht]
      exact ih hback (hxs s1 hs)

/-- The hash table behind the registry is a finite map. Requests and expiry passes, with all the
expansions they bring about, lead to a memory that stands for the map they lead to, or fail on
both: `HASH_FIND_STR` finds the element of each metric and no other, `HASH_ITER` meets each once, the
next request is answered as on the map, and `cleanupRegistry` takes every element out. -/
theorem registry_hashed {dataDir : Text} {xs : List (Use E V)} {start : Memory E V}
    (hunused : Unused start) (hfits : Allowed Fits (Memory.run dataDir) xs start) :
    (xs.foldlM (Memory.run dataDir) start).isSome =
        (xs.foldlM (serveUse dataDir) (Store.empty : Store V)).isSome ∧
      ∀ s t, xs.foldlM (Memory.run dataDir) start = some s →
        xs.foldlM (serveUse dataDir) Store.empty = some t →
        (∀ k, ∃ out, hashFind hashStr k s.hash = some out ∧
          hashFindStr k t = out.map (s.metric k)) ∧
        ((hashIter s.hash).map s.hash.key).Perm t.registry.keys ∧
        (∀ k, s.dirOf k = t.dirOf k) ∧
        (∀ env fresh metric order, metric.length ≤ 63 → fresh ∉ hashIter s.hash →
          (s.request dataDir env fresh metric order).map (fun out => out.map Prod.fst) =
            some ((serveAnswer dataDir env metric t order).map Prod.fst)) ∧
        ∃ hash, hashIterDel (hashIter s.hash).length (s.hash.head.map Prod.fst)
            ((s.hash.head.map Prod.fst).bind s.hash.list.next) s.hash =
              some (hashIter s.hash, hash) ∧ hash.head = none := by
  rcases uses_backed (unused_backed hunused) hfits with ⟨hs, ht⟩ | ⟨s, items, t, hs, ht, hback⟩
  · refine ⟨by rw [hs, ht]; rfl, fun s t hs' => ?_⟩
    rw [hs] at hs'
    cases hs'
  refine ⟨by rw [hs, ht]; rfl, fun s' t' hs' ht' => ?_⟩
  obtain rfl := Option.some.inj (hs.symm.trans hs')
  obtain rfl := Option.some.inj (ht.symm.trans ht')
  have hiter := hashIter_spec hback.hash
  refine ⟨fun k => ?_, ?_, hback.dirs, fun env fresh metric order hlength hfresh => ?_, ?_⟩
  · obtain ⟨out, hout, _, hfind⟩ := hback.find k
    exact ⟨out, hout, hfind⟩
  · rw [hiter]
    exact hback.keys_perm
  · rw [hiter] at hfresh
    rcases request_backed hback hlength hfresh env order with
      ⟨hnull, hanswer⟩ | ⟨res, s', t', _, hres, hanswer, _⟩
    · rw [hnull, hanswer]
      rfl
    · rw [hres, hanswer]
      rfl
  · obtain ⟨hash, hloop, hempty, _⟩ := hashIterDel_spec hback.hash le_rfl
    have hnext : items.head?.bind s.hash.list.next = items.tail.head? := by
      cases items with
      | nil => rfl
      | cons x items =>
        obtain ⟨_, hnext, _⟩ := hback.hash.list.segment
        rwa [Option.or_none] at hnext
    refine ⟨hash, ?_, hempty⟩
    rw [hiter, hback.hash.first, hnext]
    exact hloop

def Memory.start : Memory Nat V :=
  ⟨⟨fun _ => [], fun _ => 0, ⟨fun _ => none, fun _ => none⟩, ⟨fun _ => none, fun _ => none⟩, none⟩,
    fun _ => ⟨⟨[], 0⟩, [], 4⟩, ∅⟩

private def twoPuts : List (Use Nat Nat) :=
  [.request ⟨0, .ok⟩ 3 ['m'] (.put ⟨5, 1⟩), .request ⟨0, .ok⟩ 8 ['n'] (.put ⟨7, 2⟩)]

/-- Two metrics in the elements at 3 and 8. -/
theorem registry_hashed_two_metrics : ∃ (s : Memory Nat Nat) (t : Store Nat),
    twoPuts.foldlM (Memory.run ['d']) Memory.start = some s ∧
    twoPuts.foldlM (serveUse ['d']) Store.empty = some t ∧
    hashIter s.hash = [3, 8] ∧ hashFind hashStr ['n'] s.hash = some (some 8) ∧
    hashFindStr ['n'] t = some (s.metric ['n'] 8) ∧ [['m'], ['n']].Perm t.registry.keys := by
  have hrun : ∃ s1 s2 : Memory Nat Nat,
      Memory.start.run ['d'] (.request ⟨0, .ok⟩ 3 ['m'] (.put ⟨5, 1⟩)) = some s1 ∧
      twoPuts.foldlM (Memory.run ['d']) Memory.start = some s2 ∧
      hashIter s1.hash = [3] ∧ hashIter s2.hash = [3, 8] ∧
      hashFind hashStr ['n'] s2.hash = some (some 8) ∧
      (hashIter s2.hash).map s2.hash.key = [['m'], ['n']] := by
    refine ⟨_, _, rfl, rfl, ?_⟩
    decide +kernel
  obtain ⟨s1, s2, h1, h2, hiter1, hiter, hfind, hkeys⟩ := hrun
  have hfits : Allowed Fits (Memory.run ['d']) twoPuts (Memory.start : Memory Nat Nat) := by
    refine ⟨⟨by decide, by decide, List.not_mem_nil⟩, fun s hs => ?_⟩
    obtain rfl := Option.some.inj (h1.symm.trans hs)
    exact ⟨⟨by decide, by decide, by rw [hiter1]; decide⟩, fun _ _ => trivial⟩
  obtain ⟨hsome, hall⟩ := registry_hashed ⟨rfl, rfl⟩ hfits
  rw [h2] at hsome
  obtain ⟨t, ht⟩ := Option.isSome_iff_exists.mp hsome.symm
  obtain ⟨hmap, hperm, _⟩ := hall s2 t h2 ht
  obtain ⟨out, hout, hmetric⟩ := hmap ['n']
  obtain rfl := Option.some.inj (hfind.symm.trans hout)
  rw [hkeys] at hperm
  exact ⟨s2, t, h2, ht, hiter, hfind, hmetric, hperm⟩

end Tsdb.HashedRegistry
