import Tsdb.Uthash

namespace Tsdb.HashTable

open DoublyLinked Uthash

variable {E K : Type}

def Chained (l : Links E) (b : Bucket E) (p : E → Prop) : Prop :=
  ∃ chain : List E, Linked l chain ∧ b.hhHead = chain.head? ∧ b.count = chain.length ∧
    ∀ x, x ∈ chain ↔ p x

/-- The table has these elements, each in the bucket of its hash value. -/
structure TableFor (hashv : E → UInt32) (chain : Links E) (items : List E) (t : Table E) :
    Prop where
  tail : items.getLast? = some t.tail
  count : t.numItems = items.length
  power : t.numBuckets = 2 ^ t.log2NumBuckets
  buckets : ∀ i < t.numBuckets,
    Chained chain (t.buckets i) fun x => x ∈ items ∧ hashToBkt (hashv x) t.numBuckets = i

structure Represents (hash : K → UInt32) (h : Hash E K) (items : List E) : Prop where
  list : Linked h.list items
  first : h.head.map Prod.fst = items.head?
  hashed : ∀ x ∈ items, h.hashv x = hash (h.key x)
  table : ∀ first t, h.head = some (first, t) → TableFor h.hashv h.chain items t

theorem Chained.congr {l : Links E} {b : Bucket E} {p q : E → Prop} (h : Chained l b p)
    (hpq : ∀ x, p x ↔ q x) : Chained l b q := by
  obtain ⟨chain, hlinked, hhead, hcount, hmem⟩ := h
  exact ⟨chain, hlinked, hhead, hcount, fun x => (hmem x).trans (hpq x)⟩

theorem chained_empty (l : Links E) {p : E → Prop} (h : ∀ x, ¬ p x) : Chained l ⟨none, 0, 0⟩ p :=
  ⟨[], ⟨.nil, trivial⟩, rfl, rfl, fun x => iff_of_false List.not_mem_nil (h x)⟩

theorem hashToBkt_lt (hashv : UInt32) {numBkts : Nat} (h : 0 < numBkts) :
    hashToBkt hashv numBkts < numBkts := by
  have hle : hashToBkt hashv numBkts ≤ numBkts - 1 := Nat.and_le_right
  omega

theorem TableFor.pos {hashv : E → UInt32} {chain : Links E} {items : List E} {t : Table E}
    (h : TableFor hashv chain items t) : 0 < t.numBuckets := by
  rw [h.power]
  exact Nat.two_pow_pos _

variable {hash : K → UInt32} {h : Hash E K} {items : List E}

theorem hashIter_spec (hrep : Represents hash h items) : hashIter h = items := by
  unfold hashIter
  have hfirst := hrep.first
  cases hhead : h.head with
  | none =>
    rw [hhead] at hfirst
    exact (List.head?_eq_none_iff.mp hfirst.symm).symm
  | some ft =>
    obtain ⟨first, t⟩ := ft
    rw [hhead] at hfirst
    have hwalk := walk_segment hrep.list.segment (hrep.table first t hhead).count.ge
    rwa [← hfirst] at hwalk

section Find

variable [DecidableEq K]

/-- `HASH_FIND_STR` comes to an end, at an element with the key if there is one. -/
theorem hashFind_spec (hrep : Represents hash h items) (key : K) :
    ∃ out, hashFind hash key h = some out ∧ (∀ x ∈ out, x ∈ items ∧ h.key x = key) ∧
      (out = none → ∀ x ∈ items, h.key x ≠ key) := by
  unfold hashFind
  cases hhead : h.head with
  | none =>
    have hfirst := hrep.first
    rw [hhead] at hfirst
    rw [List.head?_eq_none_iff.mp hfirst.symm]
    exact ⟨none, rfl, fun _ hx => (nomatch hx), fun _ _ hx => absurd hx List.not_mem_nil⟩
  | some ft =>
    obtain ⟨first, t⟩ := ft
    have htable := hrep.table first t hhead
    obtain ⟨chain, hlinked, hchain, _, hmem⟩ :=
      htable.buckets _ (hashToBkt_lt (hash key) htable.pos)
    have hfuel : chain.length ≤ t.numItems := by
      rw [htable.count]
      exact (hlinked.nodup.subperm fun x hx => ((hmem x).mp hx).1).length_le
    refine ⟨_, by dsimp only; rw [hchain, find_segment hlinked.segment hfuel], ?_, ?_⟩
    · intro x hx
      rw [Option.mem_def] at hx
      have hp := List.find?_some hx
      rw [decide_eq_true_iff] at hp
      exact ⟨((hmem x).mp (List.mem_of_find?_eq_some hx)).1, hp.2⟩
    · intro hnone x hx hkey
      have hhash : h.hashv x = hash key := by rw [hrep.hashed x hx, hkey]
      have hp := List.find?_eq_none.mp hnone x ((hmem x).mpr ⟨hx, by rw [hhash]⟩)
      exact hp (decide_eq_true ⟨hhash, hkey⟩)

end Find

variable [DecidableEq E]

theorem chained_push {l : Links E} {buckets : Nat → Bucket E} {bkt i : Nat} {p : Nat → E → Prop}
    {x : E} (hbkt : Chained l (buckets bkt) (p bkt)) (hi : Chained l (buckets i) (p i))
    (hnew : ∀ j, ¬ p j x) (hapart : ∀ j y, p j y → p bkt y → j = bkt) (mult : Nat) :
    Chained (pushFront x (buckets bkt).hhHead l)
      (Function.update buckets bkt ⟨some x, (buckets bkt).count + 1, mult⟩ i)
      fun y => y = x ∧ i = bkt ∨ p i y := by
  obtain ⟨chain, hlinked, hhead, hcount, hmem⟩ := hbkt
  rw [hhead]
  by_cases hib : i = bkt
  · subst hib
    rw [Function.update_self]
    refine ⟨x :: chain, linked_pushFront hlinked fun hx => hnew i ((hmem x).mp hx), rfl, ?_, ?_⟩
    · rw [hcount]
      rfl
    · intro y
      simp [hmem]
  · obtain ⟨other, hother, hhead', hcount', hmem'⟩ := hi
    rw [Function.update_of_ne hib]
    refine ⟨other, ?_, hhead', hcount', fun y => ?_⟩
    · apply linked_pushFront_other hother
      · exact fun hx => hnew i ((hmem' x).mp hx)
      · exact fun y hy hy' => hib (hapart i y ((hmem' y).mp hy') ((hmem y).mp hy))
    · simp [hmem', hib]

section Expand

variable {hashv : E → UInt32} {numBkts ideal : Nat}

def Moving (hashv : E → UInt32) (numBkts : Nat) (done : E → Prop) (s : Moved E) : Prop :=
  ∀ i < numBkts, Chained s.chain (s.buckets i) fun x => done x ∧ hashToBkt (hashv x) numBkts = i

theorem moving_handle {done : E → Prop} {s : Moved E} (h : Moving hashv numBkts done s) {x : E}
    (hx : ¬ done x) :
    Moving hashv numBkts (fun y => y = x ∨ done y) (moveHandle hashv numBkts ideal x s) := by
  intro i hi
  have hbkt := hashToBkt_lt (hashv x) (show 0 < numBkts by omega)
  apply (chained_push (p := fun i y => done y ∧ hashToBkt (hashv y) numBkts = i) (h _ hbkt) (h i hi)
    (fun j hp => hx hp.1) (fun j y hp hq => hp.2.symm.trans hq.2) _).congr
  intro y
  constructor
  · rintro (⟨rfl, rfl⟩ | ⟨hy, hb⟩)
    · exact ⟨.inl rfl, rfl⟩
    · exact ⟨.inr hy, hb⟩
  · rintro ⟨rfl | hy, hb⟩
    · exact .inl ⟨rfl, hb.symm⟩
    · exact .inr ⟨hy, hb⟩

theorem moveHandle_frame {done : E → Prop} {s : Moved E} (h : Moving hashv numBkts done s)
    (hpos : 0 < numBkts) {x y : E} (hx : y ≠ x) (hy : ¬ done y) :
    (moveHandle hashv numBkts ideal x s).chain.prev y = s.chain.prev y ∧
      (moveHandle hashv numBkts ideal x s).chain.next y = s.chain.next y := by
  obtain ⟨chain, _, hhead, _, hmem⟩ := h _ (hashToBkt_lt (hashv x) hpos)
  apply pushFront_frame hx
  intro he
  rw [hhead] at he
  exact hy ((hmem y).mp (List.mem_of_mem_head? he)).1

theorem moveChain_spec (hpos : 0 < numBkts) {rest : List E} {before : Option E} {fuel : Nat}
    {done : E → Prop} {s : Moved E} (hmoving : Moving hashv numBkts done s)
    (hseg : Segment s.chain before rest none) (hnodup : rest.Nodup) (hnew : ∀ x ∈ rest, ¬ done x)
    (hfuel : rest.length ≤ fuel) :
    ∃ s', moveChain hashv numBkts ideal fuel rest.head? s = some s' ∧
      Moving hashv numBkts (fun y => y ∈ rest ∨ done y) s' ∧
      ∀ y, y ∉ rest → ¬ done y →
        s'.chain.prev y = s.chain.prev y ∧ s'.chain.next y = s.chain.next y := by
  induction rest generalizing before fuel done s with
  | nil =>
    refine ⟨s, by cases fuel <;> rfl, fun i hi => (hmoving i hi).congr fun x => ?_,
      fun _ _ _ => ⟨rfl, rfl⟩⟩
    simp
  | cons x rest ih =>
    obtain ⟨hx, hnodup⟩ := List.nodup_cons.mp hnodup
    obtain ⟨_, hnext, hseg⟩ := hseg
    obtain ⟨fuel, rfl⟩ : ∃ n, fuel = n + 1 := ⟨fuel - 1, by rw [List.length_cons] at hfuel; omega⟩
    have hdone : ¬ done x := hnew x (by simp)
    have hframe {y : E} (hy : y ≠ x) (hyd : ¬ done y) :=
      @moveHandle_frame E _ hashv numBkts ideal done s hmoving hpos x y hy hyd
    have hrest : ∀ y ∈ rest, y ≠ x ∧ ¬ done y := by
      intro y hy
      refine ⟨?_, hnew y (List.mem_cons_of_mem _ hy)⟩
      rintro rfl
      exact hx hy
    obtain ⟨s', hs', hmoving', hframe'⟩ := @ih (some x) fuel (fun y => y = x ∨ done y)
      (moveHandle hashv numBkts ideal x s) (moving_handle hmoving hdone)
      (segment_congr (fun y hy => hframe (hrest y hy).1 (hrest y hy).2) hseg) hnodup
      (fun y hy => not_or.mpr (hrest y hy)) (by simpa using hfuel)
    refine ⟨s', ?_, fun i hi => (hmoving' i hi).congr fun y => ?_, fun y hy hyd => ?_⟩
    · rw [Option.or_none] at hnext
      rw [List.head?_cons, moveChain, hnext]
      exact hs'
    · simp only [List.mem_cons, or_assoc, or_left_comm]
    · obtain ⟨hyx, hyr⟩ := not_or.mp (mt List.mem_cons.mpr hy)
      obtain ⟨hp, hn⟩ := hframe' y hyr (not_or.mpr ⟨hyx, hyd⟩)
      exact ⟨hp.trans (hframe hyx hyd).1, hn.trans (hframe hyx hyd).2⟩

theorem hashExpandBuckets_spec {chain : Links E} {items : List E} {t : Table E}
    (h : TableFor hashv chain items t) :
    ∃ chain' t', hashExpandBuckets hashv chain t = some (chain', t') ∧
      TableFor hashv chain' items t' := by
  generalize hideal : (t.numItems >>> (t.log2NumBuckets + 1)) +
    (if t.numItems &&& (t.numBuckets * 2 - 1) ≠ 0 then 1 else 0) = ideal
  have hpos : 0 < t.numBuckets * 2 := Nat.mul_pos h.pos (by decide)
  -- after `n` of the old buckets, the elements of those are in the new ones
  have hloop (n : Nat) (hn : n ≤ t.numBuckets) : ∃ s : Moved E,
      (List.range n).foldlM (fun s i =>
        moveChain hashv (t.numBuckets * 2) ideal t.numItems (t.buckets i).hhHead s)
        ⟨chain, fun _ => ⟨none, 0, 0⟩, 0⟩ = some s ∧
      Moving hashv (t.numBuckets * 2)
        (fun x => x ∈ items ∧ hashToBkt (hashv x) t.numBuckets < n) s ∧
      ∀ x, ¬ hashToBkt (hashv x) t.numBuckets < n →
        s.chain.prev x = chain.prev x ∧ s.chain.next x = chain.next x := by
    induction n with
    | zero =>
      refine ⟨_, rfl, fun i _ => chained_empty _ fun x hx => ?_, fun _ _ => ⟨rfl, rfl⟩⟩
      exact absurd hx.1.2 (Nat.not_lt_zero _)
    | succ n ih =>
      obtain ⟨s, hs, hmoving, hframe⟩ := ih (by omega)
      obtain ⟨bucket, hlinked, hhead, _, hmem⟩ := h.buckets n (by omega)
      have hin {x : E} (hx : x ∈ bucket) := (hmem x).mp hx
      have hfuel : bucket.length ≤ t.numItems := by
        rw [h.count]
        exact (hlinked.nodup.subperm fun x hx => (hin hx).1).length_le
      obtain ⟨s', hs', hmoving', hframe'⟩ := @moveChain_spec E _ hashv (t.numBuckets * 2) ideal hpos
        bucket none t.numItems _ s hmoving
        (segment_congr (fun x hx => hframe x (by rw [(hin hx).2]; omega)) hlinked.segment)
        hlinked.nodup (fun x hx hd => by have := (hin hx).2; omega) hfuel
      refine ⟨s', ?_, fun i hi => (hmoving' i hi).congr fun x => ?_, fun x hx => ?_⟩
      · rw [List.range_succ, List.foldlM_append, hs]
        simp only [Option.bind_eq_bind, Option.bind_some, List.foldlM_cons, List.foldlM_nil, hhead,
          hs', Option.pure_def]
      · have hsplit : (x ∈ bucket ∨ x ∈ items ∧ hashToBkt (hashv x) t.numBuckets < n) ↔
            x ∈ items ∧ hashToBkt (hashv x) t.numBuckets < n + 1 := by
          rw [hmem, ← and_or_left, Nat.lt_succ_iff_lt_or_eq, or_comm]
        exact and_congr_left' hsplit
      · obtain ⟨hp', hn'⟩ := hframe' x (fun hb => by have := (hin hb).2; omega)
          (fun hd => by have := hd.2; omega)
        obtain ⟨hp0, hn0⟩ := hframe x (by omega)
        exact ⟨hp'.trans hp0, hn'.trans hn0⟩
  obtain ⟨s, hs, hmoving, _⟩ := hloop t.numBuckets le_rfl
  refine ⟨s.chain, _, by rw [hashExpandBuckets, hideal, hs]; rfl, ?_⟩
  refine ⟨h.tail, h.count, ?_, ?_⟩
  · dsimp only
    rw [h.power, pow_succ]
  · intro i hi
    exact (hmoving i hi).congr fun x =>
      and_congr_left' (and_iff_left_of_imp fun _ => hashToBkt_lt _ h.pos)

theorem hashAddToBkt_spec {chain : Links E} {items : List E} {t : Table E} {x : E}
    (hbuckets : ∀ i < t.numBuckets,
      Chained chain (t.buckets i) fun y => y ∈ items ∧ hashToBkt (hashv y) t.numBuckets = i)
    (hpower : t.numBuckets = 2 ^ t.log2NumBuckets) (htail : t.tail = x)
    (hcount : t.numItems = items.length + 1) (hx : x ∉ items) :
    ∃ chain' t', hashAddToBkt hashv (hashToBkt (hashv x) t.numBuckets) x chain t =
      some (chain', t') ∧ TableFor hashv chain' (items ++ [x]) t' := by
  have hpos : 0 < t.numBuckets := by
    rw [hpower]
    exact Nat.two_pow_pos _
  have hbkt := hashToBkt_lt (hashv x) hpos
  generalize hb : hashToBkt (hashv x) t.numBuckets = bkt at hbkt ⊢
  have hnew : TableFor hashv (pushFront x (t.buckets bkt).hhHead chain) (items ++ [x])
      { t with buckets := (Function.update t.buckets bkt
          ⟨some x, (t.buckets bkt).count + 1, (t.buckets bkt).expandMult⟩) } := by
    refine ⟨?_, ?_, hpower, fun i hi => ?_⟩
    · rw [List.getLast?_append_of_ne_nil _ (by simp), List.getLast?_singleton, htail]
    · rw [List.length_append]
      exact hcount
    · apply (chained_push (p := fun i y => y ∈ items ∧ hashToBkt (hashv y) t.numBuckets = i)
        (hbuckets bkt hbkt) (hbuckets i hi) (fun j hp => hx hp.1)
        (fun j y hp hq => hp.2.symm.trans hq.2) _).congr
      intro y
      rw [List.mem_append, List.mem_singleton]
      constructor
      · rintro (⟨rfl, rfl⟩ | ⟨hy, hi⟩)
        · exact ⟨.inr rfl, hb⟩
        · exact ⟨.inl hy, hi⟩
      · rintro ⟨hy | rfl, hi⟩
        · exact .inr ⟨hy, hi⟩
        · exact .inl ⟨rfl, hi.symm.trans hb⟩
  unfold hashAddToBkt
  dsimp only
  split
  · exact hashExpandBuckets_spec hnew
  · exact ⟨_, _, rfl, hnew⟩

end Expand

theorem hashAddToTable_spec (first : E) {t : Table E} {x : E}
    (hbuckets : ∀ i < t.numBuckets, Chained h.chain (t.buckets i) fun y =>
      y ∈ items ∧ hashToBkt (h.hashv y) t.numBuckets = i)
    (hpower : t.numBuckets = 2 ^ t.log2NumBuckets) (htail : t.tail = x)
    (hcount : t.numItems = items.length) (hx : x ∉ items) :
    ∃ chain t', hashAddToTable first x t h =
        some { h with chain := chain, head := some (first, t') } ∧
      TableFor h.hashv chain (items ++ [x]) t' := by
  obtain ⟨chain, t', ht, htable⟩ := @hashAddToBkt_spec E _ h.hashv h.chain items
    { t with numItems := t.numItems + 1 } x hbuckets hpower htail (congrArg (· + 1) hcount) hx
  refine ⟨chain, t', ?_, htable⟩
  unfold hashAddToTable
  rw [ht]
  rfl

theorem hashAdd_spec (hrep : Represents hash h items) {x : E} (hx : x ∉ items) :
    ∃ h', hashAdd hash x h = some h' ∧ Represents hash h' (items ++ [x]) ∧ h'.key = h.key := by
  have hhashed : ∀ y ∈ items ++ [x],
      Function.update h.hashv x (hash (h.key x)) y = hash (h.key y) := by
    intro y hy
    by_cases hyx : y = x
    · rw [hyx, Function.update_self]
    · rw [Function.update_of_ne hyx]
      exact hrep.hashed y (by simpa [hyx] using hy)
  have hfirst := hrep.first
  cases hhead : h.head with
  | none =>
    rw [hhead] at hfirst
    have hnil : items = [] := List.head?_eq_none_iff.mp hfirst.symm
    subst hnil
    obtain ⟨chain, t, ht, htable⟩ := hashAddToTable_spec x (h := { h with
      hashv := Function.update h.hashv x (hash (h.key x))
      list := (h.list.setNext x none).setPrev x none }) (t := hashMakeTable x)
      (fun i _ => chained_empty _ fun y hy => absurd hy.1 List.not_mem_nil) rfl rfl rfl hx
    refine ⟨_, by unfold hashAdd; dsimp only; rw [hhead]; exact ht, ?_⟩
    refine ⟨⟨⟨List.nodup_singleton x, ?_⟩, rfl, hhashed, ?_⟩, rfl⟩
    · simp [Segment]
    · intro first t' he
      obtain ⟨_, rfl⟩ := Prod.mk.inj (Option.some.inj he)
      exact htable
  | some ft =>
    obtain ⟨first, t⟩ := ft
    rw [hhead] at hfirst
    have htable := hrep.table first t hhead
    obtain ⟨front, hfront⟩ : ∃ front, items = front ++ [t.tail] :=
      List.getLast?_eq_some_iff.mp htable.tail
    have hhashv {y : E} (hy : y ∈ items) :
        Function.update h.hashv x (hash (h.key x)) y = h.hashv y :=
      (hhashed y (List.mem_append_left _ hy)).trans (hrep.hashed y hy).symm
    obtain ⟨chain, t', ht, hnew⟩ := hashAddToTable_spec first (h := { h with
      hashv := Function.update h.hashv x (hash (h.key x))
      list := pushBack x t.tail h.list }) (t := { t with tail := x })
      (fun i hi => (htable.buckets i hi).congr fun y => and_congr_right fun hy => by
        dsimp only
        rw [hhashv hy])
      htable.power rfl htable.count hx
    refine ⟨_, by unfold hashAdd; dsimp only; rw [hhead]; exact ht, ?_⟩
    refine ⟨⟨?_, ?_, hhashed, ?_⟩, rfl⟩
    · rw [hfront] at hx ⊢
      exact linked_pushBack (by rw [← hfront]; exact hrep.list) hx
    · rw [List.head?_append, ← hfirst]
      rfl
    · intro first' t'' he
      obtain ⟨_, rfl⟩ := Prod.mk.inj (Option.some.inj he)
      exact hnew

theorem chained_unlink {l : Links E} {buckets : Nat → Bucket E} {bkt i : Nat} {p : Nat → E → Prop}
    {x : E} (hbkt : Chained l (buckets bkt) (p bkt)) (hi : Chained l (buckets i) (p i))
    (hx : p bkt x) (hapart : ∀ j y, p j y → p bkt y → j = bkt) :
    Chained (unlink x l) (Function.update buckets bkt (hashDelInBkt x (buckets bkt) l) i)
      fun y => y ≠ x ∧ p i y := by
  obtain ⟨chain, hlinked, hhead, hcount, hmem⟩ := hbkt
  obtain ⟨before, after, rfl⟩ := List.append_of_mem ((hmem x).mpr hx)
  obtain ⟨hprev, hnext, _⟩ := linked_around hlinked
  have hnodup := hlinked.nodup
  by_cases hib : i = bkt
  · subst hib
    rw [Function.update_self]
    refine ⟨before ++ after, linked_unlink hlinked, ?_, ?_, fun y => ?_⟩
    · unfold hashDelInBkt
      dsimp only
      rw [hhead, hnext]
      cases before with
      | nil => simp
      | cons z before =>
        have hne : z ≠ x := by
          rintro rfl
          exact (List.nodup_cons.mp hnodup).1 (by simp)
        simp [hne]
    · simp [hashDelInBkt, hcount]
    · have hnotin : x ∉ before ++ after := (List.nodup_middle.mp hnodup).notMem
      dsimp only
      rw [← hmem]
      constructor
      · intro hy
        refine ⟨?_, ?_⟩
        · rintro rfl
          exact hnotin hy
        · exact List.mem_append.mpr ((List.mem_append.mp hy).imp_right (List.mem_cons_of_mem x))
      · rintro ⟨hne, hy⟩
        simpa [hne] using hy
  · obtain ⟨other, hother, hhead', hcount', hmem'⟩ := hi
    rw [Function.update_of_ne hib]
    refine ⟨other, linked_unlink_other hlinked hother fun y hy hy' => ?_, hhead', hcount',
      fun y => ?_⟩
    · exact hib (hapart i y ((hmem' y).mp hy') ((hmem y).mp hy))
    · rw [hmem', iff_and_self]
      rintro hy rfl
      exact hib (hapart i y hy hx)

theorem hashDel_spec {before after : List E} {x : E}
    (hrep : Represents hash h (before ++ x :: after)) :
    Represents hash (hashDel x h) (before ++ after) ∧ (hashDel x h).key = h.key := by
  obtain ⟨hprev, hnext, _⟩ := linked_around hrep.list
  have hfirst := hrep.first
  have hnotin : x ∉ before ++ after := (List.nodup_middle.mp hrep.list.nodup).notMem
  have hsub {y : E} (hy : y ∈ before ++ after) : y ∈ before ++ x :: after :=
    List.mem_append.mpr ((List.mem_append.mp hy).imp_right (List.mem_cons_of_mem x))
  unfold hashDel
  cases hhead : h.head with
  | none =>
    rw [hhead] at hfirst
    exact absurd (List.head?_eq_none_iff.mp hfirst.symm) (by simp)
  | some ft =>
    obtain ⟨first, t⟩ := ft
    rw [hhead] at hfirst
    have htable := hrep.table first t hhead
    dsimp only
    rw [hprev, hnext]
    split
    · rename_i honly
      obtain ⟨hb, ha⟩ := honly
      rw [List.getLast?_eq_none_iff.mp hb, List.head?_eq_none_iff.mp ha]
      exact ⟨⟨⟨.nil, trivial⟩, rfl, fun y hy => absurd hy List.not_mem_nil,
          fun _ _ he => (nomatch he)⟩,
        rfl⟩
    · rename_i honly
      refine ⟨⟨linked_unlink hrep.list, ?_, fun y hy => hrep.hashed y (hsub hy), ?_⟩, rfl⟩
      · cases before with
        | nil =>
          cases after with
          | nil => exact absurd ⟨rfl, rfl⟩ honly
          | cons y after => rfl
        | cons y before =>
          rw [if_neg (by simp)]
          exact hfirst
      · intro first' t' he
        obtain ⟨_, rfl⟩ := Prod.mk.inj (Option.some.inj he)
        refine ⟨?_, ?_, htable.power, fun i hi => ?_⟩
        · have htail := htable.tail
          cases after with
          | nil =>
            rw [List.getLast?_append_of_ne_nil _ (by simp), List.getLast?_singleton] at htail
            rw [List.append_nil, if_pos (Option.some.inj htail)]
            cases hlast : before.getLast? with
            | none => exact absurd ⟨hlast, rfl⟩ honly
            | some y => rfl
          | cons y after =>
            rw [List.getLast?_append_of_ne_nil _ (by simp), List.getLast?_cons_cons] at htail
            have hne : x ≠ t.tail := by
              rintro rfl
              exact hnotin (List.mem_append_right _ (List.mem_of_getLast? htail))
            rw [List.getLast?_append_of_ne_nil _ (by simp), htail, if_neg hne]
        · dsimp only
          rw [htable.count]
          simp
        · have hbkt := hashToBkt_lt (h.hashv x) htable.pos
          apply (chained_unlink (p := fun i y => y ∈ before ++ x :: after ∧
              hashToBkt (h.hashv y) t.numBuckets = i) (htable.buckets _ hbkt) (htable.buckets i hi)
            ⟨by simp, rfl⟩ (fun j y hp hq => hp.2.symm.trans hq.2)).congr
          intro y
          constructor
          · rintro ⟨hne, hy, hb⟩
            exact ⟨by simpa [hne] using hy, hb⟩
          · rintro ⟨hy, hb⟩
            refine ⟨?_, hsub hy, hb⟩
            rintro rfl
            exact hnotin hy

theorem hashIterDel_spec (hrep : Represents hash h items) {fuel : Nat}
    (hfuel : items.length ≤ fuel) :
    ∃ h', hashIterDel fuel items.head? items.tail.head? h = some (items, h') ∧ h'.head = none ∧
      h'.key = h.key := by
  induction items generalizing h fuel with
  | nil =>
    have hfirst := hrep.first
    refine ⟨h, by cases fuel <;> rfl, ?_, rfl⟩
    cases hhead : h.head with
    | none => rfl
    | some ft =>
      rw [hhead] at hfirst
      cases hfirst
  | cons x items ih =>
    obtain ⟨fuel, rfl⟩ : ∃ n, fuel = n + 1 := ⟨fuel - 1, by rw [List.length_cons] at hfuel; omega⟩
    obtain ⟨hnew, hkey⟩ := @hashDel_spec E K hash h _ [] items x hrep
    have htmp : items.head?.bind (hashDel x h).list.next = items.tail.head? := by
      cases items with
      | nil => rfl
      | cons y items =>
        obtain ⟨_, hnext, _⟩ := hnew.list.segment
        rwa [Option.or_none] at hnext
    obtain ⟨h', hloop, hempty, hkey'⟩ := ih hnew (by simpa using hfuel)
    refine ⟨h', ?_, hempty, hkey'.trans hkey⟩
    rw [List.head?_cons, List.tail_cons, hashIterDel]
    dsimp only
    rw [htmp, hloop]
    rfl

end Tsdb.HashTable
