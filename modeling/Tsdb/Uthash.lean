import Tsdb.DoublyLinked

namespace Tsdb.Uthash

open DoublyLinked

section Jenkins

def hashJenMix (a b c : UInt32) : UInt32 × UInt32 × UInt32 :=
  let a := (a - b - c) ^^^ (c >>> 13)
  let b := (b - c - a) ^^^ (a <<< 8)
  let c := (c - a - b) ^^^ (b >>> 13)
  let a := (a - b - c) ^^^ (c >>> 12)
  let b := (b - c - a) ^^^ (a <<< 16)
  let c := (c - a - b) ^^^ (b >>> 5)
  let a := (a - b - c) ^^^ (c >>> 3)
  let b := (b - c - a) ^^^ (a <<< 10)
  let c := (c - a - b) ^^^ (b >>> 15)
  (a, b, c)

def jenWord (k0 k1 k2 k3 : UInt8) : UInt32 :=
  k0.toUInt32 + (k1.toUInt32 <<< 8) + (k2.toUInt32 <<< 16) + (k3.toUInt32 <<< 24)

/-- The loop over twelve bytes at a time: `_hj_i`, `_hj_j`, `hashv` and the bytes that remain. -/
def hashJenLoop : List UInt8 → UInt32 → UInt32 → UInt32 → UInt32 × UInt32 × UInt32 × List UInt8
  | k0 :: k1 :: k2 :: k3 :: k4 :: k5 :: k6 :: k7 :: k8 :: k9 :: k10 :: k11 :: rest, i, j, hashv =>
    let (i, j, hashv) := hashJenMix (i + jenWord k0 k1 k2 k3) (j + jenWord k4 k5 k6 k7)
      (hashv + jenWord k8 k9 k10 k11)
    hashJenLoop rest i j hashv
  | rest, i, j, hashv => (i, j, hashv, rest)

/-- `HASH_JEN`. The `switch` falls through from the last byte to the first, so bytes that are not
there add nothing. -/
def hashJen (key : List UInt8) : UInt32 :=
  let (i, j, hashv, rest) := hashJenLoop key 0x9e3779b9 0x9e3779b9 0xfeedbeef
  let byte (n : Nat) : UInt8 := rest.getD n 0
  let hashv := hashv + key.length.toUInt32 + jenWord 0 (byte 8) (byte 9) (byte 10)
  let j := j + jenWord (byte 4) (byte 5) (byte 6) (byte 7)
  let i := i + jenWord (byte 0) (byte 1) (byte 2) (byte 3)
  (hashJenMix i j hashv).2.2

end Jenkins

variable {E K : Type}

structure Bucket (E : Type) where
  hhHead : Option E
  count : Nat
  expandMult : Nat

/-- `UT_hash_table`; `buckets i` is `buckets[i]` for `i < numBuckets`. -/
structure Table (E : Type) where
  buckets : Nat → Bucket E
  numBuckets : Nat
  log2NumBuckets : Nat
  numItems : Nat
  tail : E
  idealChainMaxlen : Nat
  nonidealItems : Nat
  ineffExpands : Nat
  noexpand : Bool

/-- What the elements hold: their keys, and in `hh` the hash value and the pointers in the order of
the application and in the order of their bucket. -/
structure Hash (E K : Type) where
  key : E → K
  hashv : E → UInt32
  list : Links E
  chain : Links E
  /-- The pointer to the first element, and the table that it leads to. -/
  head : Option (E × Table E)

def hashInitialNumBuckets : Nat := 32

def hashInitialNumBucketsLog2 : Nat := 5

def hashBktCapacityThresh : Nat := 10

def hashToBkt (hashv : UInt32) (numBkts : Nat) : Nat := hashv.toNat &&& (numBkts - 1)

def hashMakeTable (head : E) : Table E :=
  ⟨fun _ => ⟨none, 0, 0⟩, hashInitialNumBuckets, hashInitialNumBucketsLog2, 0, head, 0, 0, 0, false⟩

/-- The two buckets of an expansion between two rounds: the pointers of the chains, the new
buckets, and `nonideal_items`. -/
structure Moved (E : Type) where
  chain : Links E
  buckets : Nat → Bucket E
  nonidealItems : Nat

section Operations

variable [DecidableEq E] [DecidableEq K]

/-- `HASH_FIND_IN_BKT` behind `HASH_FIND_STR`. The outer `none` is a chain longer than the table
has items. -/
def hashFind (hash : K → UInt32) (key : K) (h : Hash E K) : Option (Option E) :=
  match h.head with
  | none => some none
  | some (_, t) =>
    findFrom h.chain (fun out => h.hashv out = hash key ∧ h.key out = key) t.numItems
      (t.buckets (hashToBkt (hash key) t.numBuckets)).hhHead

def moveHandle (hashv : E → UInt32) (numBkts ideal : Nat) (x : E) (s : Moved E) : Moved E :=
  let bkt := hashToBkt (hashv x) numBkts
  let b := s.buckets bkt
  let count := b.count + 1
  let beyond := ideal < count
  ⟨pushFront x b.hhHead s.chain,
    Function.update s.buckets bkt ⟨some x, count,
      if beyond ∧ b.expandMult * ideal < count then b.expandMult + 1 else b.expandMult⟩,
    if beyond then s.nonidealItems + 1 else s.nonidealItems⟩

/-- The inner loop of `HASH_EXPAND_BUCKETS`, which reads `hh_next` before it moves the handle. -/
def moveChain (hashv : E → UInt32) (numBkts ideal : Nat) :
    Nat → Option E → Moved E → Option (Moved E)
  | _, none, s => some s
  | 0, some _, _ => none
  | fuel + 1, some x, s =>
    moveChain hashv numBkts ideal fuel (s.chain.next x) (moveHandle hashv numBkts ideal x s)

def hashExpandBuckets (hashv : E → UInt32) (chain : Links E) (t : Table E) :
    Option (Links E × Table E) :=
  let ideal := (t.numItems >>> (t.log2NumBuckets + 1)) +
    if t.numItems &&& (t.numBuckets * 2 - 1) ≠ 0 then 1 else 0
  ((List.range t.numBuckets).foldlM (fun s i =>
    moveChain hashv (t.numBuckets * 2) ideal t.numItems (t.buckets i).hhHead s)
    ⟨chain, fun _ => ⟨none, 0, 0⟩, 0⟩).map fun s =>
      let ineff := if t.numItems >>> 1 < s.nonidealItems then t.ineffExpands + 1 else 0
      (s.chain, { t with
        buckets := s.buckets
        numBuckets := t.numBuckets * 2
        log2NumBuckets := t.log2NumBuckets + 1
        idealChainMaxlen := ideal
        nonidealItems := s.nonidealItems
        ineffExpands := ineff
        noexpand := t.noexpand || decide (1 < ineff) })

def hashAddToBkt (hashv : E → UInt32) (bkt : Nat) (x : E) (chain : Links E) (t : Table E) :
    Option (Links E × Table E) :=
  let b := t.buckets bkt
  let count := b.count + 1
  let chain := pushFront x b.hhHead chain
  let t := { t with buckets := Function.update t.buckets bkt ⟨some x, count, b.expandMult⟩ }
  if (b.expandMult + 1) * hashBktCapacityThresh ≤ count ∧ ¬ t.noexpand then
    hashExpandBuckets hashv chain t
  else some (chain, t)

def hashAddToTable (first add : E) (t : Table E) (h : Hash E K) : Option (Hash E K) :=
  (hashAddToBkt h.hashv (hashToBkt (h.hashv add) t.numBuckets) add h.chain
    { t with numItems := t.numItems + 1 }).map fun (chain, t) =>
      { h with chain := chain, head := some (first, t) }

/-- `HASH_ADD_STR` of an element whose key is set. -/
def hashAdd (hash : K → UInt32) (add : E) (h : Hash E K) : Option (Hash E K) :=
  let h := { h with hashv := Function.update h.hashv add (hash (h.key add)) }
  match h.head with
  | none =>
    hashAddToTable add add (hashMakeTable add)
      { h with list := (h.list.setNext add none).setPrev add none }
  | some (first, t) =>
    hashAddToTable first add { t with tail := add } { h with list := pushBack add t.tail h.list }

def hashDelInBkt (x : E) (b : Bucket E) (chain : Links E) : Bucket E :=
  ⟨if b.hhHead = some x then chain.next x else b.hhHead, b.count - 1, b.expandMult⟩

/-- `HASH_DELETE_HH`. The only element takes the table with it. -/
def hashDel (x : E) (h : Hash E K) : Hash E K :=
  match h.head with
  | none => h
  | some (first, t) =>
    if h.list.prev x = none ∧ h.list.next x = none then { h with head := none }
    else
      let tail := if x = t.tail then (h.list.prev x).getD t.tail else t.tail
      let first := if h.list.prev x = none then (h.list.next x).getD first else first
      let bkt := hashToBkt (h.hashv x) t.numBuckets
      { h with
        list := unlink x h.list
        chain := unlink x h.chain
        head := some (first, { t with
          tail := tail
          buckets := Function.update t.buckets bkt (hashDelInBkt x (t.buckets bkt) h.chain)
          numItems := t.numItems - 1 }) }

/-- `HASH_ITER` with `HASH_DEL` of every element it comes to: those elements, and the hash that is
left. The next element is read before the body runs, and the one behind it after. -/
def hashIterDel : Nat → Option E → Option E → Hash E K → Option (List E × Hash E K)
  | _, none, _, h => some ([], h)
  | 0, some _, _, _ => none
  | fuel + 1, some el, tmp, h =>
    let h := hashDel el h
    (hashIterDel fuel tmp (tmp.bind h.list.next) h).map fun (visited, h) => (el :: visited, h)

end Operations

def hashIter (h : Hash E K) : List E :=
  match h.head with
  | none => []
  | some (first, t) => walk h.list t.numItems (some first)

end Tsdb.Uthash
