import Tsdb.Capacity
import Tsdb.Outcomes

namespace Tsdb.ListRoom

open CStrings Head Files Registry Sections Service Disk Outcomes

variable {V : Type}

/-- The metric after a request that may flush its head. Where the chunk list has no place for the
new entry, `realloc` was asked for a negative size and has failed. -/
def listed (before after : MetricState V) : Option (MetricState V) :=
  if before.entry.chunks.length < after.entry.chunks.length ∧
      after.entry.chunkCapacity ≤ before.entry.chunks.length then none
  else some after

def handleOrder (dataDir : Text) (unset : Int) (io : ChunkIO) (metric : Text) (order : Order V)
    (s : Store V) : Option (Bool × Store V) :=
  (getMetricFromHashTable unset metric order.isPut s).bind fun m =>
    let (res, m') := orderHead dataDir metric io m order
    (listed m m').map fun m' => (res, s.set metric m')

def Sized (s : Store V) : Prop :=
  ∀ metric entry, s.registry.lookup metric = some entry → Capacity.Doubled entry

variable {dataDir metric : Text} {io : ChunkIO} {m : MetricState V} {s : Store V}

def Registers (dataDir metric : Text) (io : ChunkIO) (m : MetricState V) : Prop :=
  (io = .ok ∨ io = .closeFails) ∧
    ∃ first ∈ m.entry.head.points.head?, flushName dataDir metric first ≠ []

theorem flushHead_grown (h : Registers dataDir metric io m) :
    Capacity.Grown m.entry (flushHead dataDir metric io m).2.entry := by
  obtain ⟨hio, first, hfirst, hname⟩ := h
  unfold flushHead chunkwrite
  split
  · rename_i hp
    rw [hp] at hfirst
    cases hfirst
  · rename_i p rest hp
    obtain rfl : p = first := by simpa [hp] using hfirst
    have hgrown (dir : Dir V) : Capacity.Grown m.entry
        (⟨{ addChunk m.entry ⟨p.ts, m.entry.head.lastTimestamp,
          chunkName dataDir metric (chunkId p.ts)⟩ with head := ⟨[], 0⟩ }, dir⟩ :
            MetricState V).entry :=
      ⟨List.length_append, fun _ => rfl⟩
    change chunkName dataDir metric (chunkId p.ts) ≠ [] at hname
    dsimp only
    rw [if_neg hname]
    rcases hio with rfl | rfl <;> exact hgrown _

theorem flushHead_entry (h : ¬ Registers dataDir metric io m) :
    (flushHead dataDir metric io m).2.entry = m.entry := by
  unfold flushHead chunkwrite
  split
  · rfl
  · rename_i p rest hp
    dsimp only
    by_cases hname : chunkName dataDir metric (chunkId p.ts) = []
    · rw [if_pos hname]
    · rw [if_neg hname]
      have hfirst : p ∈ m.entry.head.points.head? := by rw [hp]; rfl
      cases io with
      | openFails | writeFails => rfl
      | ok => exact absurd ⟨.inl rfl, p, hfirst, hname⟩ h
      | closeFails => exact absurd ⟨.inr rfl, p, hfirst, hname⟩ h

structure SameList (before after : MetricRegistry V) : Prop where
  capacity : after.chunkCapacity = before.chunkCapacity
  length : after.chunks.length = before.chunks.length

theorem putSection_list (point : Point V) (m : MetricState V) :
    SameList m.entry (putSection point m).2.entry := by
  rcases putSection_cases point m with ⟨_, he⟩ | ⟨_, he⟩ <;> rw [he] <;> exact ⟨rfl, rfl⟩

theorem orderHead_list (order : Order V) :
    (Order.flushes m order ∧ Registers dataDir metric io m →
        Capacity.Grown m.entry (orderHead dataDir metric io m order).2.entry) ∧
      (¬ (Order.flushes m order ∧ Registers dataDir metric io m) →
        SameList m.entry (orderHead dataDir metric io m order).2.entry) := by
  cases order with
  | flush =>
    constructor
    · exact fun h => flushHead_grown h.2
    · intro h
      have he := flushHead_entry fun hreg => h ⟨trivial, hreg⟩
      change SameList m.entry (flushHead dataDir metric io m).2.entry
      rw [he]
      exact ⟨rfl, rfl⟩
  | put point =>
    rw [orderHead, putHead_eq]
    constructor
    · rintro ⟨hfull, hreg⟩
      change headCapacity ≤ m.entry.head.size at hfull
      have hgrown := flushHead_grown hreg
      have hsame := putSection_list point (flushHead dataDir metric io m).2
      rw [if_pos hfull]
      exact ⟨hsame.length.trans hgrown.length, fun hpos => hsame.capacity.trans (hgrown.capacity hpos)⟩
    · intro h
      by_cases hfull : headCapacity ≤ m.entry.head.size
      · have he := flushHead_entry fun hreg => h ⟨hfull, hreg⟩
        have hsame := putSection_list point (flushHead dataDir metric io m).2
        rw [if_pos hfull, ← he]
        exact hsame
      · rw [if_neg hfull]
        exact putSection_list point m

/-- The flush that a request makes, if any, finds fewer entries than a list can have. -/
def HasRoom (dataDir metric : Text) (io : ChunkIO) (order : Order V) (m : MetricState V) : Prop :=
  Order.flushes m order → Registers dataDir metric io m →
    m.entry.chunks.length < Capacity.mostChunks

theorem listed_iff (h : Capacity.Doubled m.entry) (order : Order V) :
    (∃ m', listed m (orderHead dataDir metric io m order).2 = some m') ↔
      HasRoom dataDir metric io order m := by
  obtain ⟨hgrown, hsame⟩ := @orderHead_list V dataDir metric io m order
  unfold listed HasRoom
  by_cases hadds : Order.flushes m order ∧ Registers dataDir metric io m
  · have hlist := hgrown hadds
    have hroom := h.keepsRoom_iff hlist
    rw [forall_prop_of_true hadds.1, forall_prop_of_true hadds.2, ← hroom]
    constructor
    · rintro ⟨m', hm'⟩
      rw [hroom]
      by_contra hmost
      -- the list is as long as its capacity can be, and doubling leaves the 16 bits
      obtain ⟨hpos, hle⟩ := h.most
      have hfull := h.room
      have hcapacity := hlist.capacity hpos
      have hlast : m.entry.chunkCapacity = 2 ^ 14 := by
        unfold Capacity.mostChunks at hle hmost
        omega
      rw [if_pos (by unfold Capacity.mostChunks at hmost; omega), hlast] at hcapacity
      have hwrapped : int16 (2 ^ 14 * 2) = -2 ^ 15 := by decide
      rw [if_pos ⟨by rw [hlist.length]; omega, by rw [hcapacity, hwrapped]; omega⟩] at hm'
      cases hm'
    · intro hkeeps
      rw [if_neg fun hnot => absurd hkeeps.index (not_lt.mpr hnot.2)]
      exact ⟨_, rfl⟩
  · have hlength := (hsame hadds).length
    rw [if_neg (by omega)]
    exact iff_of_true ⟨_, rfl⟩ fun hflush hreg => absurd ⟨hflush, hreg⟩ hadds

theorem listed_doubled (h : Capacity.Doubled m.entry) {order : Order V} {m' : MetricState V}
    (hlisted : listed m (orderHead dataDir metric io m order).2 = some m') :
    Capacity.Doubled m'.entry := by
  obtain ⟨hgrown, hsame⟩ := @orderHead_list V dataDir metric io m order
  have hroom := (listed_iff h order).mp ⟨m', hlisted⟩
  unfold listed at hlisted
  split at hlisted
  · cases hlisted
  obtain rfl := Option.some.inj hlisted
  by_cases hadds : Order.flushes m order ∧ Registers dataDir metric io m
  · exact h.grown (hgrown hadds) (hroom hadds.1 hadds.2)
  · exact h.of_same (hsame hadds).capacity (hsame hadds).length.le

theorem Sized.found (h : Sized s) {unset : Int} {flag : Bool}
    (hm : m ∈ getMetricFromHashTable unset metric flag s) : Capacity.Doubled m.entry := by
  rcases getMetric_cases hm with hfind | ⟨_, _, rfl⟩
  · obtain ⟨entry, hentry, rfl⟩ := Option.map_eq_some_iff.mp hfind
    exact h metric entry hentry
  · exact Capacity.doubled_new unset

theorem handleOrder_iff (h : Sized s) {unset : Int} {io : ChunkIO} {metric : Text}
    {order : Order V} :
    (∃ out, handleOrder dataDir unset io metric order s = some out) ↔
      ∃ m ∈ getMetricFromHashTable unset metric order.isPut s, HasRoom dataDir metric io order m := by
  unfold handleOrder
  constructor
  · rintro ⟨out, hout⟩
    obtain ⟨m, hm, hout⟩ := Option.bind_eq_some_iff.mp hout
    obtain ⟨m', hlisted, _⟩ := Option.map_eq_some_iff.mp hout
    exact ⟨m, hm, (listed_iff (h.found hm) order).mp ⟨m', hlisted⟩⟩
  · rintro ⟨m, hm, hroom⟩
    obtain ⟨m', hlisted⟩ := (listed_iff (h.found hm) order).mpr hroom
    exact ⟨_, Option.bind_eq_some_iff.mpr ⟨m, hm, Option.map_eq_some_iff.mpr ⟨m', hlisted, rfl⟩⟩⟩

theorem handleOrder_sized (h : Sized s) {unset : Int} {io : ChunkIO} {metric : Text}
    {order : Order V} {out : Bool × Store V}
    (hout : handleOrder dataDir unset io metric order s = some out) : Sized out.2 := by
  obtain ⟨m, hm, hout⟩ := Option.bind_eq_some_iff.mp hout
  obtain ⟨m', hlisted, rfl⟩ := Option.map_eq_some_iff.mp hout
  intro other entry hentry
  by_cases ho : other = metric
  · rw [ho, Store.set, AList.lookup_insert] at hentry
    rw [← Option.some.inj hentry]
    exact listed_doubled (h.found hm) hlisted
  · rw [Store.set, AList.lookup_insert_ne ho] at hentry
    exact h other entry hentry

end Tsdb.ListRoom
