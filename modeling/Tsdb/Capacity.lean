import Tsdb.Recovery
import Tsdb.Sections

namespace Tsdb.Capacity

open CStrings Head Files Registry Recovery Sections

variable {V : Type}

def chunkMetadataBytes : Nat := 272

/-- The size a chunk list asks `realloc` for: its capacity is converted to `size_t`. -/
def reallocSize (capacity : Int) : Int := chunkMetadataBytes * capacity % 2 ^ 64

/-- What can happen to the chunk list of a metric: a file is loaded at start, a head is flushed,
or `run_expiry` takes entries away. -/
inductive Event (V : Type) where
  | loaded (dir : Dir V) (name : Text)
  | flushed (head : HeadBlock V) (dir : Dir V) (io : FlushIO)
  | expired (keeps : ChunkMetadata → Bool)

def Event.run (dataDir metric : Text) (entry : MetricRegistry V) : Event V → MetricRegistry V
  | .loaded dir name => loadChunkMetadata dataDir metric dir entry name
  | .flushed head dir io =>
    (flushSection dataDir metric io ⟨{ entry with head := head }, dir⟩).2.entry
  | .expired keeps => { entry with chunks := entry.chunks.filter keeps }

def Event.Adds (dataDir metric : Text) : Event V → Prop
  | .loaded dir name => chunkRead dir name ≠ none
  | .flushed head _ io => io = .ok ∧ ∃ first ∈ head.points.head?, flushName dataDir metric first ≠ []
  | .expired _ => False

/-- What an addition to the chunk list owes: an index below the capacity, a list that is no
longer than the capacity, and a request for that many entries when there was no room. -/
structure KeepsRoom (before after : MetricRegistry V) : Prop where
  room : (after.chunks.length : Int) ≤ after.chunkCapacity
  index : (before.chunks.length : Int) < after.chunkCapacity
  request : before.chunkCapacity ≤ before.chunks.length → 0 < after.chunkCapacity ∧
    reallocSize after.chunkCapacity = chunkMetadataBytes * after.chunkCapacity

def EveryAddition (dataDir metric : Text) (P : MetricRegistry V → MetricRegistry V → Prop) :
    MetricRegistry V → List (Event V) → Prop
  | _, [] => True
  | entry, event :: events =>
    (event.Adds dataDir metric → P entry (event.run dataDir metric entry)) ∧
      EveryAddition dataDir metric P (event.run dataDir metric entry) events

/-- The most entries the 16 bits of `chunkCapacity` can hold by doubling from 4. -/
def mostChunks : Nat := 2 ^ 14

/-- The capacity has been doubled a number of times and has not left its 16 bits. -/
structure Doubled (entry : MetricRegistry V) : Prop where
  capacity : ∃ k ≤ 12, entry.chunkCapacity = 4 * 2 ^ k
  room : (entry.chunks.length : Int) ≤ entry.chunkCapacity

theorem doubled_new (unset : Int) : Doubled (⟨getNewHeadBlock unset, [], 4⟩ : MetricRegistry V) :=
  ⟨⟨0, by omega, rfl⟩, by simp⟩

theorem Doubled.of_same {entry entry' : MetricRegistry V} (h : Doubled entry)
    (hcapacity : entry'.chunkCapacity = entry.chunkCapacity)
    (hlength : entry'.chunks.length ≤ entry.chunks.length) : Doubled entry' := by
  refine ⟨by rw [hcapacity]; exact h.capacity, ?_⟩
  rw [hcapacity]
  have := h.room
  omega

theorem Doubled.most {entry : MetricRegistry V} (h : Doubled entry) :
    0 < entry.chunkCapacity ∧ entry.chunkCapacity ≤ mostChunks := by
  obtain ⟨k, hk, hcapacity⟩ := h.capacity
  have hpow : (2 : Int) ^ k ≤ 2 ^ 12 := pow_le_pow_right₀ (by norm_num) hk
  have hpos : (0 : Int) < 2 ^ k := by positivity
  rw [hcapacity, mostChunks]
  norm_num at hpow ⊢
  omega

theorem int16_double {n : Int} (h0 : 0 < n) (h : n < 2 ^ 14) : int16 (n * 2) = n * 2 := by
  apply Int.bmod_eq_of_le
  · omega
  · omega

structure Grown (before after : MetricRegistry V) : Prop where
  length : after.chunks.length = before.chunks.length + 1
  capacity : 0 < before.chunkCapacity → after.chunkCapacity =
    if before.chunkCapacity ≤ before.chunks.length then int16 (before.chunkCapacity * 2)
    else before.chunkCapacity

theorem Event.grown {dataDir metric : Text} {event : Event V} (hadds : event.Adds dataDir metric)
    (entry : MetricRegistry V) : Grown entry (event.run dataDir metric entry) := by
  cases event with
  | loaded dir name =>
    obtain ⟨data, hdata⟩ := Option.ne_none_iff_exists'.mp hadds
    rw [Event.run, loadChunkMetadata, hdata]
    refine ⟨by simp, fun hpos => ?_⟩
    dsimp only
    rw [if_neg hpos.ne']
  | flushed head dir io =>
    obtain ⟨rfl, first, hfirst, hname⟩ := hadds
    rcases flushSection_cases dataDir metric .ok ⟨{ entry with head := head }, dir⟩ with
      ⟨hnil, _⟩ | ⟨first', hfirst', h⟩
    · rw [hnil] at hfirst
      cases hfirst
    · obtain rfl : first = first' := Option.mem_unique hfirst hfirst'
      rcases h with ⟨hfail, _⟩ | ⟨_, _, hflush⟩
      · exact absurd hfail (by simp [hname])
      · rw [Event.run, hflush]
        exact ⟨by simp [moved, addChunk], fun _ => rfl⟩
  | expired keeps => exact absurd hadds id

theorem Event.idle {dataDir metric : Text} {event : Event V} (hadds : ¬ event.Adds dataDir metric)
    (entry : MetricRegistry V) :
    (event.run dataDir metric entry).chunkCapacity = entry.chunkCapacity ∧
      (event.run dataDir metric entry).chunks.length ≤ entry.chunks.length := by
  cases event with
  | loaded dir name =>
    rw [Event.run, loadChunkMetadata, not_ne_iff.mp hadds]
    exact ⟨rfl, le_rfl⟩
  | flushed head dir io =>
    rcases flushSection_cases dataDir metric io ⟨{ entry with head := head }, dir⟩ with
      ⟨_, hflush⟩ | ⟨first, hfirst, ⟨_, _, _, hflush⟩ | ⟨hio, hname, _⟩⟩
    · rw [Event.run, hflush]
      exact ⟨rfl, le_rfl⟩
    · rw [Event.run, hflush]
      exact ⟨rfl, le_rfl⟩
    · exact absurd ⟨hio, first, hfirst, hname⟩ hadds
  | expired keeps => exact ⟨rfl, List.length_filter_le _ _⟩

theorem Doubled.keepsRoom_iff {before after : MetricRegistry V} (h : Doubled before)
    (hgrown : Grown before after) : KeepsRoom before after ↔ before.chunks.length < mostChunks := by
  obtain ⟨hpos, hmost⟩ := h.most
  have hroom := h.room
  have hcapacity := hgrown.capacity hpos
  have hlength := hgrown.length
  constructor
  · intro hkeeps
    by_contra hfull
    unfold mostChunks at hmost hfull
    have hlast : before.chunkCapacity = 2 ^ 14 := by omega
    have hindex := hkeeps.index
    rw [hcapacity, hlast, if_pos (by omega)] at hindex
    have hwrapped : int16 (2 ^ 14 * 2) = -2 ^ 15 := by decide
    omega
  · intro hless
    unfold mostChunks at hmost hless
    by_cases hfull : before.chunkCapacity ≤ before.chunks.length
    · rw [if_pos hfull, int16_double hpos (by omega)] at hcapacity
      refine ⟨by omega, by omega, fun _ => ⟨by omega, ?_⟩⟩
      unfold reallocSize chunkMetadataBytes
      omega
    · rw [if_neg hfull] at hcapacity
      exact ⟨by omega, by omega, fun h => absurd h hfull⟩

theorem Doubled.grown {before after : MetricRegistry V} (h : Doubled before)
    (hgrown : Grown before after) (hless : before.chunks.length < mostChunks) : Doubled after := by
  refine ⟨?_, ((h.keepsRoom_iff hgrown).mpr hless).room⟩
  obtain ⟨hpos, hmost⟩ := h.most
  have hroom := h.room
  obtain ⟨k, hk, hpow⟩ := h.capacity
  rw [hgrown.capacity hpos]
  split
  case isTrue hfull =>
    unfold mostChunks at hless
    rw [int16_double hpos (by omega), hpow]
    refine ⟨k + 1, ?_, by ring⟩
    by_contra hlast
    obtain rfl : k = 12 := by omega
    omega
  case isFalse => exact ⟨k, hk, hpow⟩

theorem Doubled.everyAddition_iff {dataDir metric : Text} {entry : MetricRegistry V}
    (h : Doubled entry) (events : List (Event V)) :
    EveryAddition dataDir metric KeepsRoom entry events ↔
      EveryAddition dataDir metric (fun before _ => before.chunks.length < mostChunks) entry
        events := by
  induction events generalizing entry with
  | nil => exact Iff.rfl
  | cons event events ih =>
    unfold EveryAddition
    by_cases hadds : event.Adds dataDir metric
    · have hgrown := event.grown hadds entry
      rw [forall_prop_of_true hadds, forall_prop_of_true hadds, h.keepsRoom_iff hgrown]
      exact and_congr_right fun hless => ih (h.grown hgrown hless)
    · rw [forall_prop_of_false hadds, forall_prop_of_false hadds, true_and, true_and]
      obtain ⟨hcapacity, hlength⟩ := event.idle hadds entry
      exact ih (h.of_same hcapacity hlength)

/-- Through flushes, loads and expiry a chunk list keeps room exactly while no addition finds as
many entries as the 16 bits of its capacity can hold. -/
theorem chunkList_room_iff (dataDir metric : Text) (unset : Int) (events : List (Event V)) :
    EveryAddition dataDir metric KeepsRoom ⟨getNewHeadBlock unset, [], 4⟩ events ↔
      EveryAddition dataDir metric (fun before _ => before.chunks.length < mostChunks)
        ⟨getNewHeadBlock unset, [], 4⟩ events :=
  (doubled_new unset).everyAddition_iff events

theorem additions_iff {dataDir metric : Text} {events : List (Event V)}
    (hadds : ∀ event ∈ events, event.Adds dataDir metric) (entry : MetricRegistry V) (most : Nat) :
    EveryAddition dataDir metric (fun before _ => before.chunks.length < most) entry events ↔
      events = [] ∨ entry.chunks.length + events.length ≤ most := by
  induction events generalizing entry with
  | nil => simp [EveryAddition]
  | cons event events ih =>
    have hevent := hadds event (by simp)
    have hlength := (event.grown hevent entry).length
    rw [EveryAddition, forall_prop_of_true hevent,
      ih (fun e he => hadds e (List.mem_cons_of_mem _ he)), hlength, List.length_cons]
    cases events with
    | nil => simp
    | cons _ _ =>
      simp only [List.length_cons, reduceCtorEq, false_or]
      omega

def flushSecond (i : Nat) : Event Nat := .flushed ⟨[⟨i, 1⟩], i⟩ Dir.empty .ok

theorem flushSecond_adds (i : Nat) : (flushSecond i).Adds ['d'] ['m'] :=
  ⟨rfl, _, rfl, by simp [flushName, chunkName]⟩

theorem flushSeconds_adds (n : Nat) :
    ∀ event ∈ (List.range n).map flushSecond, event.Adds ['d'] ['m'] := by
  intro event hevent
  obtain ⟨i, _, rfl⟩ := List.mem_map.mp hevent
  exact flushSecond_adds i

theorem flushSeconds_room {n : Nat} (h : EveryAddition ['d'] ['m'] KeepsRoom
    ⟨getNewHeadBlock 0, [], 4⟩ ((List.range n).map flushSecond)) : n ≤ mostChunks := by
  have hroom := (additions_iff (flushSeconds_adds n) _ _).mp
    (((doubled_new 0).everyAddition_iff _).mp h)
  rw [List.map_eq_nil_iff, List.range_eq_nil, List.length_map, List.length_range] at hroom
  rcases hroom with rfl | hmost
  · exact Nat.zero_le _
  · exact (Nat.le_add_left _ _).trans hmost

/-- The chunk that follows the 16384th finds a negative capacity. -/
theorem capacity_wraps : ¬ ∀ (dataDir metric : Text) (unset : Int) (events : List (Event Nat)),
    (∀ event ∈ events, event.Adds dataDir metric) →
      EveryAddition dataDir metric KeepsRoom ⟨getNewHeadBlock unset, [], 4⟩ events := by
  intro h
  have hevery (n : Nat) : n ≤ mostChunks := flushSeconds_room (h ['d'] ['m'] 0 _ (flushSeconds_adds n))
  exact absurd (hevery (mostChunks + 1)) (by omega)

end Tsdb.Capacity
