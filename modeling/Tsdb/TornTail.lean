import Tsdb.Replay
import Tsdb.WalBytes

namespace Tsdb.TornTail

open CStrings Head Files Wal Registry Sections Replay LittleEndian WalBytes

/-- One metric after a restart, as far as its points are in memory and in `wal.log`. -/
structure Logged where
  head : HeadBlock (BitVec 64)
  file : Option (List Byte)
  deriving DecidableEq, Repr

/-- `Head_PUT` under the head's lock, with the log byte by byte. -/
def Logged.put (s : Logged) (point : Sample) : Bool × Logged :=
  match putValue s.head point with
  | (true, head) => (true, ⟨head, walAppendBytes s.file point⟩)
  | (false, _) => (false, s)

def Logged.putAll (s : Logged) (points : List Sample) : Option Logged :=
  points.foldlM (fun s point => if (s.put point).1 then some (s.put point).2 else none) s

/-- `loadRegistry` on a log whose last record is torn; the memory of the new head held zero. -/
def restarted (old : List Sample) (torn : List Byte) : Logged :=
  ⟨walReplayBytes (some (old.flatMap recordBytes ++ torn)) (getNewHeadBlock 0),
    some (old.flatMap recordBytes ++ torn)⟩

theorem put_section (m : MetricState (BitVec 64)) (point : Sample) :
    (Logged.put ⟨m.entry.head, logBytes m.dir.wal⟩ point).1 = (putSection point m).1 ∧
      (Logged.put ⟨m.entry.head, logBytes m.dir.wal⟩ point).2 =
        ⟨(putSection point m).2.entry.head, logBytes (putSection point m).2.dir.wal⟩ := by
  unfold Logged.put putSection
  cases putValue m.entry.head point with
  | mk res head =>
    cases res with
    | true => exact ⟨rfl, by rw [logBytes_append]⟩
    | false => exact ⟨rfl, rfl⟩

theorem put_accepted {s : Logged} {point : Sample} (h : (s.put point).1 = true) :
    s.head.points.length < headCapacity ∧
      (s.put point).2 = ⟨⟨s.head.points ++ [point], point.ts⟩, walAppendBytes s.file point⟩ := by
  unfold Logged.put at h ⊢
  rcases putValue_cases s.head point with ⟨_, hroom, he⟩ | ⟨_, he⟩
  · rw [he]
    exact ⟨hroom, rfl⟩
  · rw [he] at h
    cases h

theorem putAll_accepted {points : List Sample} {s s' : Logged} {bytes : List Byte}
    (hfile : s.file = some bytes) (h : s.putAll points = some s') :
    s'.head.points = s.head.points ++ points ∧
      s'.file = some (bytes ++ points.flatMap recordBytes) ∧
      (points ≠ [] → s.head.points.length + points.length ≤ headCapacity) := by
  induction points generalizing s bytes with
  | nil =>
    obtain rfl := Option.some.inj h
    exact ⟨by simp, by simp [hfile], fun hne => absurd rfl hne⟩
  | cons p points ih =>
    rw [Logged.putAll, List.foldlM_cons] at h
    obtain ⟨s1, h1, h⟩ := Option.bind_eq_some_iff.mp h
    split at h1
    case isFalse => cases h1
    case isTrue hacc =>
      obtain ⟨hroom, hs1⟩ := put_accepted hacc
      rw [hs1] at h1
      obtain rfl := Option.some.inj h1
      have hnext : (⟨⟨s.head.points ++ [p], p.ts⟩, walAppendBytes s.file p⟩ : Logged).file =
          some (bytes ++ recordBytes p) := by rw [walAppendBytes, hfile, Option.getD_some]
      obtain ⟨hpoints, hbytes, hfit⟩ := ih hnext h
      refine ⟨by simpa using hpoints, by simpa using hbytes, fun _ => ?_⟩
      rw [List.length_cons]
      cases points with
      | nil => simpa using hroom
      | cons q points =>
        have hle := hfit (List.cons_ne_nil q points)
        simp only [List.length_append, List.length_cons, List.length_nil] at hle ⊢
        omega

theorem replay_increasing {records : List Sample} (hroom : records.length ≤ headCapacity)
    (hpos : ∀ p ∈ records, 0 < p.ts) (hinc : records.Pairwise (fun p q => p.ts < q.ts)) :
    (records.foldl replayRecord (getNewHeadBlock 0)).points = records := by
  have hloop := replay_loop records (getNewHeadBlock 0) (by simpa [getNewHeadBlock] using hroom)
  apply hloop.mpr
  rw [List.isChain_iff_pairwise, List.pairwise_cons, List.pairwise_map]
  refine ⟨fun ts hts => ?_, hinc⟩
  obtain ⟨p, hp, rfl⟩ := List.mem_map.mp hts
  exact hpos p hp

theorem replayRecord_room {head : HeadBlock (BitVec 64)} (h : head.points.length ≤ headCapacity)
    (point : Sample) : (replayRecord head point).points.length ≤ headCapacity := by
  unfold replayRecord
  split
  · exact h
  · rcases putValue_cases head point with ⟨_, hlt, he⟩ | ⟨_, he⟩
    · rw [he]
      simpa [HeadBlock.size] using hlt
    · rw [he]
      exact h

theorem replay_room {records : List Sample} {head : HeadBlock (BitVec 64)}
    (h : head.points.length ≤ headCapacity) :
    (records.foldl replayRecord head).points.length ≤ headCapacity := by
  induction records generalizing head with
  | nil => exact h
  | cons p records ih =>
    rw [List.foldl_cons]
    exact ih (replayRecord_room h p)

/-- What the second replay reads behind the old records: as many records as were appended, out
of the torn bytes and the appended ones together. -/
theorem reads_shifted {torn : List Byte} (h16 : torn.length < walRecordBytes) (new : List Sample) :
    ∃ read : List Sample, ∃ tail : List Byte,
      torn ++ new.flatMap recordBytes = read.flatMap recordBytes ++ tail ∧
        tail.length < walRecordBytes ∧ read.length = new.length ∧ ∀ p ∈ read, InLong p.ts := by
  obtain ⟨read, tail, hbytes, htail, hlong⟩ := exists_records (torn ++ new.flatMap recordBytes)
  refine ⟨read, tail, hbytes, htail, ?_, hlong⟩
  have hlen := congrArg List.length hbytes
  simp only [List.length_append, records_length] at hlen
  unfold walRecordBytes at *
  omega

theorem records_initial {read new : List Sample} {tail : List Byte}
    (hlen : read.length = new.length)
    (h : new.flatMap recordBytes <+: read.flatMap recordBytes ++ tail) :
    new.flatMap recordBytes = read.flatMap recordBytes := by
  apply List.IsPrefix.eq_of_length (List.prefix_of_prefix_length_le h (List.prefix_append _ _) ?_)
  · rw [records_length, records_length, hlen]
  · rw [records_length, records_length, hlen]

theorem records_injective {read new : List Sample} (hread : ∀ p ∈ read, InLong p.ts)
    (hnew : ∀ p ∈ new, InLong p.ts)
    (h : new.flatMap recordBytes = read.flatMap recordBytes) (hlen : read.length = new.length) :
    read = new := by
  induction read generalizing new with
  | nil => exact (List.length_eq_zero_iff.mp hlen.symm).symm
  | cons p read ih =>
    cases new with
    | nil => simp at hlen
    | cons q new =>
      rw [List.flatMap_cons, List.flatMap_cons] at h
      have hp := readRecord_append (hread p (by simp)) (read.flatMap recordBytes)
      have hq := readRecord_append (hnew q (by simp)) (new.flatMap recordBytes)
      rw [← h, hq] at hp
      obtain ⟨rfl, hrest⟩ := Prod.mk.inj (Option.some.inj hp)
      rw [ih (fun r hr => hread r (List.mem_cons_of_mem _ hr))
        (fun r hr => hnew r (List.mem_cons_of_mem _ hr)) hrest (by simpa using hlen)]

/-- After a torn record and further `PUT`s a second restart has all complete records and all
further points exactly when the shift by the torn bytes does not show in the appended ones. -/
theorem torn_tail_iff {old new : List Sample} {torn : List Byte}
    (hts : ∀ p ∈ old ++ new, 0 < p.ts ∧ p.ts < 2 ^ 63)
    (hinc : (old ++ new).Pairwise (fun p q => p.ts < q.ts))
    (h16 : torn.length < walRecordBytes) {s : Logged}
    (hput : (restarted old torn).putAll new = some s) :
    (walReplayBytes s.file (getNewHeadBlock 0)).points = old ++ new ↔
      old.length ≤ headCapacity ∧
        new.flatMap recordBytes <+: torn ++ new.flatMap recordBytes := by
  have hlong : ∀ p ∈ old ++ new, InLong p.ts := fun p hp => by
    have := hts p hp
    exact ⟨by omega, this.2⟩
  have holdlong : ∀ p ∈ old, InLong p.ts := fun p hp => hlong p (List.mem_append_left _ hp)
  have hnewlong : ∀ p ∈ new, InLong p.ts := fun p hp => hlong p (List.mem_append_right _ hp)
  obtain ⟨_, hfile, hfit⟩ := putAll_accepted rfl hput
  obtain ⟨read, tail, hbytes, htail, hlen, hreadlong⟩ := reads_shifted h16 new
  have hreplay : walReplayBytes s.file (getNewHeadBlock 0) =
      (old ++ read).foldl replayRecord (getNewHeadBlock 0) := by
    rw [hfile, List.append_assoc, hbytes, ← List.append_assoc, ← List.flatMap_append]
    apply walReplayBytes_eq _ htail
    intro p hp
    cases List.mem_append.mp hp with
    | inl h => exact holdlong p h
    | inr h => exact hreadlong p h
  rw [hreplay, hbytes]
  constructor
  · intro h
    obtain ⟨kept, hsub, hkept⟩ := replay_appends (old ++ read) (getNewHeadBlock 0)
    have hroom := @replay_room (old ++ read) (getNewHeadBlock 0) (Nat.zero_le _)
    rw [h, List.length_append] at hroom
    rw [h, getNewHeadBlock, List.nil_append] at hkept
    have hall : old ++ new = old ++ read := by
      rw [hkept]
      apply hsub.eq_of_length
      rw [← hkept, List.length_append, List.length_append, hlen]
    rw [List.append_cancel_left hall]
    exact ⟨by omega, List.prefix_append _ _⟩
  · rintro ⟨hold, hpre⟩
    have hread : read = new :=
      records_injective hreadlong hnewlong (records_initial hlen hpre) hlen
    rw [hread]
    apply replay_increasing _ (fun p hp => (hts p hp).1) hinc
    cases new with
    | nil => simpa using hold
    | cons p new =>
      -- the first restart has all old records, so the accepted points found room behind them
      have hfirst : (restarted old torn).head.points = old := by
        rw [restarted, walReplayBytes_eq holdlong h16]
        apply replay_increasing hold
        · exact fun p hp => (hts p (List.mem_append_left _ hp)).1
        · exact (List.pairwise_append.mp hinc).1
      have hle := hfit (List.cons_ne_nil p new)
      rw [hfirst] at hle
      rwa [List.length_append]

/-- Torn off after the bytes of the next timestamp, whose value has the same bytes. -/
theorem torn_tail_iff_repeated : ∃ s, (restarted [⟨5, 1⟩] (wordBytes 9)).putAll [⟨9, 9⟩] = some s ∧
    (walReplayBytes s.file (getNewHeadBlock 0)).points = [⟨5, 1⟩, ⟨9, 9⟩] := by
  obtain ⟨s, hs⟩ := Option.isSome_iff_exists.mp
    (show ((restarted [⟨5, 1⟩] (wordBytes 9)).putAll [⟨9, 9⟩]).isSome = true by decide)
  exact ⟨s, hs, (torn_tail_iff (by decide) (by decide) (by decide) hs).mpr
    ⟨by decide, by decide⟩⟩

/-- One torn byte, and the point accepted after the restart comes back as another. -/
theorem torn_tail_poisons : ¬ ∀ (old new : List Sample) (torn : List Byte) (s : Logged),
    (∀ p ∈ old ++ new, 0 < p.ts ∧ p.ts < 2 ^ 63) →
    (old ++ new).Pairwise (fun p q => p.ts < q.ts) →
    0 < torn.length → torn.length < walRecordBytes →
    (restarted old torn).putAll new = some s →
    (walReplayBytes s.file (getNewHeadBlock 0)).points = old ++ new := by
  intro h
  obtain ⟨s, hs, hp⟩ := Option.map_eq_some_iff.mp
    (show ((restarted [⟨5, 1⟩] [0]).putAll [⟨9, 2⟩]).map
      (fun s => (walReplayBytes s.file (getNewHeadBlock 0)).points) =
      some [⟨5, 1⟩, ⟨2304, 512⟩] by decide)
  have hc := h [⟨5, 1⟩] [⟨9, 2⟩] [0] s (by decide) (by decide) (by decide) (by decide) hs
  rw [hp] at hc
  exact absurd hc (by decide)

end Tsdb.TornTail
