import Tsdb.Extents
import Tsdb.CoarseDirs
import Tsdb.Moves
import Tsdb.Reads

namespace Tsdb.StatsExtent

open CStrings Head Files Wal Registry Sections History Service Disk Recovery Loading Shutdown
  PutAnswer LoadOrder Server CoarseDirs Reads Retention Lifetime Shelves Extents Outcomes Moves
  Runs

variable {V : Type} {dataDir metric : Text}

def timestamps (m : MetricState V) : List Int := (storedPoints m).map Point.ts

def extentLine (label : Text) (ts : Option Int) : Text :=
  label ++ " timestamp: ".toList ++ ts.elim "N/A".toList signedDecimal ++ ['\n']

def statsText (metric : Text) (m : MetricState V) : Text :=
  countLines metric m ++ (extentLine "first".toList (timestamps m).min? ++
    extentLine "last".toList (timestamps m).max?)

section Lines

theorem signedDecimal_chars {n : Int} {c : Char} (h : c ∈ signedDecimal n) :
    c = '-' ∨ c.isDigit = true := by
  unfold signedDecimal at h
  split at h
  · exact (List.mem_cons.mp h).imp_right decimal_digits
  · exact .inr (decimal_digits h)

theorem signedDecimal_neg {n : Int} (h : n < 0) : signedDecimal n = '-' :: decimal n.natAbs :=
  if_pos h

theorem signedDecimal_nonneg {n : Int} (h : 0 ≤ n) : signedDecimal n = decimal n.natAbs :=
  if_neg (by omega)

theorem minus_notMem_decimal (n : Nat) : '-' ∉ decimal n :=
  fun h => absurd (decimal_digits h) (by decide)

theorem signedDecimal_injective : Function.Injective signedDecimal := by
  intro a b h
  rcases lt_or_ge a 0 with ha | ha <;> rcases lt_or_ge b 0 with hb | hb
  · rw [signedDecimal_neg ha, signedDecimal_neg hb, List.cons_inj_right] at h
    have := decimal_injective h
    omega
  · rw [signedDecimal_neg ha, signedDecimal_nonneg hb] at h
    exact absurd (h ▸ List.mem_cons_self) (minus_notMem_decimal _)
  · rw [signedDecimal_nonneg ha, signedDecimal_neg hb] at h
    exact absurd (h ▸ List.mem_cons_self) (minus_notMem_decimal _)
  · rw [signedDecimal_nonneg ha, signedDecimal_nonneg hb] at h
    have := decimal_injective h
    omega

theorem signedDecimal_ne_missing (n : Int) : signedDecimal n ≠ "N/A".toList := by
  intro h
  have hN : 'N' ∈ signedDecimal n := by
    rw [h]
    decide
  rcases signedDecimal_chars hN with hc | hc
  · exact absurd hc (by decide)
  · exact absurd hc (by decide)

theorem shown_eq_iff {ts : Int} {o : Option Int} :
    (if ts = -1 then "N/A".toList else signedDecimal ts) = o.elim "N/A".toList signedDecimal ↔
      (ts = -1 ∧ o = none) ∨ (ts ≠ -1 ∧ o = some ts) := by
  by_cases hts : ts = -1
  · cases o with
    | none => simp [hts]
    | some a => simpa [hts] using (signedDecimal_ne_missing a).symm
  · cases o with
    | none => simpa [hts] using signedDecimal_ne_missing ts
    | some a =>
      simp only [hts, if_false, Option.elim_some, signedDecimal_injective.eq_iff]
      simp [hts, eq_comm]

theorem newline_notMem_shown (ts : Int) :
    '\n' ∉ (if ts = -1 then "N/A".toList else signedDecimal ts) := by
  split
  · decide
  · intro h
    rcases signedDecimal_chars h with hc | hc
    · exact absurd hc (by decide)
    · exact absurd hc (by decide)

theorem lines_eq_iff {first last : Int} {least greatest : Option Int} :
    timestampLine "first".toList first ++ timestampLine "last".toList last =
        extentLine "first".toList least ++ extentLine "last".toList greatest ↔
      ((first = -1 ∧ least = none) ∨ (first ≠ -1 ∧ least = some first)) ∧
        ((last = -1 ∧ greatest = none) ∨ (last ≠ -1 ∧ greatest = some last)) := by
  have hlabel : '\n' ∉ "first timestamp: ".toList ∧ '\n' ∉ "last timestamp: ".toList := by decide
  have hsplit : timestampLine "first".toList first ++ timestampLine "last".toList last =
      ("first timestamp: ".toList ++ if first = -1 then "N/A".toList else signedDecimal first) ++
        '\n' :: ("last timestamp: ".toList ++
          if last = -1 then "N/A".toList else signedDecimal last) ++ ['\n'] := by
    simp [timestampLine]
  have hsplit' : extentLine "first".toList least ++ extentLine "last".toList greatest =
      ("first timestamp: ".toList ++ least.elim "N/A".toList signedDecimal) ++
        '\n' :: ("last timestamp: ".toList ++ greatest.elim "N/A".toList signedDecimal) ++
          ['\n'] := by
    simp [extentLine]
  rw [hsplit, hsplit', List.append_cancel_right_eq, List.append_cons_inj_of_notMem,
    List.append_cancel_left_eq, List.append_cancel_left_eq, shown_eq_iff, shown_eq_iff]
  · simp
  · exact fun h => (List.mem_append.mp h).elim hlabel.1 (newline_notMem_shown first)
  · exact fun h => (List.mem_append.mp h).elim hlabel.2 (newline_notMem_shown last)

/-- Taking `-1` for nothing goes wrong only where the answer itself is `-1`. -/
theorem sentinel_iff (a b : Option Int) :
    ((if a.getD (-1) ≠ -1 then a.getD (-1) else b.getD (-1)) = -1 ∧ a.or b = none ∨
        (if a.getD (-1) ≠ -1 then a.getD (-1) else b.getD (-1)) ≠ -1 ∧
          a.or b = some (if a.getD (-1) ≠ -1 then a.getD (-1) else b.getD (-1))) ↔
      a.or b ≠ some (-1) := by
  cases a with
  | none =>
    cases b with
    | none => simp
    | some y => by_cases hy : y = -1 <;> simp [hy]
  | some x => by_cases hx : x = -1 <;> simp [hx, eq_comm]

end Lines

/-- The clients, the file system and the directory listing do what the code leaves to them: no
flush opens the file of an entry, a point that starts a head is older than nothing there is, and a
start lists the chunk files in the order of their starts. -/
def Timely (dataDir : Text) (s : Store V) : Turn V → Prop
  | .request env metric order =>
    ∀ m ∈ getMetricFromHashTable env.unset metric order.isPut s,
      opensFresh dataDir metric env.io order m ∧
        match order with
        | .put point => StartsHead dataDir metric env.io m →
            (∀ name ∈ m.dir.chunks.keys, ∀ data ∈ chunkRead m.dir name, data.endTs ≤ point.ts) ∧
              ∀ q ∈ m.entry.head.points, q.ts ≤ point.ts
        | .flush => True
  | .expire _ _ _ => True
  | .restart _ dirs => ∀ k, FoundBy dataDir CutOk s k ((dirs.lookup k).getD Dir.empty) ∧
      InTimeOrder ((dirs.lookup k).getD Dir.empty)

instance (dataDir : Text) (s : Store V) (env : Env) (metric : Text) (order : Order V) :
    Decidable (Timely dataDir s (.request env metric order)) :=
  match order with
  | .put point => inferInstanceAs (Decidable (∀ m ∈ getMetricFromHashTable env.unset metric true s,
      opensFresh dataDir metric env.io (.put point) m ∧ (StartsHead dataDir metric env.io m →
        (∀ name ∈ m.dir.chunks.keys, ∀ data ∈ chunkRead m.dir name, data.endTs ≤ point.ts) ∧
          ∀ q ∈ m.entry.head.points, q.ts ≤ point.ts)))
  | .flush => inferInstanceAs (Decidable (∀ m ∈ getMetricFromHashTable env.unset metric false s,
      opensFresh dataDir metric env.io .flush m ∧ True))

instance (dataDir : Text) (s : Store V) (x : Attempt V) :
    Decidable (Timely dataDir s (Move.request x).turn) :=
  inferInstanceAs (Decidable (Timely dataDir s (.request ⟨x.unset, told x.io⟩ x.metric x.order)))

theorem living_extent {s : Store V} (h : Living dataDir (Timely dataDir) s) (k : Text) :
    Keeps (Spans dataDir) (Extent dataDir) s k := by
  apply living_invariant _ _ _ _ _ _ h
  · exact fun k => spans_empty
  · exact fun k m hm => hm.spans
  · exact fun k dir unset hdir => extent_new hdir unset
  · intro s env k order m hguard hm hI
    obtain ⟨hfresh, hstart⟩ := hguard m hm
    cases order with
    | put point =>
      exact extent_putLocked hI hfresh fun hempties =>
        ⟨fun name data hr => (hstart hempties).1 name (chunkRead_key hr) data hr,
          (hstart hempties).2⟩
    | flush => exact extent_flush hI (hfresh trivial)
  · exact fun k m cfg now removes hI => extent_expire hI cfg now removes
  · intro s unset dirs k hguard _ hs
    have hspans := spans_found hs (hguard k).1
    exact ⟨hspans, extent_loaded hspans (hguard k).2 (unset k)⟩

section Bounds

variable {m : MetricState V}

theorem mem_timestamps {ts : Int} : ts ∈ timestamps m ↔
    (∃ chunk ∈ m.entry.chunks, ∃ p ∈ chunkPoints m.dir chunk, p.ts = ts) ∨
      ∃ p ∈ m.entry.head.points, p.ts = ts := by
  simp only [timestamps, storedPoints, List.map_append, List.mem_append, List.mem_map,
    List.mem_flatMap]
  constructor
  · rintro (⟨p, ⟨chunk, hc, hp⟩, rfl⟩ | h)
    · exact .inl ⟨chunk, hc, p, hp, rfl⟩
    · exact .inr h
  · rintro (⟨chunk, hc, p, hp, rfl⟩ | h)
    · exact .inl ⟨p, ⟨chunk, hc, hp⟩, rfl⟩
    · exact .inr h

theorem least_eq (h : Extent dataDir metric m) : (timestamps m).min? =
    (m.entry.chunks.head?.map ChunkMetadata.startTs).or
      (m.entry.head.points.head?.map Point.ts) := by
  cases hchunks : m.entry.chunks with
  | nil =>
    have hts : timestamps m = m.entry.head.points.map Point.ts := by
      rw [timestamps, storedPoints, hchunks]
      rfl
    rw [hts]
    cases hf : m.entry.head.points.head? with
    | none => rw [List.head?_eq_none_iff.mp hf]; rfl
    | some first =>
      obtain ⟨⟨p, hp, hfirst⟩, hleast⟩ := (describes_head h.shelved.ordered hf []).least
      apply List.min?_eq_some_iff.mpr ⟨_, _⟩
      · exact List.mem_map.mpr ⟨p, hp, hfirst⟩
      · rintro _ hts
        obtain ⟨q, hq, rfl⟩ := List.mem_map.mp hts
        exact hleast ⟨q, hq, rfl⟩
  | cons c rest =>
    have hc : c ∈ m.entry.chunks := by
      rw [hchunks]
      exact List.mem_cons_self
    obtain ⟨hread, hdesc⟩ := h.shelved.reads hc
    apply List.min?_eq_some_iff.mpr ⟨_, _⟩
    · exact mem_timestamps.mpr (.inl ⟨c, hc, hdesc.least.1⟩)
    · intro ts hts
      rcases mem_timestamps.mp hts with ⟨c', hc', p, hp, rfl⟩ | ⟨p, hp, rfl⟩
      · have hleast := (h.shelved.reads hc').2.least.2 ⟨p, hp, rfl⟩
        rw [hchunks] at hc'
        rcases List.mem_cons.mp hc' with rfl | hc'
        · exact hleast
        · have hlead := h.chunks
          rw [hchunks] at hlead
          exact (List.rel_of_pairwise_cons hlead hc').1.trans hleast
      · exact h.start _ _ hread p hp

theorem greatest_eq (h : Extent dataDir metric m) : (timestamps m).max? =
    (if 0 < m.entry.head.size then some m.entry.head.lastTimestamp else none).or
      (m.entry.chunks.getLast?.map ChunkMetadata.endTs) := by
  rcases List.eq_nil_or_concat' m.entry.head.points with hnil | ⟨init, last, hpoints⟩
  · have hsize : ¬ 0 < m.entry.head.size := by simp [HeadBlock.size, hnil]
    rw [if_neg hsize, Option.none_or]
    rcases List.eq_nil_or_concat' m.entry.chunks with hchunks | ⟨older, c, hchunks⟩
    · rw [timestamps, storedPoints, hchunks, hnil]
      rfl
    · have hc : c ∈ m.entry.chunks := by
        rw [hchunks]
        exact List.mem_append_right _ (List.mem_singleton_self c)
      rw [hchunks, List.getLast?_concat]
      apply List.max?_eq_some_iff.mpr ⟨_, _⟩
      · exact mem_timestamps.mpr (.inl ⟨c, hc, (h.shelved.reads hc).2.greatest.1⟩)
      · intro ts hts
        rcases mem_timestamps.mp hts with ⟨c', hc', p, hp, rfl⟩ | ⟨p, hp, rfl⟩
        · have hgreatest := (h.shelved.reads hc').2.greatest.2 ⟨p, hp, rfl⟩
          rw [hchunks] at hc'
          rcases List.mem_append.mp hc' with hc' | hc'
          · have hlead := h.chunks
            rw [hchunks] at hlead
            exact hgreatest.trans
              ((List.pairwise_append.mp hlead).2.2 c' hc' c (List.mem_singleton_self c)).2
          · rwa [List.mem_singleton.mp hc'] at hgreatest
        · rw [hnil] at hp
          exact absurd hp List.not_mem_nil
  · have hne : m.entry.head.points ≠ [] := by simp [hpoints]
    obtain ⟨first, hf⟩ : ∃ first, first ∈ m.entry.head.points.head? :=
      ⟨_, List.head?_eq_some_head hne⟩
    obtain ⟨⟨p, hp, hlast⟩, hgreatest⟩ := (describes_head h.shelved.ordered hf []).greatest
    rw [if_pos (show 0 < m.entry.head.size from List.length_pos_iff.mpr hne), Option.some_or]
    apply List.max?_eq_some_iff.mpr ⟨_, _⟩
    · exact mem_timestamps.mpr (.inr ⟨p, hp, hlast⟩)
    · intro ts hts
      rcases mem_timestamps.mp hts with ⟨c', hc', p, hp, rfl⟩ | ⟨p, hp, rfl⟩
      · obtain ⟨hread, hdesc⟩ := h.shelved.reads hc'
        exact (hdesc.greatest.2 ⟨p, hp, rfl⟩).trans (h.reach _ _ hread hne)
      · exact hgreatest ⟨p, hp, rfl⟩

end Bounds

theorem headStats_eq_iff {s : Store V} {m : MetricState V} (hm : hashFindStr metric s = some m) :
    headStats metric s = statsText metric m ↔
      timestampLine "first".toList (overallFirst m) ++
          timestampLine "last".toList (overallLast m) =
        extentLine "first".toList (timestamps m).min? ++
          extentLine "last".toList (timestamps m).max? := by
  rw [headStats_eq hm, statsText]
  exact List.append_right_inj (countLines metric m)

/-- `Head_STATS` shows the least and the greatest timestamp, or that there is none, except where
one of them is the `-1` it takes for none. -/
theorem stats_extent_iff {bits : V → BitVec 64} {s : Store V}
    (h : Moving dataDir (fun s x => Faithful bits s x ∧ Timely dataDir s x.turn) s)
    {m : MetricState V} (hm : hashFindStr metric s = some m) :
    headStats metric s = statsText metric m ↔
      (timestamps m).min? ≠ some (-1) ∧ (timestamps m).max? ≠ some (-1) := by
  have hext := (living_extent h.living metric).metric m hm
  have hram : (if 0 < m.entry.head.size then m.entry.head.lastTimestamp else -1) =
      (if 0 < m.entry.head.size then some m.entry.head.lastTimestamp else none).getD (-1) := by
    split <;> rfl
  rw [headStats_eq_iff hm, lines_eq_iff, least_eq hext, greatest_eq hext, overallFirst,
    overallLast, hram]
  exact and_congr (sentinel_iff _ _) (sentinel_iff _ _)

/-- Of two chunks one expires, the server starts again, and a point comes. -/
theorem stats_extent_iff_expired : ∃ (s : Store Nat) (m : MetricState Nat),
    hashFindStr ['m'] s = some m ∧ timestamps m = [7, 9] ∧
    (headStats ['m'] s = statsText ['m'] m ↔
      (timestamps m).min? ≠ some (-1) ∧ (timestamps m).max? ≠ some (-1)) := by
  have hrun : ∃ s : Store Nat, ([⟨0, .ok, ['m'], .put ⟨5, 1⟩⟩, ⟨0, .ok, ['m'], .flush⟩,
      ⟨0, .ok, ['m'], .put ⟨7, 2⟩⟩, ⟨0, .ok, ['m'], .flush⟩, ⟨0, .ok, ['m'], .put ⟨9, 3⟩⟩] :
        List (Attempt Nat)).foldlM (fun s x => Move.run ['d'] s (.request x)) Store.empty =
        some s ∧
      (runExpiry [⟨['m'], 10⟩] 16 (fun _ _ => true) s).dirs.keys = [['m']] ∧
      ((runExpiry [⟨['m'], 10⟩] 16 (fun _ _ => true) s).dirOf ['m']).chunks.keys =
        ["m_7.chunk".toList] ∧
      (hashFindStr ['m'] (loadRegistry ['d'] (fun _ => 0)
        (runExpiry [⟨['m'], 10⟩] 16 (fun _ _ => true) s).dirs)).map timestamps = some [7, 9] := by
    refine ⟨_, rfl, ?_⟩
    decide +kernel
  obtain ⟨s, hs, hdirs, hnames, hstored⟩ := hrun
  obtain ⟨m, hm, hp⟩ := Option.map_eq_some_iff.mp hstored
  have hstart : Moving ['d'] (fun s x => Faithful (fun _ => 0#64) s x ∧ Timely ['d'] s x.turn)
    (Store.empty : Store Nat) := .start rfl
  have hallowed : Allowed
      (fun s x => Faithful (fun _ => 0#64) s (.request x) ∧ Timely ['d'] s (Move.request x).turn)
      (fun (s : Store Nat) x => Move.run ['d'] s (.request x))
      [⟨0, .ok, ['m'], .put ⟨5, 1⟩⟩, ⟨0, .ok, ['m'], .flush⟩, ⟨0, .ok, ['m'], .put ⟨7, 2⟩⟩,
        ⟨0, .ok, ['m'], .flush⟩, ⟨0, .ok, ['m'], .put ⟨9, 3⟩⟩] Store.empty := by decide +kernel
  have hexpired := (hstart.requests hallowed hs).expired [⟨['m'], 10⟩] 16 (fun _ _ => true)
    ⟨trivial, trivial⟩
  generalize runExpiry [⟨['m'], 10⟩] 16 (fun _ _ => true) s = s' at hexpired hdirs hnames hm
  have hlive := hexpired.again (fun _ => 0) ⟨fun k m _ => trivial, fun k =>
    ⟨found_same _ _ s' k, inTimeOrder_single hdirs hnames k⟩⟩
  exact ⟨_, m, hm, hp, stats_extent_iff hlive hm⟩

/-- After a flush an older point is taken, and the first timestamp shown is not the least. -/
theorem stats_misses_minimum : ¬ ∀ (dataDir metric : Text) (s : Store Nat) (m : MetricState Nat),
    Living dataDir (fun _ _ => True) s → hashFindStr metric s = some m →
      headStats metric s = statsText metric m := by
  intro hall
  have hrun : ∃ s : Store Nat, ([(⟨0, .ok⟩, ['m'], .put ⟨20, 1⟩), (⟨0, .ok⟩, ['m'], .flush),
      (⟨0, .ok⟩, ['m'], .put ⟨5, 2⟩)] :
        List (Call Nat)).foldlM (fun s x => serveOrder ['d'] x.1 x.2.1 s x.2.2) Store.empty =
        some s ∧
      (hashFindStr ['m'] s).map (fun m => decide (headStats ['m'] s = statsText ['m'] m)) =
        some false := by
    refine ⟨_, rfl, ?_⟩
    decide +kernel
  obtain ⟨s, hs, hshown⟩ := hrun
  obtain ⟨m, hm, hne⟩ := Option.map_eq_some_iff.mp hshown
  have hstart : Living ['d'] (fun _ _ => True) (Store.empty : Store Nat) := .start rfl
  have hlive : Living ['d'] (fun _ _ => True) s :=
    hstart.requests (Runs.allowed_of_forall (fun _ _ => trivial) _ _) hs
  exact of_decide_eq_false hne (hall ['d'] ['m'] s m hlive hm)

end Tsdb.StatsExtent
