import Tsdb.BucketLines

namespace Tsdb.BucketExact

open CStrings Head Files Query Aggregate Buckets Means BucketValues BucketLines

variable {V : Type} [Field V] [LinearOrder V]

/-- What the line of a bucket should carry, said without the accumulators. -/
def IsAggregate (func : Text) (points : List (Point V)) : Cell V → Prop
  | .int n => func = "count".toList ∧ n = points.length
  | .real x =>
    func = "avg".toList ∧ x = mean (values points) ∨
    func = "min".toList ∧ IsLeast {v | v ∈ values points} x ∨
    func = "max".toList ∧ IsGreatest {v | v ∈ values points} x ∨
    func = "sum".toList ∧ x = (values points).sum

def kthLine (start bucketSeconds : Int) (k : Nat) (cell : Cell V) : Line V :=
  ⟨start + k * bucketSeconds, start + (k + 1) * bucketSeconds, cell⟩

/-- A text with one line for each bucket that has points, in order, each with the aggregate of
exactly its points; the footer counts the lines, and no point is counted twice or left out. -/
structure Prints (fmt : V → Text) (func : Text) (start bucketSeconds : Int)
    (points : List (Point V)) (ks : List Nat) (cell : Nat → Cell V) (text : Text) : Prop where
  occupied : Occupied start bucketSeconds points ks
  aggregate : ∀ k ∈ ks, IsAggregate func (kthBucket start bucketSeconds points k) (cell k)
  counts : (ks.map fun k => (kthBucket start bucketSeconds points k).length).sum = points.length
  text : text = ks.flatMap (fun k => wholeLine fmt (kthLine start bucketSeconds k (cell k))) ++
    '(' :: (decimal ks.length ++ " buckets)\n".toList)

def ShortLines (fmt : V → Text) (func : Text) (start bucketSeconds : Int)
    (points : List (Point V)) : Prop :=
  ∀ k cell, kthBucket start bucketSeconds points k ≠ [] →
    IsAggregate func (kthBucket start bucketSeconds points k) cell →
    (wholeLine fmt (kthLine start bucketSeconds k cell)).length ≤ 127

theorem aggCell_isAggregate {points : List (Point V)} (hne : points ≠ []) {func : Text}
    (hfunc : func ∈ meanFunctions) (carry : Nat × Int) :
    ∃ cell, aggCell func (bucketAcc carry points) = some cell ∧ IsAggregate func points cell := by
  have hstats := bucketAcc_stats carry points
  simp only [meanFunctions, List.mem_cons, List.not_mem_nil, or_false] at hfunc
  rcases hfunc with rfl | rfl | rfl | rfl | rfl
  · exact ⟨_, cell_avg hstats, .inl ⟨rfl, rfl⟩⟩
  · exact ⟨_, cell_min hstats hne (hstats.least hne), .inr (.inl ⟨rfl, hstats.least hne⟩)⟩
  · exact ⟨_, cell_max hstats hne (hstats.greatest hne),
      .inr (.inr (.inl ⟨rfl, hstats.greatest hne⟩))⟩
  · exact ⟨_, cell_sum hstats, .inr (.inr (.inr ⟨rfl, rfl⟩))⟩
  · exact ⟨_, cell_count hstats, rfl, List.length_map _⟩

theorem IsAggregate.unique {func : Text} {points : List (Point V)} {cell cell' : Cell V}
    (h : IsAggregate func points cell) (h' : IsAggregate func points cell') : cell = cell' := by
  cases cell with
  | int n =>
    obtain ⟨rfl, rfl⟩ := h
    cases cell' with
    | int n' => rw [h'.2]
    | real x' => simp [IsAggregate] at h'
  | real x =>
    rcases h with ⟨rfl, h⟩ | ⟨rfl, h⟩ | ⟨rfl, h⟩ | ⟨rfl, h⟩ <;> cases cell' <;>
      simp [IsAggregate, -List.mem_map] at h'
    · rw [h, h']
    · rw [h.unique h']
    · rw [h.unique h']
    · rw [h, h']

omit [Field V] [LinearOrder V] in
theorem Occupied.unique {start bucketSeconds : Int} {points : List (Point V)} {ks ks' : List Nat}
    (h : Occupied start bucketSeconds points ks) (h' : Occupied start bucketSeconds points ks') :
    ks = ks' :=
  h.increasing.eq_of_mem_iff h'.increasing fun {k} => (h.mem_iff k).trans (h'.mem_iff k).symm

variable {fmt : V → Text} {points : List (Point V)} {start stop bucketSeconds : Int} {func : Text}

theorem aggPoints_exact (hin : ∀ p ∈ points, InRange start stop p) (hpos : 0 < bucketSeconds)
    (hfunc : func ∈ meanFunctions) :
    ∃ (ks : List Nat) (cell : Nat → Cell V),
      Prints fmt func start bucketSeconds points ks cell
        (wholeText fmt (aggPoints points start stop bucketSeconds func)) ∧
      aggPoints points start stop bucketSeconds func =
        .lines (ks.map fun k => kthLine start bucketSeconds k (cell k)) := by
  obtain ⟨ks, cell, hocc, hlines, hcell⟩ := aggPoints_lines hin hpos (meanFunctions_known hfunc)
  have hline (k : Nat) : (⟨bucketAt start bucketSeconds k, bucketAt start bucketSeconds (k + 1),
      cell k⟩ : Line V) = kthLine start bucketSeconds k (cell k) := by
    unfold kthLine bucketAt
    push_cast
    rfl
  simp only [hline] at hlines
  refine ⟨ks, cell, ⟨hocc, fun k hk => ?_, hocc.sum_lengths hpos fun p hp => (hin p hp).1, ?_⟩,
    hlines⟩
  · have hperm := bucketPoints_perm (bucketAt start bucketSeconds k)
      (bucketAt start bucketSeconds (k + 1)) (sortPoints_perm points)
    obtain ⟨cell', hcell', hagg⟩ := aggCell_isAggregate (hocc.nonempty hk) hfunc (0, 0)
    have hsame := aggCell_perm (hperm.symm.map Point.value) (hocc.nonempty hk) hfunc (0, 0)
      (carryAt (sortPoints points) (0, 0) start (bucketAt start bucketSeconds k))
    rw [hcell', hcell k] at hsame
    rwa [← Option.some.inj hsame]
  · rw [hlines, wholeText, List.length_map, List.flatMap_map]

theorem Prints.unique {ks ks' : List Nat} {cell cell' : Nat → Cell V} {text text' : Text}
    (h : Prints fmt func start bucketSeconds points ks cell text)
    (h' : Prints fmt func start bucketSeconds points ks' cell' text') : text = text' := by
  obtain rfl := Occupied.unique h.occupied h'.occupied
  rw [h.text, h'.text, List.append_left_inj]
  refine List.flatMap_congr fun k hk => ?_
  rw [(h.aggregate k hk).unique (h'.aggregate k hk)]

theorem linesFit_iff (hin : ∀ p ∈ points, InRange start stop p) (hpos : 0 < bucketSeconds)
    (hfunc : func ∈ meanFunctions) :
    LinesFit fmt (aggPoints points start stop bucketSeconds func) ↔
      ShortLines fmt func start bucketSeconds points := by
  obtain ⟨ks, cell, hprints, hlines⟩ := @aggPoints_exact V _ _ fmt _ _ _ _ _ hin hpos hfunc
  rw [hlines]
  constructor
  · intro hfit k cell' hne hagg
    have hk : k ∈ ks := by
      obtain ⟨p, hp⟩ := List.exists_mem_of_ne_nil _ hne
      exact (hprints.occupied.mem_iff k).mpr ⟨p, mem_bucketPoints.mp hp⟩
    rw [hagg.unique (hprints.aggregate k hk)]
    exact hfit _ (List.mem_map_of_mem hk)
  · intro hshort line hline
    obtain ⟨k, hk, rfl⟩ := List.mem_map.mp hline
    exact hshort k (cell k) (hprints.occupied.nonempty hk) (hprints.aggregate k hk)

theorem prints_iff_fit (hin : ∀ p ∈ points, InRange start stop p) (hpos : 0 < bucketSeconds)
    (hfunc : func ∈ meanFunctions) :
    (∃ ks cell, Prints fmt func start bucketSeconds points ks cell
        (aggText fmt (aggPoints points start stop bucketSeconds func))) ↔
      LinesFit fmt (aggPoints points start stop bucketSeconds func) := by
  obtain ⟨ks, cell, hprints, -⟩ := @aggPoints_exact V _ _ fmt _ _ _ _ _ hin hpos hfunc
  rw [← aggText_eq_iff]
  constructor
  · rintro ⟨ks', cell', hprints'⟩
    exact hprints'.unique hprints
  · intro he
    rw [he]
    exact ⟨ks, cell, hprints⟩

/-- The answer is exact if and only if no line that it needs is longer than 127 characters. -/
theorem prints_iff (hin : ∀ p ∈ points, InRange start stop p) (hpos : 0 < bucketSeconds)
    (hfunc : func ∈ meanFunctions) :
    (∃ ks cell, Prints fmt func start bucketSeconds points ks cell
        (aggText fmt (aggPoints points start stop bucketSeconds func))) ↔
      ShortLines fmt func start bucketSeconds points :=
  (prints_iff_fit hin hpos hfunc).trans (linesFit_iff hin hpos hfunc)

def sixDecimals (x : ℚ) : Text :=
  let n := (x * 10 ^ 6).floor
  (if n < 0 then ['-'] else []) ++
    decimal (n.natAbs / 10 ^ 6) ++ '.' :: (decimal (n.natAbs % 10 ^ 6)).leftpad 6 '0'

theorem prints_iff_two_buckets : ∃ ks cell, Prints sixDecimals "avg".toList 0 60
    [⟨61, 4⟩, ⟨5, 1⟩, ⟨7, 3⟩] ks cell "0-60 2.000000\n60-120 4.000000\n(2 buckets)\n".toList := by
  have htext : aggText sixDecimals (aggPoints [⟨61, 4⟩, ⟨5, 1⟩, ⟨7, 3⟩] 0 100 60 "avg".toList) =
      "0-60 2.000000\n60-120 4.000000\n(2 buckets)\n".toList := by decide +kernel
  rw [← htext]
  have hlines : aggPoints ([⟨61, 4⟩, ⟨5, 1⟩, ⟨7, 3⟩] : List (Point ℚ)) 0 100 60 "avg".toList =
      .lines [⟨0, 60, .real 2⟩, ⟨60, 120, .real 4⟩] := by decide +kernel
  have hshort := (@linesFit_iff ℚ _ _ sixDecimals [⟨61, 4⟩, ⟨5, 1⟩, ⟨7, 3⟩] 0 100 60 "avg".toList
    (by decide) (by decide) (by decide)).mp (by
      rw [hlines]
      unfold LinesFit
      decide +kernel)
  exact (@prints_iff ℚ _ _ sixDecimals [⟨61, 4⟩, ⟨5, 1⟩, ⟨7, 3⟩] 0 100 60 "avg".toList
    (by decide) (by decide) (by decide)).mpr hshort

/-- A large value pushes the newline out of `line[128]`. -/
theorem newline_cut_off : ¬ ∃ ks cell, Prints sixDecimals "avg".toList 0 60
    [⟨0, 10 ^ 120⟩, ⟨60, 1⟩] ks cell
    (aggText sixDecimals (aggPoints [⟨0, 10 ^ 120⟩, ⟨60, 1⟩] 0 120 60 "avg".toList)) := by
  have hlines : aggPoints ([⟨0, 10 ^ 120⟩, ⟨60, 1⟩] : List (Point ℚ)) 0 120 60 "avg".toList =
      .lines [⟨0, 60, .real (10 ^ 120)⟩, ⟨60, 120, .real 1⟩] := by decide +kernel
  have hlength : (wholeLine sixDecimals ⟨0, 60, .real (10 ^ 120)⟩).length = 134 := by
    decide +kernel
  rw [prints_iff_fit (by decide +kernel) (by decide) (by decide), hlines]
  intro hfit
  have hline := hfit ⟨0, 60, .real (10 ^ 120)⟩ List.mem_cons_self
  omega

end Tsdb.BucketExact
