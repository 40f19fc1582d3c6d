import Tsdb.MinuteBuckets

namespace Tsdb.MinuteAverages

open Head Query Aggregate Downsample Minutes Buckets Means MinuteBuckets CoarseQuery

variable {V : Type}

/-- The bound `write_coarse_chunk` computes on the number of entries, over unbounded integers. -/
def bucketBound (first last : Int) : Int :=
  (last - first + coarseBucketSeconds).tdiv coarseBucketSeconds + 1

/-- Integers that increase strictly between two bounds are at most as many as lie there. -/
theorem length_le_of_increasing {ts : List Int} (hinc : ts.Pairwise (· < ·)) (lo hi : Int)
    (h : ∀ t ∈ ts, lo ≤ t ∧ t ≤ hi) : ts.length ≤ (hi + 1 - lo).toNat := by
  have hnodup : ts.Nodup := hinc.imp fun hlt => ne_of_lt hlt
  rw [← Int.card_Icc, ← List.toFinset_card_of_nodup hnodup]
  apply Finset.card_le_card
  intro t ht
  exact Finset.mem_Icc.mpr (h t (List.mem_toFinset.mp ht))

theorem stamp_minute {first p : Point V} (hnonneg : 0 ≤ first.ts) (hle : first.ts ≤ p.ts) :
    stamp (minuteStart first.ts) p = p.ts / 60 * 60 := by
  have hstart := (minuteStart_spec first.ts).2.2.2 hnonneg
  unfold stamp
  omega

def minutePoints (t : Int) (points : List (Point V)) : List (Point V) :=
  bucketPoints t (t + 60) points

theorem minutePoints_eq {first : Point V} {rest : List (Point V)}
    {minutes : List (Minute V)} (hdiv : Divides (minuteStart first.ts) (first :: rest) minutes)
    (hsorted : (first :: rest).Pairwise fun p q => p.ts ≤ q.ts) (hnonneg : 0 ≤ first.ts)
    {x : Minute V} (hx : x ∈ minutes) :
    (∃ k, x.1 = 60 * k) ∧ minutePoints x.1 (first :: rest) = x.2 := by
  have hstamp (p : Point V) (hp : p ∈ first :: rest) :
      stamp (minuteStart first.ts) p = p.ts / 60 * 60 := by
    apply stamp_minute hnonneg
    rcases List.mem_cons.mp hp with rfl | hp
    · exact le_rfl
    · exact List.rel_of_pairwise_cons hsorted hp
  have hmem (p : Point V) (hp : p ∈ x.2) : p ∈ first :: rest := by
    rw [← hdiv.flatten]
    exact List.mem_flatMap.mpr ⟨x, hx, hp⟩
  obtain ⟨q, hq⟩ := List.exists_mem_of_ne_nil _ (hdiv.nonempty x hx)
  have hxq := hdiv.stamped x hx q hq
  rw [hstamp q (hmem q hq)] at hxq
  refine ⟨⟨q.ts / 60, by omega⟩, ?_⟩
  rw [← Divides.group hdiv hx, minutePoints, bucketPoints]
  apply List.filter_congr
  intro p hp
  rw [hstamp p hp, decide_eq_decide]
  unfold InRange
  omega

section Field

variable [Field V]

/-- What the output arrays of `write_coarse_chunk` are for. -/
structure Averages (points out : List (Point V)) : Prop where
  entries : ∀ k : Int, (∃ c ∈ out, c.ts = 60 * k) ↔ minutePoints (60 * k) points ≠ []
  aligned : ∀ c ∈ out, ∃ k : Int, c.ts = 60 * k
  increasing : out.Pairwise fun c d => c.ts < d.ts
  values : ∀ c ∈ out, c.value = mean ((minutePoints c.ts points).map Point.value)
  counts : (out.map fun c => (minutePoints c.ts points).length).sum = points.length

theorem coarsePoints_averages {first : Point V} {rest : List (Point V)}
    (hsorted : (first :: rest).Pairwise fun p q => p.ts ≤ q.ts) (hnonneg : 0 ≤ first.ts) :
    Averages (first :: rest) (coarsePoints (first :: rest)) := by
  obtain ⟨minutes, hdiv, hcoarse⟩ := coarsePoints_divides hsorted
  rw [hcoarse]
  have hgroup (x : Minute V) (hx : x ∈ minutes) :=
    minutePoints_eq hdiv hsorted hnonneg hx
  refine ⟨fun k => ?_, ?_, ?_, ?_, ?_⟩
  · constructor
    · rintro ⟨c, hc, hk⟩
      obtain ⟨x, hx, rfl⟩ := List.mem_map.mp hc
      rw [← hk, minutePoint, (hgroup x hx).2]
      exact hdiv.nonempty x hx
    · intro hne
      obtain ⟨p, hp⟩ := List.exists_mem_of_ne_nil _ hne
      obtain ⟨hp, hlow, hhigh⟩ := mem_bucketPoints.mp hp
      rw [← hdiv.flatten] at hp
      obtain ⟨x, hx, hpx⟩ := List.mem_flatMap.mp hp
      refine ⟨minutePoint x, List.mem_map_of_mem hx, ?_⟩
      obtain ⟨⟨j, hj⟩, hx⟩ := hgroup x hx
      rw [← hx] at hpx
      obtain ⟨_, hlow', hhigh'⟩ := mem_bucketPoints.mp hpx
      show x.1 = 60 * k
      omega
  · intro c hc
    obtain ⟨x, hx, rfl⟩ := List.mem_map.mp hc
    exact (hgroup x hx).1
  · exact List.pairwise_map.mpr hdiv.increasing
  · intro c hc
    obtain ⟨x, hx, rfl⟩ := List.mem_map.mp hc
    rw [minutePoint, (hgroup x hx).2, average_eq_mean]
  · have hlengths : (minutes.map minutePoint).map
        (fun c => (minutePoints c.ts (first :: rest)).length) =
          minutes.map fun x => x.2.length := by
      rw [List.map_map]
      apply List.map_congr_left
      intro x hx
      exact congrArg List.length (hgroup x hx).2
    rw [hlengths, ← List.length_flatMap, hdiv.flatten]

theorem Averages.length_le {points out : List (Point V)} (h : Averages points out) {lo hi : Int}
    (hrange : ∀ p ∈ points, lo ≤ p.ts ∧ p.ts ≤ hi) (hle : lo ≤ hi) :
    (out.length : Int) ≤ bucketBound lo hi := by
  have hminute (c : Point V) (hc : c ∈ out) : lo / 60 ≤ c.ts / 60 ∧ c.ts / 60 ≤ hi / 60 := by
    obtain ⟨k, hk⟩ := h.aligned c hc
    obtain ⟨p, hp⟩ := List.exists_mem_of_ne_nil _ ((h.entries k).mp ⟨c, hc, hk⟩)
    obtain ⟨hp, hlow, hhigh⟩ := mem_bucketPoints.mp hp
    have hp := hrange p hp
    omega
  have hinc : (out.map fun c => c.ts / 60).Pairwise (· < ·) := by
    apply List.pairwise_map.mpr
    apply h.increasing.imp_of_mem
    intro c d hc hd hlt
    obtain ⟨k, hk⟩ := h.aligned c hc
    obtain ⟨j, hj⟩ := h.aligned d hd
    omega
  have hlength := length_le_of_increasing hinc (lo / 60) (hi / 60) fun t ht => by
    obtain ⟨c, hc, rfl⟩ := List.mem_map.mp ht
    exact hminute c hc
  rw [List.length_map] at hlength
  rw [bucketBound, coarseBucketSeconds, Int.tdiv_eq_ediv_of_nonneg (by omega)]
  omega

/-- One chunk is downsampled correctly, and into no more entries than were allocated. -/
theorem coarsePoints_correct {points : List (Point V)} (hne : points ≠ [])
    (hsorted : points.Pairwise fun p q => p.ts ≤ q.ts) (hnonneg : ∀ p ∈ points, 0 ≤ p.ts) :
    Averages points (coarsePoints points) ∧
      ((coarsePoints points).length : Int) ≤
        bucketBound (points.head hne).ts (points.getLast hne).ts := by
  obtain ⟨first, rest, rfl⟩ := List.exists_cons_of_ne_nil hne
  have havg := coarsePoints_averages hsorted (hnonneg first (by simp))
  have hrange (p : Point V) (hp : p ∈ first :: rest) :
      first.ts ≤ p.ts ∧ p.ts ≤ ((first :: rest).getLast hne).ts := by
    constructor
    · rcases List.mem_cons.mp hp with rfl | hp
      · exact le_rfl
      · exact List.rel_of_pairwise_cons hsorted hp
    · exact hsorted.rel_getLast hp
  exact ⟨havg, havg.length_le hrange (hrange first (by simp)).2⟩

theorem coarsePoints_correct_two_minutes :
    Averages [⟨59, 1⟩, ⟨60, 2⟩, ⟨60, 4⟩] (coarsePoints [⟨59, 1⟩, ⟨60, 2⟩, ⟨60, (4 : ℚ)⟩]) ∧
      ((coarsePoints [⟨59, 1⟩, ⟨60, 2⟩, ⟨60, (4 : ℚ)⟩]).length : Int) ≤ bucketBound 59 60 :=
  coarsePoints_correct (by simp) (by simp) (by simp)

end Field

end Tsdb.MinuteAverages
