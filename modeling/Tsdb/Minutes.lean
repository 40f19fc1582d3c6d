import Tsdb.Downsample

namespace Tsdb.Minutes

open Head Downsample

variable {V : Type}

/-- The stamp of a point's coarse point, in a chunk whose first minute starts at `start`. -/
def stamp (start : Int) (p : Point V) : Int := max start (p.ts / 60 * 60)

theorem stamp_mono (start : Int) {p q : Point V} (h : p.ts ≤ q.ts) :
    stamp start p ≤ stamp start q := by
  unfold stamp
  omega

section Arithmetic

variable [Zero V] [Add V] [Div V] [NatCast V]

def sumValues (points : List (Point V)) : V := points.foldl (fun sum p => sum + p.value) 0

def average (points : List (Point V)) : V := sumValues points / (points.length : V)

abbrev Minute (V : Type) := Int × List (Point V)

def minutePoint (x : Minute V) : Point V := ⟨x.1, average x.2⟩

/-- The points of a chunk divided into minutes, in order, each with all its points. -/
structure Divides (start : Int) (points : List (Point V)) (minutes : List (Minute V)) : Prop where
  flatten : minutes.flatMap Prod.snd = points
  nonempty : ∀ x ∈ minutes, x.2 ≠ []
  stamped : ∀ x ∈ minutes, ∀ p ∈ x.2, stamp start p = x.1
  increasing : minutes.Pairwise (fun x y => x.1 < y.1)

/-- The loop of `write_coarse_chunk` after some points: the last minute is still open. -/
structure Open (start : Int) (points : List (Point V)) (minutes : List (Minute V))
    (last : List (Point V)) (c : Coarse V) : Prop where
  divides : Divides start points (minutes ++ [(c.bucketStart, last)])
  out : c.out = minutes.map minutePoint
  sum : c.sum = sumValues last
  count : c.count = last.length
  aligned : c.bucketStart % 60 = 0
  after : start ≤ c.bucketStart

omit [Add V] in
theorem emit_emit (c : Coarse V) : c.emit.emit = c.emit := by
  unfold Coarse.emit
  split <;> simp_all

omit [Add V] in
/-- The `while` loop stops at the minute of the next point, with completed ones written out. -/
theorem advance_eq (ts : Int) (fuel : Nat) (c : Coarse V) (haligned : c.bucketStart % 60 = 0)
    (hfuel : (ts - c.bucketStart).toNat ≤ fuel) :
    c.advance ts fuel = if ts < c.bucketStart + 60 then c
      else { c.emit with bucketStart := ts / 60 * 60 } := by
  induction fuel generalizing c with
  | zero =>
    rw [if_pos (by omega)]
    rfl
  | succ fuel ih =>
    unfold Coarse.advance coarseBucketSeconds
    by_cases hts : ts < c.bucketStart + 60
    · rw [if_neg (by omega), if_pos hts]
    · rw [if_pos (by omega), if_neg hts, ih _ (by simp; omega) (by simp; omega)]
      have hemit : ({ c.emit with bucketStart := c.bucketStart + 60 } : Coarse V).emit =
          { c.emit with bucketStart := c.bucketStart + 60 } := by
        have := emit_emit c
        unfold Coarse.emit at this ⊢
        split <;> simp_all
      rw [hemit]
      split
      · have : ts / 60 * 60 = c.bucketStart + 60 := by
          dsimp only at *
          omega
        rw [this]
      · rfl

omit [Div V] [NatCast V] in
theorem sumValues_concat (points : List (Point V)) (p : Point V) :
    sumValues (points ++ [p]) = sumValues points + p.value := by
  simp [sumValues]

omit [Zero V] [Add V] [Div V] [NatCast V] in
theorem Divides.extend {start : Int} {points last : List (Point V)} {minutes : List (Minute V)}
    {bucketStart : Int} (h : Divides start points (minutes ++ [(bucketStart, last)])) {p : Point V}
    (hp : stamp start p = bucketStart) :
    Divides start (points ++ [p]) (minutes ++ [(bucketStart, last ++ [p])]) := by
  have hinc := List.pairwise_append.mp h.increasing
  refine ⟨?_, fun x hx => ?_, fun x hx q hq => ?_, ?_⟩
  · rw [← h.flatten]
    simp
  · rcases List.mem_append.mp hx with hx | hx
    · exact h.nonempty x (List.mem_append_left _ hx)
    · rw [List.mem_singleton.mp hx]
      simp
  · rcases List.mem_append.mp hx with hx | hx
    · exact h.stamped x (List.mem_append_left _ hx) q hq
    · rw [List.mem_singleton.mp hx] at hq ⊢
      rcases List.mem_append.mp hq with hq | hq
      · exact h.stamped (bucketStart, last) (by simp) q hq
      · rw [List.mem_singleton.mp hq]
        exact hp
  · exact List.pairwise_append.mpr ⟨hinc.1, List.pairwise_singleton _ _, fun x hx y hy => by
      rw [List.mem_singleton.mp hy]
      exact hinc.2.2 x hx (bucketStart, last) (by simp)⟩

omit [Zero V] [Add V] [Div V] [NatCast V] in
theorem Divides.next {start : Int} {points last : List (Point V)} {minutes : List (Minute V)}
    {bucketStart : Int} (h : Divides start points (minutes ++ [(bucketStart, last)])) {p : Point V}
    (hp : bucketStart < stamp start p) :
    Divides start (points ++ [p])
      (minutes ++ [(bucketStart, last)] ++ [(stamp start p, [p])]) := by
  have hinc := List.pairwise_append.mp h.increasing
  refine ⟨?_, fun x hx => ?_, fun x hx q hq => ?_, ?_⟩
  · rw [List.flatMap_append, h.flatten]
    simp
  · rcases List.mem_append.mp hx with hx | hx
    · exact h.nonempty x hx
    · rw [List.mem_singleton.mp hx]
      simp
  · rcases List.mem_append.mp hx with hx | hx
    · exact h.stamped x hx q hq
    · rw [List.mem_singleton.mp hx] at hq ⊢
      rw [List.mem_singleton.mp hq]
  · refine List.pairwise_append.mpr ⟨h.increasing, List.pairwise_singleton _ _, fun x hx y hy => ?_⟩
    rw [List.mem_singleton.mp hy]
    rcases List.mem_append.mp hx with hx | hx
    · exact (hinc.2.2 x hx (bucketStart, last) (by simp)).trans hp
    · rw [List.mem_singleton.mp hx]
      exact hp

theorem Open.nonempty {start : Int} {points last : List (Point V)} {minutes : List (Minute V)}
    {c : Coarse V} (h : Open start points minutes last c) : last ≠ [] :=
  h.divides.nonempty (c.bucketStart, last) (by simp)

theorem Open.counted {start : Int} {points last : List (Point V)} {minutes : List (Minute V)}
    {c : Coarse V} (h : Open start points minutes last c) : 0 < c.count := by
  rw [h.count]
  exact List.length_pos_iff.mpr h.nonempty

theorem Open.emit_out {start : Int} {points last : List (Point V)} {minutes : List (Minute V)}
    {c : Coarse V} (h : Open start points minutes last c) :
    c.emit.out = (minutes ++ [(c.bucketStart, last)]).map minutePoint := by
  rw [Coarse.emit, if_pos h.counted, List.map_append, ← h.out]
  simp [minutePoint, average, h.sum, h.count]

theorem open_add {start : Int} {points last : List (Point V)} {minutes : List (Minute V)}
    {c : Coarse V} (h : Open start points minutes last c) {p : Point V}
    (hp : ∀ q ∈ points, q.ts ≤ p.ts) :
    ∃ minutes' last', Open start (points ++ [p]) minutes' last' (c.add p) := by
  have haligned := h.aligned
  have hafter := h.after
  unfold Coarse.add
  rw [advance_eq p.ts _ c h.aligned le_rfl]
  by_cases hts : p.ts < c.bucketStart + 60
  · obtain ⟨q, hq⟩ := List.exists_mem_of_ne_nil last h.nonempty
    have hqp : q.ts ≤ p.ts := hp q (by rw [← h.divides.flatten]; simp [hq])
    have hlow := stamp_mono start hqp
    rw [h.divides.stamped (c.bucketStart, last) (by simp) q hq] at hlow
    have hstamp : stamp start p = c.bucketStart := by
      unfold stamp at hlow ⊢
      dsimp only at hlow
      omega
    rw [if_pos hts]
    exact ⟨minutes, last ++ [p], h.divides.extend hstamp, h.out,
      by rw [sumValues_concat, ← h.sum], by rw [List.length_append, ← h.count]; rfl,
      haligned, hafter⟩
  · have hstamp : stamp start p = p.ts / 60 * 60 := by
      unfold stamp
      omega
    have hout := h.emit_out
    rw [Coarse.emit, if_pos h.counted] at hout
    rw [if_neg hts, Coarse.emit, if_pos h.counted]
    refine ⟨minutes ++ [(c.bucketStart, last)], [p], ?_, hout, by simp [sumValues], rfl, ?_, ?_⟩
    · rw [← hstamp]
      exact h.divides.next (by omega)
    · dsimp only
      omega
    · dsimp only
      omega

theorem minuteStart_spec (ts : Int) :
    minuteStart ts % 60 = 0 ∧ ts < minuteStart ts + 60 ∧ ts / 60 * 60 ≤ minuteStart ts ∧
      (0 ≤ ts → minuteStart ts = ts / 60 * 60) := by
  unfold minuteStart coarseBucketSeconds
  rcases Int.le_total 0 ts with h | h
  · rw [Int.tdiv_eq_ediv_of_nonneg h]
    omega
  · have hneg := Int.neg_tdiv (-ts) 60
    have hdiv : (-ts).tdiv 60 = -ts / 60 := Int.tdiv_eq_ediv_of_nonneg (by omega)
    rw [neg_neg] at hneg
    rw [hneg, hdiv]
    omega

theorem open_first (p : Point V) :
    Open (minuteStart p.ts) [p] [] [p]
      (Coarse.add ⟨[], minuteStart p.ts, 0, 0⟩ p) := by
  obtain ⟨haligned, hlt, hle, _⟩ := minuteStart_spec p.ts
  unfold Coarse.add
  rw [advance_eq p.ts _ _ haligned le_rfl, if_pos hlt]
  refine ⟨⟨by simp, by simp, fun x hx q hq => ?_, by simp⟩, rfl, rfl, rfl, haligned, le_rfl⟩
  rw [List.nil_append, List.mem_singleton] at hx
  rw [hx, List.mem_singleton] at hq
  rw [hx, hq]
  exact max_eq_left hle

theorem coarsePoints_divides {first : Point V} {rest : List (Point V)}
    (hsorted : (first :: rest).Pairwise (fun p q => p.ts ≤ q.ts)) :
    ∃ minutes, Divides (minuteStart first.ts) (first :: rest) minutes ∧
      coarsePoints (first :: rest) = minutes.map minutePoint := by
  have hloop (done rest : List (Point V)) (minutes : List (Minute V)) (last : List (Point V))
      (c : Coarse V) (h : Open (minuteStart first.ts) done minutes last c)
      (hs : (done ++ rest).Pairwise (fun p q => p.ts ≤ q.ts)) :
      ∃ minutes' last', Open (minuteStart first.ts) (done ++ rest) minutes' last'
        (rest.foldl Coarse.add c) := by
    induction rest generalizing done minutes last c with
    | nil => exact ⟨minutes, last, by simpa using h⟩
    | cons p rest ih =>
      obtain ⟨minutes', last', h'⟩ := open_add h fun q hq =>
        (List.pairwise_append.mp hs).2.2 q hq p (by simp)
      have := ih (done ++ [p]) minutes' last' (c.add p) h' (by simpa using hs)
      simpa using this
  obtain ⟨minutes, last, h⟩ :=
    hloop [first] rest [] [first] _ (open_first first) (by simpa using hsorted)
  exact ⟨_, h.divides, h.emit_out⟩

/-- The first coarse point stands at the minute the chunk starts in. -/
theorem coarsePoints_head {first : Point V} {rest : List (Point V)}
    (hsorted : (first :: rest).Pairwise (fun p q => p.ts ≤ q.ts)) :
    ∃ p ∈ (coarsePoints (first :: rest)).head?, p.ts = minuteStart first.ts := by
  obtain ⟨minutes, hdiv, hout⟩ := coarsePoints_divides hsorted
  cases minutes with
  | nil => exact absurd hdiv.flatten (by simp)
  | cons x minutes =>
    rw [hout]
    refine ⟨minutePoint x, rfl, ?_⟩
    obtain ⟨p, ps, hp⟩ := List.exists_cons_of_ne_nil (hdiv.nonempty x (by simp))
    have hflat := hdiv.flatten
    rw [List.flatMap_cons, hp, List.cons_append, List.cons_eq_cons] at hflat
    rw [minutePoint, ← hdiv.stamped x (by simp) p (by simp [hp]), hflat.1]
    exact max_eq_left (minuteStart_spec first.ts).2.2.1

end Arithmetic

end Tsdb.Minutes
