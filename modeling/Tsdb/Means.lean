import Mathlib

namespace Tsdb.Means

section Field

variable {K : Type} [Field K]

def mean (values : List K) : K := values.sum / (values.length : K)

theorem mean_singleton (x : K) : mean [x] = x := by simp [mean]

theorem mean_perm {xs ys : List K} (h : xs.Perm ys) : mean xs = mean ys := by
  rw [mean, mean, h.sum_eq, h.length_eq]

theorem map_mean_singletons {groups : List (List K)} (h : ∀ g ∈ groups, g.length = 1) :
    groups.map mean = groups.flatten := by
  induction groups with
  | nil => rfl
  | cons g groups ih =>
    obtain ⟨x, rfl⟩ := List.length_eq_one_iff.mp (h g (by simp))
    rw [List.map_cons, List.flatten_cons, mean_singleton,
      ih fun g hg => h g (List.mem_cons_of_mem _ hg), List.singleton_append]

omit [Field K] in
theorem length_flatten_uniform {groups : List (List K)} {n : Nat} (h : ∀ g ∈ groups, g.length = n) :
    groups.flatten.length = groups.length * n := by
  rw [List.length_flatten, List.map_congr_left h, List.map_const', List.sum_replicate, smul_eq_mul]

theorem sum_means {groups : List (List K)} {n : Nat} (h : ∀ g ∈ groups, g.length = n) :
    (groups.map mean).sum = groups.flatten.sum / (n : K) := by
  induction groups with
  | nil => simp
  | cons g groups ih =>
    rw [List.map_cons, List.sum_cons, ih fun g hg => h g (List.mem_cons_of_mem _ hg), mean,
      h g (by simp), List.flatten_cons, List.sum_append, add_div]

theorem mean_means {groups : List (List K)} {n : Nat} (h : ∀ g ∈ groups, g.length = n) :
    mean (groups.map mean) = mean groups.flatten := by
  rw [mean, mean, sum_means h, List.length_map, length_flatten_uniform h, Nat.cast_mul, div_div,
    mul_comm]

end Field

section Order

variable {K : Type} [Field K] [LinearOrder K] [IsStrictOrderedRing K]

theorem le_mean {values : List K} (hne : values ≠ []) {a : K} (h : ∀ x ∈ values, a ≤ x) :
    a ≤ mean values := by
  have hlen : (0 : K) < values.length := by
    exact_mod_cast List.length_pos_iff.mpr hne
  rw [mean, le_div_iff₀ hlen, mul_comm, ← nsmul_eq_mul]
  exact List.card_nsmul_le_sum values a h

theorem mean_le {values : List K} (hne : values ≠ []) {a : K} (h : ∀ x ∈ values, x ≤ a) :
    mean values ≤ a := by
  have hlen : (0 : K) < values.length := by
    exact_mod_cast List.length_pos_iff.mpr hne
  rw [mean, div_le_iff₀ hlen, mul_comm, ← nsmul_eq_mul]
  exact List.sum_le_card_nsmul values a h

theorem mean_const {values : List K} (hne : values ≠ []) {a : K} (h : ∀ x ∈ values, x = a) :
    mean values = a :=
  le_antisymm (mean_le hne fun x hx => (h x hx).le) (le_mean hne fun x hx => (h x hx).ge)

theorem mem_means {groups : List (List K)} {rest : List K} {a : K} (hne : ∀ g ∈ groups, g ≠ [])
    (hwhole : a ∈ rest ∨ ∃ g ∈ groups, ∀ x ∈ g, x = a) : a ∈ groups.map mean ++ rest := by
  rcases hwhole with ha | ⟨g, hg, ha⟩
  · exact List.mem_append_right _ ha
  · exact List.mem_append_left _ (List.mem_map.mpr ⟨g, hg, mean_const (hne g hg) ha⟩)

theorem isLeast_means {groups : List (List K)} {rest : List K} {a : K}
    (hne : ∀ g ∈ groups, g ≠ []) (h : IsLeast {x | x ∈ groups.flatten ++ rest} a)
    (hwhole : a ∈ rest ∨ ∃ g ∈ groups, ∀ x ∈ g, x = a) :
    IsLeast {x | x ∈ groups.map mean ++ rest} a := by
  refine ⟨mem_means hne hwhole, fun x hx => ?_⟩
  obtain hx | hx := List.mem_append.mp hx
  · obtain ⟨g, hg, rfl⟩ := List.mem_map.mp hx
    refine le_mean (hne g hg) fun y hy => h.2 (List.mem_append_left _ ?_)
    exact List.mem_flatten.mpr ⟨g, hg, hy⟩
  · exact h.2 (List.mem_append_right _ hx)

theorem isGreatest_means {groups : List (List K)} {rest : List K} {a : K}
    (hne : ∀ g ∈ groups, g ≠ []) (h : IsGreatest {x | x ∈ groups.flatten ++ rest} a)
    (hwhole : a ∈ rest ∨ ∃ g ∈ groups, ∀ x ∈ g, x = a) :
    IsGreatest {x | x ∈ groups.map mean ++ rest} a := by
  refine ⟨mem_means hne hwhole, fun x hx => ?_⟩
  obtain hx | hx := List.mem_append.mp hx
  · obtain ⟨g, hg, rfl⟩ := List.mem_map.mp hx
    refine mean_le (hne g hg) fun y hy => h.2 (List.mem_append_left _ ?_)
    exact List.mem_flatten.mpr ⟨g, hg, hy⟩
  · exact h.2 (List.mem_append_right _ hx)

end Order

end Tsdb.Means
