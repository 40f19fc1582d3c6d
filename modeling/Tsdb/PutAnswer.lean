import Tsdb.Server
import Tsdb.Service

namespace Tsdb.PutAnswer

open CStrings Head Files Registry Sections History Service Server

variable {V : Type}

def FlushSucceeds (dataDir metric : Text) (io : FlushIO) (m : MetricState V) : Prop :=
  io = .ok ∧ ∀ first ∈ m.entry.head.points.head?, flushName dataDir metric first ≠ []

instance (dataDir metric : Text) (io : FlushIO) (m : MetricState V) :
    Decidable (FlushSucceeds dataDir metric io m) :=
  inferInstanceAs (Decidable (_ ∧ ∀ first ∈ m.entry.head.points.head?, _))

theorem flushSection_empties {dataDir metric : Text} {io : FlushIO} {m : MetricState V}
    (h : FlushSucceeds dataDir metric io m) :
    (flushSection dataDir metric io m).2.entry.head.points = [] := by
  rcases flushSection_cases dataDir metric io m with
    ⟨hnil, he⟩ | ⟨first, hf, ⟨hfail, _⟩ | ⟨_, _, he⟩⟩
  · rw [he]
    exact hnil
  · rcases hfail with hio | hname
    · exact absurd h.1 hio
    · exact absurd hname (h.2 first hf)
  · rw [he]
    rfl

theorem flushSection_keeps {dataDir metric : Text} {io : FlushIO} {m : MetricState V}
    (h : ¬ FlushSucceeds dataDir metric io m) :
    (flushSection dataDir metric io m).2.entry = m.entry := by
  rcases flushSection_cases dataDir metric io m with
    ⟨_, he⟩ | ⟨first, hf, ⟨_, dir, _, he⟩ | ⟨hio, hname, he⟩⟩
  · rw [he]
  · rw [he]
  · refine absurd ⟨hio, fun p hp => ?_⟩ h
    rwa [← Option.mem_unique hf hp]

theorem putSection_true_iff (point : Point V) (m : MetricState V) :
    (putSection point m).1 = true ↔ Accepts m.entry.head point := by
  rcases putSection_cases point m with ⟨hacc, he⟩ | ⟨hrej, he⟩
  · rw [he]
    exact iff_of_true rfl hacc
  · rw [he]
    exact iff_of_false Bool.false_ne_true hrej

/-- The point is stored at once, or after the flush that a full head calls for. -/
def Stores (dataDir metric : Text) (io : FlushIO) (point : Point V) (m : MetricState V) : Prop :=
  Accepts m.entry.head point ∨
    headCapacity ≤ m.entry.head.size ∧ FlushSucceeds dataDir metric io m

theorem putLocked_true_iff (dataDir metric : Text) (io : FlushIO) (point : Point V)
    (m : MetricState V) :
    (putLocked dataDir metric io point m).1 = true ↔ Stores dataDir metric io point m := by
  rw [putLocked_eq, Stores]
  by_cases hfull : headCapacity ≤ m.entry.head.size
  · have hrej : ¬ Accepts m.entry.head point := fun hacc => absurd hacc.2 (Nat.not_lt.mpr hfull)
    rw [if_pos hfull, putSection_true_iff, or_iff_right hrej, and_iff_right hfull]
    by_cases hs : FlushSucceeds dataDir metric io m
    · refine iff_of_true ?_ hs
      have hnil := flushSection_empties hs
      simp [Accepts, HeadBlock.size, hnil, headCapacity]
    · refine iff_of_false ?_ hs
      rw [flushSection_keeps hs]
      exact hrej
  · rw [if_neg hfull, putSection_true_iff]
    exact (or_iff_left fun h => hfull h.1).symm

theorem handlePut_eq {dataDir : Text} {env : Env} {request : Request V} {s : Store V}
    {m : MetricState V} (hm : getMetricFromHashTable env.unset request.metric true s = some m) :
    handlePut dataDir env request s =
      let out := putLocked dataDir request.metric env.io ⟨request.timestamp, request.value⟩ m
      some (out.1, s.set request.metric out.2) := by
  rw [handlePut, headPut, hm]

variable [Zero V] [Add V] [Div V] [NatCast V] [LT V] [DecidableLT V]

/-- The answer to a `PUT` is always the success reply, so it is truthful exactly when the store
takes the point: its head has room and nothing newer, or the flush of a full head succeeds. -/
theorem put_truthful_iff (fmts : Formats V) (registryDir dataDir : Text) (env : Env)
    (request : Request V) (hput : request.type = .put) (s : Store V) :
    ∃ m out, getMetricFromHashTable env.unset request.metric true s = some m ∧
      processRequest fmts registryDir dataDir env request s = some out ∧
      ((reply out.1 = "ok".toList → ∃ s', handlePut dataDir env request s = some (true, s')) ↔
        Stores dataDir request.metric env.io ⟨request.timestamp, request.value⟩ m) := by
  obtain ⟨m, hm⟩ : ∃ m, getMetricFromHashTable env.unset request.metric true s = some m := by
    unfold getMetricFromHashTable
    split
    · exact ⟨_, rfl⟩
    · exact ⟨_, if_pos rfl⟩
  have hput' := @handlePut_eq V dataDir env request s m hm
  refine ⟨m, (⟨true, none⟩, s.set request.metric (putLocked dataDir request.metric env.io
    ⟨request.timestamp, request.value⟩ m).2), hm, ?_, ?_⟩
  · rw [processRequest, hput]
    simp only [hput', Option.map_some]
  · rw [← putLocked_true_iff, hput']
    simp only [Option.some.injEq, Prod.mk.injEq, exists_and_left]
    exact ⟨fun h => (h rfl).1, fun h _ => ⟨h, _, rfl⟩⟩

theorem put_truthful_iff_first_point :
    ∃ out, processRequest ⟨decimal, decimal⟩ ['d'] ['d'] ⟨7, .ok⟩
        (⟨.put, ['m'], 5, 1, 0, 0, 0, []⟩ : Request Nat) Store.empty = some out ∧
      (reply out.1 = "ok".toList → ∃ s', handlePut ['d'] ⟨7, .ok⟩
        (⟨.put, ['m'], 5, 1, 0, 0, 0, []⟩ : Request Nat) Store.empty = some (true, s')) := by
  obtain ⟨m, out, hm, hout, hiff⟩ := put_truthful_iff ⟨decimal, decimal⟩ ['d'] ['d'] ⟨7, .ok⟩
    (⟨.put, ['m'], 5, 1, 0, 0, 0, []⟩ : Request Nat) rfl Store.empty
  obtain rfl := Option.some.inj hm
  exact ⟨out, hout, hiff.mpr (.inl ⟨fun h => absurd h (by decide), by decide⟩)⟩

/-- A point older than the head's last one is dropped and still answered with `ok`. -/
theorem put_answers_ok_for_stale_point : ¬ ∀ (fmts : Formats Nat) (registryDir dataDir : Text)
    (j : Journal Nat) (env : Env) (request : Request Nat), Serving dataDir Guard.all j →
    request.type = .put → ∀ out ∈ processRequest fmts registryDir dataDir env request j.store,
    reply out.1 = "ok".toList → ∃ s', handlePut dataDir env request j.store = some (true, s') := by
  intro h
  obtain ⟨j, hj, hp⟩ := Option.map_eq_some_iff.mp (show
      (([(⟨7, .ok⟩, ['m'], .put ⟨5, 1⟩)] : List (Call Nat)).foldlM (call ['d'])
        Journal.empty).map (fun j : Journal Nat =>
      ((handlePut ['d'] ⟨7, .ok⟩ ⟨.put, ['m'], 3, 2, 0, 0, 0, []⟩ j.store).map Prod.fst)) =
      some (some false) by decide)
  obtain ⟨⟨res, s'⟩, hres, rfl⟩ := Option.map_eq_some_iff.mp hp
  have hreach : Serving ['d'] Guard.all j :=
    .run (.start rfl) _ (Runs.allowed_of_forall admits_all _ _) hj
  obtain ⟨s'', hs''⟩ := h ⟨decimal, decimal⟩ ['d'] ['d'] j ⟨7, .ok⟩
    ⟨.put, ['m'], 3, 2, 0, 0, 0, []⟩ hreach rfl (⟨true, none⟩, s')
    (by simp [processRequest, hres]) rfl
  rw [hres] at hs''
  cases hs''

end Tsdb.PutAnswer
