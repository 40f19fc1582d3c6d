import Tsdb.Lifetime
import Tsdb.Outcomes

namespace Tsdb.Moves

open CStrings Head Files Registry History Service Disk Recovery Shutdown Retention Lifetime Exactness
  Outcomes Runs

variable {V : Type} {dataDir : Text}

/-- How the process ends, seen from one metric: between two requests, inside a `headflush`, or
after the flush that `cleanupRegistry` makes. -/
inductive Ending where
  | idle
  | stopped (point : CrashPoint)
  | cleaned (io : ChunkIO)
  deriving DecidableEq

def Ending.left (dataDir metric : Text) (m : MetricState V) : Ending → Dir V
  | .idle => m.dir
  | .stopped point => crashFlush point dataDir metric m
  | .cleaned io => (flushHead dataDir metric io m).2.dir

/-- One turn of a server with a retention thread, with every outcome of its file operations. -/
inductive Move (V : Type) where
  | request (x : Attempt V)
  | expire (cfg : RetentionConfig) (now : Int) (removes : Text → Nat → Bool)
  | restart (unset : Text → Int) (endings : Text → Ending) (dirs : AList fun _ : Text => Dir V)

def Move.run (dataDir : Text) (s : Store V) : Move V → Option (Store V)
  | .request x => (getMetricFromHashTable x.unset x.metric x.order.isPut s).map fun m =>
      s.set x.metric (orderHead dataDir x.metric x.io m x.order).2
  | .expire cfg now removes => some (runExpiry cfg now removes s)
  | .restart unset _ dirs => some (loadRegistry dataDir unset dirs)

/-- The directory that a start finds under this name is the one that the end left, in some order. -/
def FoundAfter (dataDir : Text) (ending : Ending) (s : Store V) (k : Text) (found : Dir V) : Prop :=
  match hashFindStr k s with
  | some m => Relisted (ending.left dataDir k m) found
  | none => Relisted (s.dirOf k) found

def Possible (dataDir : Text) (s : Store V) : Move V → Prop
  | .request _ => True
  | .expire _ _ _ => True
  | .restart _ endings dirs =>
    ∀ k, FoundAfter dataDir (endings k) s k ((dirs.lookup k).getD Dir.empty)

/-- The head survives its last flush: `fclose` has what it was given, and the file gives it back. -/
def Ending.faithful (bits : V → BitVec 64) (m : MetricState V) : Ending → Prop
  | .idle => True
  | .stopped _ => Exact bits m.entry.head.points
  | .cleaned io => Exact bits m.entry.head.points ∧ Closes io (.flush : Order V) m

/-- Metrics have directories of their own, and what a flush writes is there and reads back. -/
def Faithful (bits : V → BitVec 64) (s : Store V) : Move V → Prop
  | .request x => EntryName x.metric ∧
      ∀ m ∈ getMetricFromHashTable x.unset x.metric x.order.isPut s,
        Closes x.io x.order m ∧ flushesExact bits x.metric (told x.io) x.order m
  | .expire _ _ _ => True
  | .restart _ endings _ =>
    ∀ k m, hashFindStr k s = some m → (endings k).faithful bits m

def Move.turn : Move V → Turn V
  | .request x => .request ⟨x.unset, told x.io⟩ x.metric x.order
  | .expire cfg now removes => .expire cfg now removes
  | .restart unset _ dirs => .restart unset dirs

instance (bits : V → BitVec 64) (s : Store V) (x : Attempt V) :
    Decidable (Faithful bits s (.request x)) :=
  inferInstanceAs (Decidable (EntryName x.metric ∧
    ∀ m ∈ getMetricFromHashTable x.unset x.metric x.order.isPut s,
      Closes x.io x.order m ∧ flushesExact bits x.metric (told x.io) x.order m))

theorem left_leftBy {bits : V → BitVec 64} {metric : Text} {m : MetricState V} {ending : Ending}
    (h : ending.faithful bits m) :
    LeftBy dataDir metric (fun _ => True) m (ending.left dataDir metric m) := by
  cases ending with
  | idle => exact .idle
  | stopped point => exact .stopped point trivial
  | cleaned io =>
    have he : flushHead dataDir metric io m = flushHead dataDir metric (told io).chunk m :=
      orderHead_told h.2
    rw [Ending.left, he]
    exact .cleaned (told io)

theorem possible_turn {bits : V → BitVec 64} {s : Store V} {x : Move V}
    (hpossible : Possible dataDir s x) (h : Faithful bits s x) :
    Lifetime.Possible dataDir s x.turn := by
  cases x with
  | request x => trivial
  | expire cfg now removes => trivial
  | restart unset endings dirs =>
    intro k
    have hfound := hpossible k
    unfold FoundAfter at hfound
    unfold FoundBy
    cases hm : hashFindStr k s with
    | none =>
      rw [hm] at hfound
      exact hfound
    | some m =>
      rw [hm] at hfound
      exact ⟨_, left_leftBy (h k m hm), hfound⟩

theorem run_turn {bits : V → BitVec 64} {s : Store V} {x : Move V} (h : Faithful bits s x) :
    x.run dataDir s = x.turn.run dataDir s := by
  cases x with
  | expire cfg now removes => rfl
  | restart unset endings dirs => rfl
  | request x =>
    obtain ⟨unset, io, metric, order⟩ := x
    unfold Move.run Move.turn Turn.run serveOrder
    cases order with
    | put point =>
      unfold headPut
      cases hm : getMetricFromHashTable unset metric true s with
      | none => simp [Order.isPut, hm]
      | some m =>
        have he := @orderHead_told V dataDir metric io _ m (h.2 m hm).1
        simp only [Order.isPut, hm, he, Option.map_some]
        rfl
    | flush =>
      unfold headFlush
      cases hm : getMetricFromHashTable unset metric false s with
      | none => simp [Order.isPut, hm]
      | some m =>
        have he := @orderHead_told V dataDir metric io _ m (h.2 m hm).1
        simp only [Order.isPut, hm, he, Option.map_some]
        rfl

def Moving (dataDir : Text) (guard : Store V → Move V → Prop) : Store V → Prop :=
  Reach (fun s => s = Store.empty)
    (Guarded (fun s x => Possible dataDir s x ∧ guard s x) (Move.run dataDir))

theorem Moving.living {bits : V → BitVec 64} {guard : Store V → Turn V → Prop} {s : Store V}
    (h : Moving dataDir (fun s x => Faithful bits s x ∧ guard s x.turn) s) :
    Living dataDir guard s := by
  apply h.invariant
  · exact fun s hs => .start hs
  · rintro x s s' hs ⟨⟨hpossible, hfaithful, hguard⟩, hrun⟩
    refine .next x.turn hs ⟨⟨possible_turn hpossible hfaithful, hguard⟩, ?_⟩
    rw [← run_turn hfaithful]
    exact hrun

theorem Moving.requests {guard : Store V → Move V → Prop} {requests : List (Attempt V)}
    {s s' : Store V} (h : Moving dataDir guard s)
    (hallowed : Allowed (fun s x => guard s (.request x)) (fun s x => Move.run dataDir s (.request x))
      requests s)
    (hrun : requests.foldlM (fun s x => Move.run dataDir s (.request x)) s = some s') :
    Moving dataDir guard s' := by
  induction requests generalizing s with
  | nil =>
    obtain rfl := Option.some.inj hrun
    exact h
  | cons x requests ih =>
    rw [List.foldlM_cons] at hrun
    obtain ⟨s1, h1, hrun⟩ := Option.bind_eq_some_iff.mp hrun
    exact ih (.next (.request x) h ⟨⟨trivial, hallowed.1⟩, h1⟩) (hallowed.2 s1 h1) hrun

theorem Moving.expired {guard : Store V → Move V → Prop} {s : Store V} (h : Moving dataDir guard s)
    (cfg : RetentionConfig) (now : Int) (removes : Text → Nat → Bool)
    (hguard : guard s (.expire cfg now removes)) :
    Moving dataDir guard (runExpiry cfg now removes s) :=
  .next (.expire cfg now removes) h ⟨⟨trivial, hguard⟩, rfl⟩

theorem Moving.again {guard : Store V → Move V → Prop} {s : Store V} (h : Moving dataDir guard s)
    (unset : Text → Int) (hguard : guard s (.restart unset (fun _ => .idle) s.dirs)) :
    Moving dataDir guard (loadRegistry dataDir unset s.dirs) := by
  refine .next (.restart unset (fun _ => .idle) s.dirs) h ⟨⟨fun k => ?_, hguard⟩, rfl⟩
  unfold FoundAfter
  cases hf : hashFindStr k s with
  | none => exact .refl _
  | some m =>
    dsimp only [Ending.left]
    rw [find_dir hf]
    exact .refl _

end Tsdb.Moves
