import Tsdb.Folds

namespace Tsdb.SyncedFiles

open Folds

variable {P α β : Type} [DecidableEq P]

/-- A file as programs see it, and what a power failure is sure to leave of it. -/
structure File (α : Type) where
  written : List α
  synced : List α
  deriving DecidableEq, Repr

def File.empty : File α := ⟨[], []⟩

/-- A file that does not exist has nothing in it. -/
abbrev Disk (P α : Type) := P → File α

def Disk.blank : Disk P α := fun _ => File.empty

inductive Op (P α : Type) where
  | openTruncated (path : P)
  | append (path : P) (items : List α)
  | fsync (path : P)
  | remove (path : P)

def Op.path : Op P α → P
  | .openTruncated path => path
  | .append path _ => path
  | .fsync path => path
  | .remove path => path

def Op.apply : Op P α → File α → File α
  | .openTruncated _, _ => File.empty
  | .append _ items, file => ⟨file.written ++ items, file.synced⟩
  | .fsync _, file => ⟨file.written, file.written⟩
  | .remove _, _ => File.empty

def Op.run (disk : Disk P α) (op : Op P α) : Disk P α :=
  Function.update disk op.path (op.apply (disk op.path))

def moments (ops : List (Op P α)) (disk : Disk P α) : List (Disk P α) := ops.scanl Op.run disk

/-- Every one of these items has its own place among those that `read` finds in the synced part of
some file. -/
def Durable (read : P → List α → List β) (disk : Disk P α) (items : List β) : Prop :=
  ∃ paths : List P, paths.Nodup ∧
    items.Subperm (paths.flatMap fun path => read path (disk path).synced)

variable {read : P → List α → List β}

theorem run_ne (disk : Disk P α) {op : Op P α} {path : P} (h : path ≠ op.path) :
    Op.run disk op path = disk path := Function.update_of_ne h ..

theorem foldl_frame {ops : List (Op P α)} {path : P} (h : ∀ op ∈ ops, path ≠ op.path)
    (disk : Disk P α) : ops.foldl Op.run disk path = disk path :=
  foldl_same (g := fun disk : Disk P α => disk path) (fun disk op hop => run_ne disk (h op hop)) disk

omit [DecidableEq P] in
theorem durable_one {disk : Disk P α} {path : P} {items : List β}
    (h : items.Subperm (read path (disk path).synced)) : Durable read disk items :=
  ⟨[path], List.nodup_singleton path, by simpa using h⟩

theorem Durable.only {disk : Disk P α} {items : List β} (h : Durable read disk items) {path : P}
    (hother : ∀ other, other ≠ path → read other (disk other).synced = []) :
    items.Subperm (read path (disk path).synced) := by
  obtain ⟨paths, hnodup, hsub⟩ := h
  apply hsub.trans
  clear hsub
  induction paths with
  | nil => exact List.nil_subperm
  | cons first paths ih =>
    obtain ⟨hfirst, hnodup⟩ := List.nodup_cons.mp hnodup
    rw [List.flatMap_cons]
    by_cases hp : first = path
    · have hnil : (paths.flatMap fun path => read path (disk path).synced) = [] := by
        apply List.flatMap_eq_nil_iff.mpr
        intro other hmem
        apply hother
        rintro rfl
        exact hfirst (hp ▸ hmem)
      rw [hnil, List.append_nil, hp]
    · rw [hother first hp, List.nil_append]
      exact ih hnodup

theorem forall_moments_cons {p : Disk P α → Prop} {op : Op P α} {ops : List (Op P α)}
    {disk : Disk P α} : (∀ d ∈ moments (op :: ops) disk, p d) ↔
      p disk ∧ ∀ d ∈ moments ops (Op.run disk op), p d := by
  rw [moments, List.scanl_cons]
  simp [moments]

theorem forall_moments_nil {p : Disk P α → Prop} {disk : Disk P α} :
    (∀ d ∈ moments ([] : List (Op P α)) disk, p d) ↔ p disk := by
  simp [moments]

theorem moments_frame {ops : List (Op P α)} {path : P} (h : ∀ op ∈ ops, path ≠ op.path)
    {disk : Disk P α} : ∀ d ∈ moments ops disk, d path = disk path := by
  induction ops generalizing disk with
  | nil => exact forall_moments_nil.mpr rfl
  | cons op ops ih =>
    obtain ⟨hop, hops⟩ := List.forall_mem_cons.mp h
    rw [forall_moments_cons]
    refine ⟨rfl, fun d hd => ?_⟩
    rw [ih hops d hd, run_ne disk hop]

theorem logged_synced (disk : Disk P α) (path : P) (items : List α) :
    [Op.append path items, .fsync path].foldl Op.run disk path =
      ⟨(disk path).written ++ items, (disk path).written ++ items⟩ := by
  simp [Op.run, Op.path, Op.apply]

theorem moments_logged {disk : Disk P α} {path : P} {items : List α} {p : List α → Prop}
    (h : p (disk path).synced) (hall : p ((disk path).written ++ items)) :
    ∀ d ∈ moments [.append path items, .fsync path] disk, p (d path).synced := by
  rw [forall_moments_cons, forall_moments_cons, forall_moments_nil]
  refine ⟨h, ?_, ?_⟩
  · simpa [Op.run, Op.path, Op.apply] using h
  · simpa [Op.run, Op.path, Op.apply] using hall

end Tsdb.SyncedFiles
