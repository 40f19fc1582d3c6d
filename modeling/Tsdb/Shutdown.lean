import Tsdb.Folds
import Tsdb.Sections

namespace Tsdb.Shutdown

open Folds CStrings Head Files Wal Registry Sections

variable {V : Type} {dataDir : Text} {io : Text → FlushIO}

/-- One round of the loop of `cleanupRegistry`: a head with points is flushed, the entry goes. -/
def cleanupMetric (dataDir : Text) (io : Text → FlushIO) (s : Store V) (metric : Text) : Store V :=
  match hashFindStr metric s with
  | none => s
  | some m =>
    let s := if 0 < m.entry.head.size
      then s.set metric (flushSection dataDir metric (io metric) m).2 else s
    ⟨s.registry.erase metric, s.dirs⟩

def cleanupRegistry (dataDir : Text) (io : Text → FlushIO) (s : Store V) : Store V :=
  s.registry.keys.foldl (cleanupMetric dataDir io) s

theorem cleanupMetric_ne (s : Store V) {k metric : Text} (h : k ≠ metric) :
    hashFindStr k (cleanupMetric dataDir io s metric) = hashFindStr k s ∧
      (cleanupMetric dataDir io s metric).dirOf k = s.dirOf k := by
  unfold cleanupMetric
  cases hashFindStr metric s with
  | none => exact ⟨rfl, rfl⟩
  | some m =>
    dsimp only
    split
    · refine ⟨?_, dirOf_set_ne s h _⟩
      rw [← find_set_ne s h (flushSection dataDir metric (io metric) m).2]
      unfold hashFindStr
      rw [AList.lookup_erase_ne h]
      rfl
    · refine ⟨?_, rfl⟩
      unfold hashFindStr
      rw [AList.lookup_erase_ne h]
      rfl

theorem cleanupMetric_self {s : Store V} {metric : Text} {m : MetricState V}
    (h : hashFindStr metric s = some m) : (cleanupMetric dataDir io s metric).dirOf metric =
      (flushSection dataDir metric (io metric) m).2.dir := by
  unfold cleanupMetric
  rw [h]
  dsimp only
  split
  · exact dirOf_set s metric _
  · rename_i hsize
    have hnil : m.entry.head.points = [] := by
      by_contra hne
      exact hsize (List.length_pos_iff.mpr hne)
    rcases flushSection_cases dataDir metric (io metric) m with ⟨_, he⟩ | ⟨first, hf, _⟩
    · rw [he]
      exact (find_dir h).symm
    · rw [hnil] at hf
      cases hf

theorem cleanup_dir {s : Store V} {k : Text} {m : MetricState V} (h : hashFindStr k s = some m) :
    (cleanupRegistry dataDir io s).dirOf k = (flushSection dataDir k (io k) m).2.dir := by
  have hkey : k ∈ s.registry.keys := AList.mem_keys.mp (mem_of_find h)
  obtain ⟨s', hs', hend⟩ := foldl_once (f := cleanupMetric dataDir io)
    (g := fun s => (hashFindStr k s, s.dirOf k)) s.registry.keys_nodup hkey
    (fun s metric _ hne => Prod.ext_iff.mpr (cleanupMetric_ne s hne.symm)) s
  obtain ⟨hfind, _⟩ := Prod.mk.inj hs'
  exact (congrArg Prod.snd hend).trans (cleanupMetric_self (hfind.trans h))

theorem cleanup_dir_none {s : Store V} {k : Text} (h : hashFindStr k s = none) :
    (cleanupRegistry dataDir io s).dirOf k = s.dirOf k := by
  apply foldl_same (g := fun s : Store V => s.dirOf k)
  intro s' metric hmem
  apply (cleanupMetric_ne s' _).2
  rintro rfl
  exact mem_registry.mp (AList.mem_keys.mpr hmem) h

/-- One directory as two calls of `readdir` may list it, its chunk files in any order. -/
structure Relisted (dir dir' : Dir V) : Prop where
  present : dir.present = dir'.present
  wal : dir.wal = dir'.wal
  chunks : dir.chunks.entries.Perm dir'.chunks.entries

theorem Relisted.refl (dir : Dir V) : Relisted dir dir := ⟨rfl, rfl, .refl _⟩

theorem Relisted.read {dir dir' : Dir V} (h : Relisted dir dir') (name : Text) :
    chunkRead dir name = chunkRead dir' name := by
  unfold chunkRead
  rw [AList.perm_lookup h.chunks]

end Tsdb.Shutdown
