import Tsdb.CoarseDirs

namespace Tsdb.Phases

open CStrings Head Files Registry Downsample CoarseDirs

variable {V : Type}

/-- What the downsampling thread has at hand while it does not hold `registry_lock`: the chunk it
chose, and its points once they have been read. -/
structure Job (V : Type) where
  metric : Text
  chunk : ChunkMetadata
  points : Option (List (Point V))

/-- The part of a round of `downsample_metric` that holds the lock. -/
def chooseChunk (now : Int) (metric : Text) (i : Nat) (s : Store V) : Store V × Option (Job V) :=
  match hashFindStr metric s with
  | none => (s, none)
  | some m =>
    match m.entry.chunks[i]? with
    | none => (s, none)
    | some chunk =>
      let coarseDir := s.dirOf (downsampleCoarseDir metric)
      if now - downsampleAfterSeconds ≤ chunk.endTs then (s, none)
      else if chunkId chunk.startTs ∈ coarseDir.done then (s, none)
      else (s.setDir (downsampleCoarseDir metric) coarseDir.mkdir, some ⟨metric, chunk, none⟩)

def decompressAll (s : Store V) (job : Job V) : Option (Job V) :=
  match chunkRead (s.dirOf job.metric) job.chunk.filename with
  | none => none
  | some data => if data.points = [] then none else some { job with points := some data.points }

section Arithmetic

variable [Zero V] [Add V] [Div V] [NatCast V]

/-- `write_coarse_chunk` and `create_marker`; `marks` is whether the latter could open its file. -/
def finishJob (io : FlushIO) (marks : Bool) (s : Store V) (job : Job V) : Store V :=
  match job.points with
  | none => s
  | some points =>
    let coarseDir :=
      writeCoarseChunk io job.metric (s.dirOf (downsampleCoarseDir job.metric)) points
    s.setDir (downsampleCoarseDir job.metric)
      (if marks then createMarker coarseDir (chunkId job.chunk.startTs) else coarseDir)

def phases (now : Int) (io : FlushIO) (metric : Text) (i : Nat) (s : Store V) : Store V :=
  match chooseChunk now metric i s with
  | (s, none) => s
  | (s, some job) =>
    match decompressAll s job with
    | none => s
    | some job => finishJob io true s job

theorem phases_round (now : Int) (io : FlushIO) (metric : Text) (i : Nat) (s : Store V) :
    (phases now io metric i s).registry = (downsampleRound now io metric i s).registry ∧
      ∀ k, (phases now io metric i s).dirOf k = (downsampleRound now io metric i s).dirOf k := by
  have hsame (k : Text) : s.dirOf k =
      (s.setDir (downsampleCoarseDir metric) (s.dirOf (downsampleCoarseDir metric))).dirOf k :=
    (dirOf_setDir_same s _ k).symm
  unfold phases chooseChunk downsampleRound
  cases hm : hashFindStr metric s with
  | none => exact ⟨rfl, fun _ => rfl⟩
  | some m =>
    dsimp only
    cases m.entry.chunks[i]? with
    | none => exact ⟨rfl, fun _ => rfl⟩
    | some chunk =>
      dsimp only
      unfold downsampleChunk
      by_cases hnew : now - downsampleAfterSeconds ≤ chunk.endTs
      · rw [if_pos hnew, if_pos hnew]
        exact ⟨rfl, hsame⟩
      rw [if_neg hnew, if_neg hnew]
      by_cases hdone : chunkId chunk.startTs ∈ (s.dirOf (downsampleCoarseDir metric)).done
      · rw [if_pos hdone, if_pos hdone]
        exact ⟨rfl, hsame⟩
      rw [if_neg hdone, if_neg hdone]
      have hraw : (s.setDir (downsampleCoarseDir metric)
          (s.dirOf (downsampleCoarseDir metric)).mkdir).dirOf metric = m.dir := by
        rw [dirOf_setDir_ne s (coarseDir_ne metric).symm, find_dir hm]
      dsimp only
      rw [decompressAll, hraw]
      cases hread : chunkRead m.dir chunk.filename with
      | none => exact ⟨rfl, fun _ => rfl⟩
      | some data =>
        dsimp only
        by_cases hpoints : data.points = []
        · rw [if_pos hpoints, if_pos hpoints]
          exact ⟨rfl, fun _ => rfl⟩
        · rw [if_neg hpoints, if_neg hpoints]
          refine ⟨rfl, fun k => ?_⟩
          unfold finishJob
          dsimp only
          rw [dirOf_setDir]
          by_cases hk : k = downsampleCoarseDir metric
          · rw [hk, dirOf_setDir, dirOf_setDir, if_pos rfl]
          · rw [dirOf_setDir_ne _ hk, dirOf_setDir_ne _ hk, dirOf_setDir_ne _ hk]

end Arithmetic

end Tsdb.Phases
