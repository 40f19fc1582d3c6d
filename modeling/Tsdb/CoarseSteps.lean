import Tsdb.CoarseRuns
import Tsdb.DoneMarker
import Tsdb.Outcomes

namespace Tsdb.CoarseSteps

open CStrings Head Files Registry Service Disk Downsample CoarseFiles Exactness Outcomes Runs

variable {V : Type} [Zero V] [Add V] [Div V] [NatCast V]

/-- One step of the server with all that may come of it: a request, or a round of the downsampling
thread. -/
inductive Step (V : Type) where
  | request (x : Attempt V)
  | round (now : Int) (io : DoneMarker.RoundIO) (metric : Text) (i : Nat)

def coarseRound (now : Int) (io : DoneMarker.RoundIO) (metric : Text) (i : Nat) (s : Store V) :
    Option (Store V) :=
  match hashFindStr metric s with
  | none => some s
  | some m =>
    match m.entry.chunks[i]? with
    | none => some s
    | some chunk =>
      let p := DoneMarker.passRound (now - downsampleAfterSeconds) metric m.dir io
        ⟨s.dirOf (downsampleCoarseDir metric), false, true⟩ chunk
      if p.alive then some (s.setDir (downsampleCoarseDir metric) p.coarseDir) else none

def Step.run (dataDir : Text) (j : Journal V) : Step V → Option (Journal V)
  | .request x => Outcomes.request dataDir j x
  | .round now io metric i =>
    (coarseRound now io metric i j.store).map fun s => ⟨s, j.accepted⟩

/-- Metrics have directories of their own, no file is opened that another chunk needs, a file gives
back what is written to it, and nothing fails in a round that downsamples. -/
def Admits (dataDir : Text) (bits : V → BitVec 64) (j : Journal V) : Step V → Prop
  | .request x => Proper (keepsFlushed dataDir bits) j x
  | .round now io metric i => ∀ m ∈ hashFindStr metric j.store, ∀ chunk ∈ m.entry.chunks[i]?,
    DoneMarker.Due (now - downsampleAfterSeconds) (j.store.dirOf (downsampleCoarseDir metric))
      chunk →
    io = ⟨true, .ok, .ok, true⟩ ∧
      CoarseFresh m (j.store.dirOf (downsampleCoarseDir metric)) chunk ∧
      Exact bits (coarsePoints (chunkPoints m.dir chunk))

instance (cutoff : Int) (coarseDir : Dir V) (chunk : ChunkMetadata) :
    Decidable (DoneMarker.Due cutoff coarseDir chunk) :=
  inferInstanceAs (Decidable (_ ∧ _))

instance (dataDir : Text) (bits : V → BitVec 64) (j : Journal V) :
    ∀ e : Step V, Decidable (Admits dataDir bits j e)
  | .request x => inferInstanceAs (Decidable (Proper (keepsFlushed dataDir bits) j x))
  | .round now io metric i => inferInstanceAs (Decidable
      (∀ m ∈ hashFindStr metric j.store, ∀ chunk ∈ m.entry.chunks[i]?,
        DoneMarker.Due (now - downsampleAfterSeconds)
          (j.store.dirOf (downsampleCoarseDir metric)) chunk →
        io = ⟨true, .ok, .ok, true⟩ ∧
          CoarseFresh m (j.store.dirOf (downsampleCoarseDir metric)) chunk ∧
          Exact bits (coarsePoints (chunkPoints m.dir chunk))))

def Stepping (dataDir : Text) (bits : V → BitVec 64) : Journal V → Prop :=
  Reach (fun j => j = Journal.empty) (Guarded (Admits dataDir bits) (Step.run dataDir))

theorem passRound_alive (cutoff : Int) (metric : Text) (dir coarseDir : Dir V)
    (chunk : ChunkMetadata) :
    (DoneMarker.passRound cutoff metric dir ⟨true, .ok, .ok, true⟩ ⟨coarseDir, false, true⟩
      chunk).alive = true := by
  unfold DoneMarker.passRound
  dsimp only
  rw [if_neg (by decide)]
  split
  · rfl
  split
  · rfl
  cases chunkRead dir chunk.filename with
  | none => rfl
  | some data =>
    dsimp only
    split
    · rfl
    · rename_i hpoints
      obtain ⟨d, hd, _⟩ := @DoneMarker.writeCoarseChunk_spec V _ _ _ _ .ok metric coarseDir.mkdir
        data.points hpoints rfl (by decide)
      simp only [Bool.not_false, Bool.and_self, if_true, hd]

theorem coarseRound_eq {now : Int} {io : DoneMarker.RoundIO} {metric : Text} {i : Nat} {s : Store V}
    (h : ∀ m ∈ hashFindStr metric s, ∀ chunk ∈ m.entry.chunks[i]?,
      DoneMarker.Due (now - downsampleAfterSeconds) (s.dirOf (downsampleCoarseDir metric)) chunk →
      io = ⟨true, .ok, .ok, true⟩) :
    coarseRound now io metric i s = some (downsampleRound now .ok metric i s) := by
  unfold coarseRound downsampleRound
  cases hm : hashFindStr metric s with
  | none => rfl
  | some m =>
    dsimp only
    cases hi : m.entry.chunks[i]? with
    | none => rfl
    | some chunk =>
      dsimp only
      by_cases hdue : DoneMarker.Due (now - downsampleAfterSeconds)
          (s.dirOf (downsampleCoarseDir metric)) chunk
      · rw [h m hm chunk hi hdue, passRound_alive, if_pos rfl,
          DoneMarker.passRound_round _ _ _ (by decide) (by decide) rfl (fun hmade => by cases hmade)]
        rfl
      · have hsame : DoneMarker.passRound (now - downsampleAfterSeconds) metric m.dir io
            ⟨s.dirOf (downsampleCoarseDir metric), false, true⟩ chunk =
              ⟨s.dirOf (downsampleCoarseDir metric), false, true⟩ ∧
            downsampleChunk (now - downsampleAfterSeconds) .ok metric m.dir
              (s.dirOf (downsampleCoarseDir metric)) chunk =
                s.dirOf (downsampleCoarseDir metric) := by
          unfold DoneMarker.passRound downsampleChunk
          dsimp only
          rw [if_neg (by decide)]
          by_cases hold : now - downsampleAfterSeconds ≤ chunk.endTs
          · rw [if_pos hold, if_pos hold]
            exact ⟨rfl, rfl⟩
          · have hid : chunkId chunk.startTs ∈ (s.dirOf (downsampleCoarseDir metric)).done := by
              by_contra hid
              exact hdue ⟨not_le.mp hold, hid⟩
            rw [if_neg hold, if_neg hold, if_pos hid, if_pos hid]
            exact ⟨rfl, rfl⟩
        rw [hsame.1, hsame.2, if_pos rfl]

theorem Stepping.running {dataDir : Text} {bits : V → BitVec 64} {j : Journal V}
    (h : Stepping dataDir bits j) : CoarseRuns.Running dataDir j := by
  apply h.invariant
  · exact fun j hj => .start hj
  · rintro e j j' hj ⟨hadmits, hrun⟩
    cases e with
    | request x =>
      refine .next (.request ⟨x.unset, told x.io⟩ x.metric x.order) hj
        ⟨fun m hm => (hadmits.2 m hm).2.1, ?_⟩
      have he := @request_call V dataDir j x fun m hm => (hadmits.2 m hm).1
      rw [Step.run, he] at hrun
      exact hrun
    | round now io metric i =>
      have he := coarseRound_eq fun m hm chunk hi hdue => (hadmits m hm chunk hi hdue).1
      refine .next (.round now .ok metric i) hj
        ⟨fun m hm chunk hi hold hid => ⟨rfl, (hadmits m hm chunk hi ⟨hold, hid⟩).2.1⟩, ?_⟩
      rw [Step.run, he] at hrun
      exact hrun

end Tsdb.CoarseSteps
