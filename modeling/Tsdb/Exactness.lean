import Tsdb.ChunkLossless
import Tsdb.Disk

namespace Tsdb.Exactness

open CStrings Head Files Registry Service Disk ChunkLossless

variable {V : Type} (bits : V → BitVec 64)

/-- The points that a chunk file gives back as they are: the gaps fit the fields of the encoder,
and the bit patterns of the values end in four zeros. -/
def Exact (points : List (Point V)) : Prop :=
  FitsFields (points.map fun p => BitVec.ofInt 64 p.ts) ∧ ∀ p ∈ points, LowBitsClear (bits p.value)

instance (n : Nat) (d : BitVec 64) : Decidable (InField n d) :=
  inferInstanceAs (Decidable (_ ∧ _))

instance (ts : List (BitVec 64)) : Decidable (FitsFields ts) :=
  decidable_of_iff ((diffs ts).head?.all (fun d => decide (InField 14 d)) = true ∧
    (diffs (diffs ts)).all (fun d => decide (InField 32 d)) = true) <| by
      unfold FitsFields
      refine and_congr ?_ (by simp)
      cases (diffs ts).head? <;> simp

instance (value : BitVec 64) : Decidable (LowBitsClear value) :=
  inferInstanceAs (Decidable (value &&& 0xF#64 = 0#64))

instance (points : List (Point V)) : Decidable (Exact bits points) :=
  inferInstanceAs (Decidable (_ ∧ ∀ p ∈ points, _))

theorem exact_singleton {p : Point V} (h : LowBitsClear (bits p.value)) : Exact bits [p] := by
  simpa [Exact, FitsFields, diffs] using h

def flushesExact : Guard V := fun _ _ order m =>
  Order.flushes m order → Exact bits m.entry.head.points

instance (metric : Text) (io : FlushIO) (order : Order V) (m : MetricState V) :
    Decidable (flushesExact bits metric io order m) :=
  inferInstanceAs (Decidable (Order.flushes m order → Exact bits m.entry.head.points))

end Tsdb.Exactness
