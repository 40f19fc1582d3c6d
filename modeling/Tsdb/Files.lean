import Tsdb.Head
import Tsdb.CStrings

namespace Tsdb.Files

open CStrings Head

variable {V : Type}

def decimal (n : Nat) : Text := Nat.toDigits 10 n

def signedDecimal (n : Int) : Text :=
  if n < 0 then '-' :: decimal n.natAbs else decimal n.natAbs

theorem decimal_injective : Function.Injective decimal := by
  intro a b h
  have hd := congrArg (fun cs => Nat.ofDigitChars 10 cs 0) h
  simpa only [decimal, Nat.ofDigitChars_ten_toDigits] using hd

theorem decimal_length {n k : Nat} (hk : 0 < k) (h : n < 10 ^ k) : (decimal n).length ≤ k :=
  (Nat.length_toDigits_le_iff (by decide) hk).mpr h

/-- A name that is one directory of its own below the data directory. `readdir` gives no others. -/
def EntryName (name : Text) : Prop := name ≠ [] ∧ '/' ∉ name ∧ name ≠ ['.'] ∧ name ≠ ['.', '.']

instance (name : Text) : Decidable (EntryName name) :=
  inferInstanceAs (Decidable (_ ∧ _ ∧ _ ∧ _))

structure ChunkData (V : Type) where
  startTs : Int
  endTs : Int
  points : List (Point V)
  deriving DecidableEq, Repr

/-- `chunkread` refuses a file that was cut short anywhere. -/
inductive ChunkFile (V : Type) where
  | torn
  | whole (data : ChunkData V)
  deriving DecidableEq, Repr

/-- One directory below the data directory: its chunk files by name, the records of
`wal.log` when there is one, and the ids with a `.done` marker. -/
structure Dir (V : Type) where
  present : Bool
  chunks : AList (fun _ : Text => ChunkFile V)
  wal : Option (List (Point V))
  done : List Nat

def Dir.empty : Dir V := ⟨false, ∅, none, []⟩

def Dir.mkdir (dir : Dir V) : Dir V := { dir with present := true }

/-- `fopen` with mode `wb` cuts an existing file to nothing. -/
def fopenWb (dir : Dir V) (name : Text) : Dir V :=
  { dir with chunks := dir.chunks.insert name .torn }

def chunkWrite (dir : Dir V) (name : Text) (data : ChunkData V) : Dir V :=
  { dir with chunks := dir.chunks.insert name (.whole data) }

def chunkRead (dir : Dir V) (name : Text) : Option (ChunkData V) :=
  match dir.chunks.lookup name with
  | some (.whole data) => some data
  | _ => none

theorem chunkRead_key {dir : Dir V} {name : Text} {data : ChunkData V}
    (h : chunkRead dir name = some data) : name ∈ dir.chunks.keys := by
  refine AList.mem_keys.mp (AList.lookup_isSome.mp ?_)
  unfold chunkRead at h
  split at h
  case h_1 hl =>
    rw [hl]
    rfl
  case h_2 => cases h

inductive ChunkIO where
  | ok
  | openFails
  | writeFails
  | closeFails
  deriving DecidableEq, Repr

/-- What `fclose` cannot write is missing from the file, and the result does not say so. The path
of an empty name ends in a slash, and opening it for writing fails. -/
def chunkwrite (io : ChunkIO) (dir : Dir V) (name : Text) (data : ChunkData V) : Bool × Dir V :=
  if name = [] then (false, dir)
  else
    match io with
    | .openFails => (false, dir)
    | .writeFails => (false, fopenWb dir name)
    | .closeFails => (true, fopenWb dir name)
    | .ok => (true, chunkWrite (fopenWb dir name) name data)

/-- The outcomes that the result of `chunkwrite` tells apart. -/
inductive FlushIO where
  | ok
  | openFails
  | writeFails
  deriving DecidableEq, Repr

def FlushIO.chunk : FlushIO → ChunkIO
  | .ok => .ok
  | .openFails => .openFails
  | .writeFails => .writeFails

def flushToChunk (io : FlushIO) (dir : Dir V) (name : Text) (data : ChunkData V) : Bool × Dir V :=
  chunkwrite io.chunk dir name data

theorem chunkRead_write_self (dir : Dir V) (name : Text) (data : ChunkData V) :
    chunkRead (chunkWrite dir name data) name = some data := by
  simp [chunkRead, chunkWrite]

theorem chunkRead_write_ne (dir : Dir V) {name other : Text} (h : other ≠ name)
    (data : ChunkData V) : chunkRead (chunkWrite dir name data) other = chunkRead dir other := by
  simp [chunkRead, chunkWrite, AList.lookup_insert_ne h]

theorem chunkRead_open_ne (dir : Dir V) {name other : Text} (h : other ≠ name) :
    chunkRead (fopenWb dir name) other = chunkRead dir other := by
  simp [chunkRead, fopenWb, AList.lookup_insert_ne h]

/-- What a flush that fails may leave of the directory: at most its own file, cut short. -/
def FailedFlush (name : Text) (dir dir' : Dir V) : Prop := dir' = dir ∨ dir' = fopenWb dir name

theorem FailedFlush.frame {name : Text} {dir dir' : Dir V} (h : FailedFlush name dir dir')
    {other : Text} (ho : other ≠ name) : chunkRead dir' other = chunkRead dir other := by
  rcases h with rfl | rfl
  · rfl
  · exact chunkRead_open_ne dir ho

theorem FailedFlush.wal {name : Text} {dir dir' : Dir V} (h : FailedFlush name dir dir') :
    dir'.wal = dir.wal := by
  rcases h with rfl | rfl <;> rfl

theorem FailedFlush.present {name : Text} {dir dir' : Dir V} (h : FailedFlush name dir dir') :
    dir'.present = dir.present := by
  rcases h with rfl | rfl <;> rfl

theorem FailedFlush.complete {name other : Text} {dir dir' : Dir V} (h : FailedFlush name dir dir')
    {data : ChunkData V} (hr : chunkRead dir' other = some data) : chunkRead dir other = some data := by
  rcases h with rfl | rfl
  · exact hr
  · by_cases ho : other = name
    · subst ho
      simp [chunkRead, fopenWb] at hr
    · rwa [chunkRead_open_ne _ ho] at hr

theorem FailedFlush.read {name other : Text} {dir dir' : Dir V} (h : FailedFlush name dir dir')
    (hr : chunkRead dir' other ≠ none) : chunkRead dir other ≠ none := by
  obtain ⟨data, hr⟩ := Option.ne_none_iff_exists'.mp hr
  rw [h.complete hr]
  exact Option.some_ne_none data

theorem flushToChunk_cases (io : FlushIO) (dir : Dir V) (name : Text) (data : ChunkData V) :
    ((io ≠ .ok ∨ name = []) ∧
        ∃ dir', FailedFlush name dir dir' ∧ flushToChunk io dir name data = (false, dir')) ∨
      (io = .ok ∧ name ≠ [] ∧
        flushToChunk io dir name data = (true, chunkWrite (fopenWb dir name) name data)) := by
  unfold flushToChunk chunkwrite
  by_cases hname : name = []
  · rw [if_pos hname]
    exact .inl ⟨.inr hname, dir, .inl rfl, rfl⟩
  · rw [if_neg hname]
    cases io with
    | openFails => exact .inl ⟨.inl (by decide), dir, .inl rfl, rfl⟩
    | writeFails => exact .inl ⟨.inl (by decide), _, .inr rfl, rfl⟩
    | ok => exact .inr ⟨rfl, hname, rfl⟩

end Tsdb.Files
