import Tsdb.Files

namespace Tsdb.Wal

open CStrings Head Files

variable {V : Type}

def walAppend (dir : Dir V) (point : Point V) : Dir V :=
  { dir.mkdir with wal := some (dir.wal.getD [] ++ [point]) }

def walTruncate (dir : Dir V) : Dir V := { dir with wal := none }

def replayRecord (head : HeadBlock V) (point : Point V) : HeadBlock V :=
  if point.ts ≤ head.lastTimestamp then head else (putValue head point).2

def walReplay (dir : Dir V) (head : HeadBlock V) : HeadBlock V :=
  match dir.wal with
  | none => head
  | some records => records.foldl replayRecord head

end Tsdb.Wal
