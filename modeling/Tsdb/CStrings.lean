import Mathlib

namespace Tsdb.CStrings

/-- A C string without its terminator. -/
abbrev Text := List Char

/-- An allocation that holds a terminated string: its size and the characters up to the
terminator. -/
structure TextBuffer where
  capacity : Nat
  text : Text
  deriving DecidableEq, Repr

namespace TextBuffer

def new (capacity : Nat) : TextBuffer := ⟨capacity, []⟩

def realloc (buf : TextBuffer) (capacity : Nat) : TextBuffer := { buf with capacity := capacity }

def grow (buf : TextBuffer) (need capacity : Nat) : TextBuffer :=
  if buf.capacity < need then buf.realloc capacity else buf

/-- `none` is a write behind the end of the allocation. -/
def strcat (buf : TextBuffer) (t : Text) : Option TextBuffer :=
  if buf.text.length + t.length + 1 ≤ buf.capacity then some { buf with text := buf.text ++ t }
  else none

/-- `strcpy(buf + offset, t)`. Behind the terminator the copy is there but not part of the
string. -/
def strcpyAt (buf : TextBuffer) (offset : Nat) (t : Text) : Option TextBuffer :=
  if offset + t.length + 1 ≤ buf.capacity then
    some (if offset ≤ buf.text.length then { buf with text := buf.text.take offset ++ t } else buf)
  else none

@[simp] theorem grow_text (buf : TextBuffer) (need capacity : Nat) :
    (buf.grow need capacity).text = buf.text := by
  unfold grow
  split <;> rfl

theorem le_grow {buf : TextBuffer} {need capacity : Nat} (h : need ≤ capacity) :
    need ≤ (buf.grow need capacity).capacity := by
  unfold grow
  split
  · exact h
  · omega

theorem capacity_le_grow (buf : TextBuffer) (need : Nat) :
    buf.capacity ≤ (buf.grow need (buf.capacity * 2)).capacity := by
  unfold grow realloc
  split
  · dsimp only
    omega
  · exact le_rfl

theorem strcat_eq {buf : TextBuffer} {t : Text} (h : buf.text.length + t.length + 1 ≤ buf.capacity) :
    buf.strcat t = some { buf with text := buf.text ++ t } := if_pos h

theorem strcat_text {buf buf' : TextBuffer} {t : Text} (h : buf.strcat t = some buf') :
    buf'.text = buf.text ++ t := by
  unfold strcat at h
  split at h
  · rw [← Option.some.inj h]
  · cases h

theorem strcpyAt_some {buf : TextBuffer} {offset : Nat} {t : Text}
    (h : offset + t.length + 1 ≤ buf.capacity) :
    ∃ buf', buf.strcpyAt offset t = some buf' ∧ buf'.capacity = buf.capacity := by
  rw [strcpyAt, if_pos h]
  split
  · exact ⟨_, rfl, rfl⟩
  · exact ⟨_, rfl, rfl⟩

theorem strcpyAt_inside {buf : TextBuffer} {offset : Nat} {t : Text}
    (hoff : offset ≤ buf.text.length) (h : offset + t.length + 1 ≤ buf.capacity) :
    buf.strcpyAt offset t = some { buf with text := buf.text.take offset ++ t } := by
  rw [strcpyAt, if_pos h, if_pos hoff]

theorem strcpyAt_end {buf : TextBuffer} {offset : Nat} {t : Text}
    (hoff : offset = buf.text.length) (h : offset + t.length + 1 ≤ buf.capacity) :
    buf.strcpyAt offset t = some { buf with text := buf.text ++ t } := by
  rw [strcpyAt_inside hoff.le h, hoff, List.take_length]

theorem strcpyAt_length {buf buf' : TextBuffer} {offset : Nat} {t : Text}
    (h : buf.strcpyAt offset t = some buf') (hoff : buf.text.length ≤ offset) :
    buf'.text.length ≤ buf.text.length + t.length := by
  unfold strcpyAt at h
  split at h
  · rw [← Option.some.inj h]
    split
    · simp only [List.length_append, List.length_take]
      omega
    · omega
  · cases h

end TextBuffer

end Tsdb.CStrings
