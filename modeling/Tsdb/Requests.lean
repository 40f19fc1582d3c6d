import Tsdb.Numbers
import Tsdb.Parsing
import Tsdb.Server

namespace Tsdb.Requests

open CStrings Strtok Parsing Numbers Server

variable {V : Type}

/-- `strtod` of the C library. A text that is entirely a number which a double can hold is read as
that number. -/
structure Strtod (V : Type) where
  call : Text → V
  double : Text → Option V
  call_double : ∀ t x, double t = some x → call t = x

def Strtod.whole : Strtod Nat where
  call t := (magnitude t).toNat
  double t := (unsigned t).map Int.toNat
  call_double t x h := by
    obtain ⟨n, hn, rfl⟩ := Option.map_eq_some_iff.mp h
    rw [magnitude_unsigned hn]

/-- `strncpy` into `metric[64]`, the last byte of which is the terminator. -/
def copyMetric (token : Text) : Text := token.take 63

/-- The pointer `getRequest` returns, null for what is no command. The fields it does not set are
those of `unset`, the allocation; `none` is a `strcpy` behind the end of `func[16]`. -/
def getRequest (lib : Strtod V) (unset : Request V) (buffer : Text) : Option (Option (Request V)) :=
  match parseString buffer with
  | [command, metric, a, b] =>
    if command = "PUT".toList then
      some (some { unset with
        type := .put, metric := copyMetric metric, timestamp := strtol a, value := lib.call b })
    else if command = "GET".toList then
      some (some { unset with
        type := .get, metric := copyMetric metric,
        startTimeStamp := strtol a, endTimeStamp := strtol b })
    else some none
  | [command, metric] =>
    if command = "FLUSH".toList then
      some (some { unset with type := .flush, metric := copyMetric metric })
    else if command = "STATS".toList then
      some (some { unset with type := .stats, metric := copyMetric metric })
    else some none
  | [command] =>
    if command = "QUIT".toList then some (some { unset with type := .quit }) else some none
  | [command, metric, start, stop, bucket, func] =>
    if command = "AGG".toList then
      ((⟨16, unset.func⟩ : TextBuffer).strcpyAt 0 func).map fun copied => some { unset with
        type := .agg, metric := copyMetric metric,
        startTimeStamp := strtol start, endTimeStamp := strtol stop,
        bucketSeconds := atoi bucket, func := copied.text }
    else some none
  | _ => some none

inductive Form : List Text → Prop where
  | put (metric ts value : Text) : Form ["PUT".toList, metric, ts, value]
  | get (metric start stop : Text) : Form ["GET".toList, metric, start, stop]
  | flush (metric : Text) : Form ["FLUSH".toList, metric]
  | stats (metric : Text) : Form ["STATS".toList, metric]
  | quit : Form ["QUIT".toList]
  | agg (metric start stop bucket func : Text) :
    Form ["AGG".toList, metric, start, stop, bucket, func]

instance : DecidablePred Form
  | [] | [_, _, _] | [_, _, _, _, _] | _ :: _ :: _ :: _ :: _ :: _ :: _ :: _ => .isFalse nofun
  | [command, metric, a, b] =>
    decidable_of_iff (command = "PUT".toList ∨ command = "GET".toList)
      ⟨fun h => h.elim (fun hc => hc ▸ .put metric a b) (fun hc => hc ▸ .get metric a b),
        fun h => by cases h <;> simp⟩
  | [command, metric] =>
    decidable_of_iff (command = "FLUSH".toList ∨ command = "STATS".toList)
      ⟨fun h => h.elim (fun hc => hc ▸ .flush metric) (fun hc => hc ▸ .stats metric),
        fun h => by cases h <;> simp⟩
  | [command] =>
    decidable_of_iff (command = "QUIT".toList) ⟨fun hc => hc ▸ .quit, fun h => by cases h; rfl⟩
  | [command, metric, start, stop, bucket, func] =>
    decidable_of_iff (command = "AGG".toList)
      ⟨fun hc => hc ▸ .agg metric start stop bucket func, fun h => by cases h; rfl⟩

section Tokens

variable {lib : Strtod V} {unset : Request V} {buffer : Text}

theorem getRequest_null_iff :
    getRequest lib unset buffer = some none ↔ ¬ Form (words delimiter buffer) := by
  rw [getRequest, parseString_eq]
  generalize words delimiter buffer = tokens
  constructor
  · intro h hform
    cases hform with
    | agg metric start stop bucket func =>
      obtain ⟨_, _, hsome⟩ := Option.map_eq_some_iff.mp h
      cases hsome
    | _ => cases h
  · intro hform
    split
    · rename_i command metric a b
      have hput : command ≠ "PUT".toList := fun hc => hform (hc ▸ .put metric a b)
      have hget : command ≠ "GET".toList := fun hc => hform (hc ▸ .get metric a b)
      rw [if_neg hput, if_neg hget]
    · rename_i command metric
      have hflush : command ≠ "FLUSH".toList := fun hc => hform (hc ▸ .flush metric)
      have hstats : command ≠ "STATS".toList := fun hc => hform (hc ▸ .stats metric)
      rw [if_neg hflush, if_neg hstats]
    · rename_i command
      have hquit : command ≠ "QUIT".toList := fun hc => hform (hc ▸ .quit)
      rw [if_neg hquit]
    · rename_i command metric start stop bucket func
      have hagg : command ≠ "AGG".toList := fun hc => hform (hc ▸ .agg metric start stop bucket func)
      rw [if_neg hagg]
    · rfl

theorem form_of_request {request : Request V}
    (h : getRequest lib unset buffer = some (some request)) : Form (words delimiter buffer) := by
  by_contra hform
  rw [getRequest_null_iff.mpr hform] at h
  cases h

theorem getRequest_quit_iff {request : Request V}
    (h : getRequest lib unset buffer = some (some request)) :
    request.type = .quit ↔ words delimiter buffer = ["QUIT".toList] := by
  have hform := form_of_request h
  rw [getRequest, parseString_eq] at h
  generalize words delimiter buffer = tokens at h hform
  cases hform with
  | agg metric start stop bucket func =>
    obtain ⟨_, _, hsome⟩ := Option.map_eq_some_iff.mp h
    obtain rfl := Option.some.inj hsome
    simp
  | _ =>
    obtain rfl := Option.some.inj (Option.some.inj h)
    simp

end Tokens

end Tsdb.Requests
