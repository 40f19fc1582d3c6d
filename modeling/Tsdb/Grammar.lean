import Tsdb.Connection

namespace Tsdb.Grammar

open CStrings Strtok Parsing Numbers Registry Server Requests Connection

variable {V : Type}

/-- These tokens are a command, and this is the request they stand for. -/
inductive Denotes (lib : Strtod V) : List Text → Request V → Prop where
  | put {metric ts value : Text} {r : Request V} (hmetric : metric.length ≤ 63)
    (hts : IsLong ts r.timestamp) (hvalue : lib.double value = some r.value)
    (htype : r.type = .put) (hname : r.metric = metric) :
    Denotes lib ["PUT".toList, metric, ts, value] r
  | get {metric start stop : Text} {r : Request V} (hmetric : metric.length ≤ 63)
    (hstart : IsLong start r.startTimeStamp) (hstop : IsLong stop r.endTimeStamp)
    (htype : r.type = .get) (hname : r.metric = metric) :
    Denotes lib ["GET".toList, metric, start, stop] r
  | flush {metric : Text} {r : Request V} (hmetric : metric.length ≤ 63) (htype : r.type = .flush)
    (hname : r.metric = metric) : Denotes lib ["FLUSH".toList, metric] r
  | stats {metric : Text} {r : Request V} (hmetric : metric.length ≤ 63) (htype : r.type = .stats)
    (hname : r.metric = metric) : Denotes lib ["STATS".toList, metric] r
  | quit {r : Request V} (htype : r.type = .quit) : Denotes lib ["QUIT".toList] r
  | agg {metric start stop bucket func : Text} {r : Request V} (hmetric : metric.length ≤ 63)
    (hstart : IsLong start r.startTimeStamp) (hstop : IsLong stop r.endTimeStamp)
    (hbucket : IsInt bucket r.bucketSeconds) (hfunc : func.length ≤ 15) (htype : r.type = .agg)
    (hname : r.metric = metric) (hcopy : r.func = func) :
    Denotes lib ["AGG".toList, metric, start, stop, bucket, func] r

/-- `getRequest` returns a request just for a command, and the one the command stands for. -/
def Reads (lib : Strtod V) (unset : Request V) (line : Text) : Prop :=
  match getRequest lib unset line with
  | none => False
  | some none => ∀ r, ¬ Denotes lib (words delimiter line) r
  | some (some r) => Denotes lib (words delimiter line) r

def FitsFields (lib : Strtod V) : List Text → Prop
  | [command, metric, a, b] =>
    (command = "PUT".toList →
        metric.length ≤ 63 ∧ (∃ n, IsLong a n) ∧ ∃ x, lib.double b = some x) ∧
      (command = "GET".toList → metric.length ≤ 63 ∧ (∃ n, IsLong a n) ∧ ∃ n, IsLong b n)
  | [command, metric] =>
    command = "FLUSH".toList ∨ command = "STATS".toList → metric.length ≤ 63
  | [command, metric, start, stop, bucket, func] =>
    command = "AGG".toList → metric.length ≤ 63 ∧ (∃ n, IsLong start n) ∧ (∃ n, IsLong stop n) ∧
      (∃ n, IsInt bucket n) ∧ func.length ≤ 15
  | _ => True

theorem Denotes.form {lib : Strtod V} {tokens : List Text} {r : Request V}
    (h : Denotes lib tokens r) : Form tokens := by
  cases h with
  | put => exact .put ..
  | get => exact .get ..
  | flush => exact .flush _
  | stats => exact .stats _
  | quit => exact .quit
  | agg => exact .agg ..

theorem fitsFields_of_not_form {lib : Strtod V} {tokens : List Text} (h : ¬ Form tokens) :
    FitsFields lib tokens := by
  unfold FitsFields
  split
  · exact ⟨fun hc => absurd (hc ▸ .put ..) h, fun hc => absurd (hc ▸ .get ..) h⟩
  · exact fun hc => hc.elim (fun hc => absurd (hc ▸ .flush _) h) (fun hc => absurd (hc ▸ .stats _) h)
  · exact fun hc => absurd (hc ▸ .agg ..) h
  · trivial

theorem Denotes.fits {lib : Strtod V} {tokens : List Text} {r : Request V}
    (h : Denotes lib tokens r) : FitsFields lib tokens := by
  cases h with
  | put hmetric hts hvalue =>
    exact ⟨fun _ => ⟨hmetric, ⟨_, hts⟩, _, hvalue⟩, fun hc => absurd hc (by decide)⟩
  | get hmetric hstart hstop =>
    exact ⟨fun hc => absurd hc (by decide), fun _ => ⟨hmetric, ⟨_, hstart⟩, _, hstop⟩⟩
  | flush hmetric => exact fun _ => hmetric
  | stats hmetric => exact fun _ => hmetric
  | quit => trivial
  | agg hmetric hstart hstop hbucket hfunc =>
    exact fun _ => ⟨hmetric, ⟨_, hstart⟩, ⟨_, hstop⟩, ⟨_, hbucket⟩, hfunc⟩

theorem isLong_strtol {t : Text} {n : Int} (h : IsLong t n) : IsLong t (strtol t) := by
  rwa [strtol_eq h]

theorem isInt_atoi {t : Text} {n : Int} (h : IsInt t n) : IsInt t (atoi t) := by
  rwa [atoi_eq h]

theorem double_call {lib : Strtod V} {t : Text} {x : V} (h : lib.double t = some x) :
    lib.double t = some (lib.call t) := by
  rwa [lib.call_double t x h]

theorem copyMetric_eq {token : Text} (h : token.length ≤ 63) : copyMetric token = token :=
  List.take_of_length_le h

theorem reads_of_fits {lib : Strtod V} {unset : Request V} {line : Text}
    (hform : Form (words delimiter line)) (hfits : FitsFields lib (words delimiter line)) :
    Reads lib unset line := by
  rw [Reads, getRequest, parseString_eq]
  generalize words delimiter line = tokens at hform hfits
  cases hform with
  | put metric ts value =>
    obtain ⟨hmetric, ⟨n, hn⟩, x, hx⟩ := hfits.1 rfl
    exact .put hmetric (isLong_strtol hn) (double_call hx) rfl (copyMetric_eq hmetric)
  | get metric start stop =>
    obtain ⟨hmetric, ⟨n, hn⟩, n', hn'⟩ := hfits.2 rfl
    exact .get hmetric (isLong_strtol hn) (isLong_strtol hn') rfl (copyMetric_eq hmetric)
  | flush metric => exact .flush (hfits (.inl rfl)) rfl (copyMetric_eq (hfits (.inl rfl)))
  | stats metric => exact .stats (hfits (.inr rfl)) rfl (copyMetric_eq (hfits (.inr rfl)))
  | quit => exact .quit rfl
  | agg metric start stop bucket func =>
    obtain ⟨hmetric, ⟨n, hn⟩, ⟨n', hn'⟩, ⟨b, hb⟩, hfunc⟩ := hfits rfl
    have hcopy : (⟨16, unset.func⟩ : TextBuffer).strcpyAt 0 func = some ⟨16, func⟩ := by
      rw [TextBuffer.strcpyAt, if_pos (show 0 + func.length + 1 ≤ 16 by omega),
        if_pos (Nat.zero_le _)]
      rfl
    dsimp only
    rw [if_pos rfl, hcopy]
    exact .agg hmetric (isLong_strtol hn) (isLong_strtol hn') (isInt_atoi hb) hfunc rfl
      (copyMetric_eq hmetric) rfl

theorem reads_iff (lib : Strtod V) (unset : Request V) (line : Text) :
    Reads lib unset line ↔ FitsFields lib (words delimiter line) := by
  by_cases hform : Form (words delimiter line)
  · refine ⟨fun hreads => ?_, reads_of_fits hform⟩
    unfold Reads at hreads
    split at hreads
    · exact hreads.elim
    · rename_i hnull
      exact absurd hform (getRequest_null_iff.mp hnull)
    · exact hreads.fits
  · refine ⟨fun _ => fitsFields_of_not_form hform, fun _ => ?_⟩
    rw [Reads, getRequest_null_iff.mpr hform]
    exact fun r hr => hform hr.form

section Thread

variable [Zero V] [Add V] [Div V] [NatCast V] [LT V] [DecidableLT V]

def Meets (w : World V) (c : Session V) (line : Text) : Prop :=
  Reads w.lib (w.unset c.passed.length) (cString line) ∧
    ((∀ r, ¬ Denotes w.lib (words delimiter (cString line)) r) →
      (handleLine w line c).1.store = c.store)

theorem store_rejected {w : World V} {c : Session V} {line : Text}
    (h : getRequest w.lib (w.unset c.passed.length) (cString line) = some none) :
    (handleLine w line c).1.store = c.store := by
  unfold handleLine
  dsimp only
  rw [h]
  rfl

/-- The parser does what the grammar says exactly when the line is no command by its first word and
the number of its tokens, or its tokens fit their fields. -/
theorem meets_iff (w : World V) (c : Session V) (line : Text) :
    Meets w c line ↔ FitsFields w.lib (words delimiter (cString line)) := by
  refine ⟨fun hmeets => (reads_iff _ _ _).mp hmeets.1, fun hfits => ?_⟩
  have hreads := (reads_iff w.lib (w.unset c.passed.length) (cString line)).mpr hfits
  refine ⟨hreads, fun hnone => store_rejected ?_⟩
  unfold Reads at hreads
  split at hreads
  · exact hreads.elim
  · assumption
  · exact absurd hreads (hnone _)

/-- A timestamp with something behind it is taken for the number it begins with. -/
theorem accepts_trailing_junk : ¬ ∀ (w : World Nat) (c : Session Nat) (line : Text),
    Meets w c line := by
  intro h
  have hfits := (reads_iff _ _ _).mp
    (h World.plain (.start Store.empty) "PUT m 5x 1\n".toList).1
  have hwords : words delimiter (cString "PUT m 5x 1\n".toList) =
      ["PUT".toList, ['m'], ['5', 'x'], ['1']] := by
    rw [← parseString_eq]
    decide +kernel
  rw [hwords] at hfits
  obtain ⟨_, ⟨n, hn⟩, _⟩ := hfits.1 rfl
  cases hn.1

end Thread

end Tsdb.Grammar
