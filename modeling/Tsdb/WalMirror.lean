import Tsdb.Clients
import Tsdb.WalBytes

namespace Tsdb.WalMirror

open CStrings Head Files Wal Registry Sections History Clients LittleEndian WalBytes

variable {V ι : Type} [DecidableEq ι]

theorem flushSection_refused {dataDir metric : Text} {io : FlushIO} {m : MetricState V}
    (h : (flushSection dataDir metric io m).1 = false) :
    (flushSection dataDir metric io m).2.entry = m.entry ∧
      (flushSection dataDir metric io m).2.dir.wal = m.dir.wal := by
  rcases flushSection_cases dataDir metric io m with
    ⟨_, he⟩ | ⟨first, _, ⟨_, dir, hdir, he⟩ | ⟨_, _, he⟩⟩
  · rw [he] at h
    cases h
  · rw [he]
    exact ⟨rfl, hdir.wal⟩
  · rw [he] at h
    cases h

theorem putSection_refused {point : Point V} {m : MetricState V}
    (h : (putSection point m).1 = false) : (putSection point m).2 = m := by
  rcases putSection_cases point m with ⟨_, he⟩ | ⟨_, he⟩
  · rw [he] at h
    cases h
  · rw [he]

theorem run_refused {dataDir metric : Text} {l : Ledger V} {x : Section V}
    (h : (l.run dataDir metric x).1 = false) :
    (l.run dataDir metric x).2.metric.entry.head = l.metric.entry.head ∧
      (l.run dataDir metric x).2.metric.dir.wal = l.metric.dir.wal := by
  cases x with
  | put point =>
    have hm : (l.put point).2.metric = l.metric := putSection_refused h
    exact ⟨congrArg (fun m : MetricState V => m.entry.head) hm,
      congrArg (fun m : MetricState V => m.dir.wal) hm⟩
  | flush io =>
    obtain ⟨hentry, hwal⟩ := flushSection_refused h
    exact ⟨congrArg MetricRegistry.head hentry, hwal⟩

/-- Whenever the lock is free the log holds the head's points, record by record, and only a
section that succeeds changes either. -/
theorem wal_mirrors_head {dataDir metric : Text} {s : System V ι}
    (h : Reachable dataDir metric s) :
    s.ledger.metric.dir.wal.getD [] = s.ledger.metric.entry.head.points ∧
      ∀ x : Section V, (s.ledger.run dataDir metric x).1 = false →
        (s.ledger.run dataDir metric x).2.metric.entry.head = s.ledger.metric.entry.head ∧
          (s.ledger.run dataDir metric x).2.metric.dir.wal = s.ledger.metric.dir.wal :=
  ⟨(reachable_conserved h).logged, fun _ => run_refused⟩

/-- Two clients write, a flush in between fails, and a third point is too old. -/
theorem wal_mirrors_head_failed_flush : ∃ s : System Nat Bool,
    s.ledger.metric.entry.head.points = [⟨5, 1⟩, ⟨7, 2⟩] ∧
      s.ledger.metric.dir.wal.getD [] = s.ledger.metric.entry.head.points :=
  ⟨_, rfl, (@wal_mirrors_head Nat Bool _ ['d'] ['m'] _
    (.next (.attempt true ⟨3, 3⟩) (.next (.attempt true ⟨7, 2⟩) (.next (.flush false .writeFails)
      (.next (.attempt false ⟨5, 1⟩) (.start ⟨0, rfl⟩) rfl) rfl) rfl) rfl)).1⟩

theorem log_bytes {dataDir metric : Text} {s : System (BitVec 64) ι}
    (h : Reachable dataDir metric s) :
    (logBytes s.ledger.metric.dir.wal).getD [] =
      s.ledger.metric.entry.head.points.flatMap recordBytes := by
  rw [← (reachable_conserved h).logged]
  cases s.ledger.metric.dir.wal <;> rfl

end Tsdb.WalMirror
