import MiniLSM.Spec.Threads

/-!
# `~DB` and the background thread

The destructor runs in the thread of one caller, when no other one is in a call: it waits for the
flush that is under way, flushes what is left in `imm_`, sets `shutting_down_`, notifies, joins and
gives everything up. It stores the flag without `mutex_`: a store that falls into a section of
`BackgroundWork` is seen by it as one that came before or behind it.
-/

namespace MiniLSM

/-- How far the destructor is. -/
inductive Teardown
  /-- Up to the end of its flush. -/
  | flushing
  /-- Before the store of `shutting_down_`. -/
  | signal
  /-- Before `notify_one`. -/
  | notify
  /-- In `join`. -/
  | join
  | done
  deriving DecidableEq, Repr

/-- A database with its background thread, and the destructor in thread `caller id`. `exited`:
`BackgroundWork` has returned. -/
structure Shutdown where
  threads : Threads
  id : ℕ
  teardown : Teardown := .flushing
  shuttingDown : Bool := false
  exited : Bool := false

/-- A step of the background thread, a wake-up, or a section of the destructor, which ends a flush
with `table` and wakes `pick`. -/
inductive ShutdownLabel
  | thread (l : ThreadLabel)
  | destructor (table : Option SSTable) (pick : Option Thread)

/-- The steps of the background thread, and wake-ups. -/
def ThreadLabel.ofBackground : ThreadLabel → Bool
  | .work | .workOn | .backgroundFlush | .flushEnd .background _ | .compactBegin .background
  | .compactEnd .background _ | .wake _ => true
  | _ => false

namespace Shutdown

/-- The thread of the destructor. -/
def self (s : Shutdown) : Thread := .caller s.id

/-- The tests of `shutting_down_` in `BackgroundWork`: at the top of its loop, and behind its wait. -/
def leaves (s : Shutdown) : ThreadLabel → Bool
  | .work => s.shuttingDown && s.threads.place .background = .top
  | .workOn => s.shuttingDown && s.threads.place .background = .work && !s.threads.blocked.contains .background
  | _ => false

/-- A step of the background thread, or a wake-up. -/
def stepThread (s : Shutdown) (l : ThreadLabel) : Option Shutdown :=
  if !l.ofBackground then none
  else if s.leaves l then if s.exited then none else some { s with exited := true }
  else (s.threads.step l).map fun threads => { s with threads := threads }

/-- The first section of the destructor, from its loop on. -/
def flushImm (s : Shutdown) : Shutdown :=
  if s.threads.db.immFlushing then { s with threads := s.threads.wait s.self .range }
  else
    match s.threads.db.flushBegin with
    | some (_, _, db) => { s with threads := { s.threads.go s.self .building with db := db } }
    | none => { s with threads := s.threads.go s.self .idle, teardown := .signal }

/-- The next section of the destructor. It does not notify behind its flush. -/
def stepDestructor (s : Shutdown) (table : Option SSTable) (pick : Option Thread) : Option Shutdown :=
  match s.teardown with
  | .flushing =>
    match s.threads.place s.self with
    | .idle => some s.flushImm
    | .range => if s.self ∈ s.threads.blocked then none else some s.flushImm
    | .building => (Threads.flushed s.threads.db s.self table).map fun db =>
        { s with threads := { s.threads.go s.self .idle with db := db }, teardown := .signal }
    | _ => none
  | .signal => some { s with shuttingDown := true, teardown := .notify }
  | .notify => (Monitor.notifyOne s.threads.blocked pick).map fun blocked =>
      { s with threads := { s.threads with blocked := blocked }, teardown := .join }
  | .join => if s.exited then some { s with teardown := .done } else none
  | .done => none

/-- One step. `none`: the label cannot be taken here. -/
def step (s : Shutdown) : ShutdownLabel → Option Shutdown
  | .thread l => s.stepThread l
  | .destructor table pick => s.stepDestructor table pick

end Shutdown

end MiniLSM
