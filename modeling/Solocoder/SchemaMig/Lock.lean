import Mathlib.Logic.Function.Basic

/-!
# The migration lock

Migrators share a lock table, in which at most one row has the id 1. A call goes from SQL statement
to SQL statement; in between other migrators go on and time passes.
-/

namespace Solocoder.SchemaMig

/-- The errors of the calls. -/
inductive Err where
  /-- `Acquire` names the holder, `TryAcquire` does not. -/
  | alreadyLocked (lockedBy : Option (Int × Int))
  | cleanupFailed
  | insertFailed
  | releaseFailed
  | lockTimeout
  deriving DecidableEq

/-- A row of the lock table. The text `pid_%d_%d` in `locked_by` is given by its two numbers. -/
structure Row (M : Type) where
  lockedAt : Int
  lockedBy : Int × Int
  /-- The migrator that inserted the row. -/
  owner : M

/-- How far the call of a migrator is. A `TryAcquire` has a deadline. -/
inductive Phase where
  | done (err : Option Err)
  /-- In front of `DELETE … WHERE locked_at < cutoff`. -/
  | cleanup (cutoff : Int) (deadline : Option Int)
  /-- Behind it. -/
  | stamp (deadline : Option Int)
  /-- In front of `INSERT`. -/
  | insert (lockedAt : Int) (lockedBy : Int × Int) (deadline : Option Int)
  /-- Behind an `INSERT` of `TryAcquire` that failed. -/
  | retry (deadline : Int)
  /-- In front of `DELETE … WHERE id = 1`. -/
  | delete
  deriving DecidableEq

/-- `MigrationLock` with the call in progress. Times are in nanoseconds from the zero time. -/
structure MigrationLock where
  timeout : Int
  locked : Bool
  lockedAt : Int
  lockedBy : Option (Int × Int)
  phase : Phase

/-- The clock, the lock table and the locks of the migrators. -/
structure System (M : Type) where
  now : Int
  table : Option (Row M)
  locks : M → MigrationLock

/-- What can happen. -/
inductive Event (M : Type) where
  | tick (d : Nat)
  | acquire (i : M)
  | tryAcquire (i : M) (timeout : Int)
  | release (i : M)
  /-- The call of `i` executes its next statement, which the database carries out if it is `up`. -/
  | exec (i : M) (up : Bool)
  /-- The call of `i` goes on to its next statement. -/
  | next (i : M)
  /-- A statement of a migration. -/
  | migrate (i : M)

namespace System

variable {M : Type} [DecidableEq M]

def init (now : Int) (timeout : M → Int) : System M :=
  ⟨now, none, fun i => ⟨timeout i, false, 0, none, .done none⟩⟩

variable (s : System M)

def setPhase (i : M) (phase : Phase) : System M :=
  { s with locks := Function.update s.locks i { s.locks i with phase := phase } }

/-- The start of `Acquire` or, with a deadline, `TryAcquire`. -/
def start (i : M) (deadline : Option Int) : System M :=
  match (s.locks i).phase, (s.locks i).locked with
  | .done _, true =>
    let holder := if deadline.isNone then (s.locks i).lockedBy else none
    s.setPhase i (.done (some (.alreadyLocked holder)))
  | .done _, false => s.setPhase i (.cleanup (s.now - (s.locks i).timeout) deadline)
  | _, _ => s

/-- The next statement of the call of `i` is executed. -/
def exec (i : M) (up : Bool) : System M :=
  let l := s.locks i
  match l.phase with
  | .cleanup cutoff deadline =>
    if up then
      setPhase { s with table := s.table.filter (cutoff ≤ ·.lockedAt) } i (.stamp deadline)
    else s.setPhase i (.done (some .cleanupFailed))
  | .insert lockedAt lockedBy deadline =>
    if up && s.table.isNone then
      { s with
        table := some ⟨lockedAt, lockedBy, i⟩
        locks := Function.update s.locks i ⟨l.timeout, true, lockedAt, some lockedBy, .done none⟩ }
    else match deadline with
      | none => s.setPhase i (.done (some .insertFailed))
      | some d => s.setPhase i (.retry d)
  | .delete =>
    if up then
      { s with
        table := none
        locks := Function.update s.locks i ⟨l.timeout, false, 0, none, .done none⟩ }
    else s.setPhase i (.done (some .releaseFailed))
  | _ => s

/-- The call of `i` reads the clock and goes on to its next statement. -/
def next (i : M) : System M :=
  match (s.locks i).phase with
  | .stamp deadline => s.setPhase i (.insert s.now (s.now, s.now % 1000000000) deadline)
  | .retry d =>
    if d < s.now then s.setPhase i (.done (some .lockTimeout))
    else s.setPhase i (.cleanup (s.now - (s.locks i).timeout) (some d))
  | _ => s

def step : Event M → System M
  | .tick d => { s with now := s.now + d }
  | .acquire i => s.start i none
  | .tryAcquire i timeout => s.start i (some (s.now + timeout))
  | .release i =>
    match (s.locks i).phase with
    | .done _ => s.setPhase i (if (s.locks i).locked then .delete else .done none)
    | _ => s
  | .exec i up => s.exec i up
  | .next i => s.next i
  | .migrate _ => s

end System

end Solocoder.SchemaMig
