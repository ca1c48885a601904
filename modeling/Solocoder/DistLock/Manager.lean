import Mathlib.Logic.Function.Basic

/-!
# The lock manager of `internal/distlock`

Times and durations are numbers of nanoseconds. Every call of a manager happens under its lock, at
the time that its clock shows.
-/

namespace Solocoder.DistLock

/-- The errors of the package. -/
inductive LockErr where
  | lockNotHeld
  | lockAlreadyHeld
  | invalidToken
  | lockExpired
  | emptyKey
  | emptyToken
  | invalidTTL
  | maxReentrancy
  | nodeFailure
  | quorumNotReached
  | invalidNodeCount
  | lockManagerStopped
  deriving DecidableEq

/-- `lockEntry`; its key is the one under which it is stored. -/
structure LockEntry where
  token : String
  expiresAt : Int
  reentrancy : Int
  deriving DecidableEq

def LockEntry.isExpired (e : LockEntry) (now : Int) : Bool := e.expiresAt < now

structure LockManagerConfig where
  maxReentrancy : Int
  cleanInterval : Int

structure LockManager where
  cfg : LockManagerConfig
  locks : String → Option LockEntry
  stopped : Bool

namespace LockManager

variable (lm : LockManager)

/-- `lm.locks[key] = entry`, or the deletion of the key. -/
def put (key : String) (entry : Option LockEntry) : LockManager :=
  { lm with locks := Function.update lm.locks key entry }

/-- `lockInternal`, which does not depend on `tryOnly`. -/
def lock (now : Int) (key token : String) (ttl : Int) : Option LockErr × LockManager :=
  if key = "" then (some .emptyKey, lm)
  else if token = "" then (some .emptyToken, lm)
  else if ttl ≤ 0 then (some .invalidTTL, lm)
  else if lm.stopped then (some .lockManagerStopped, lm)
  else
    match lm.locks key with
    | none => (none, lm.put key (some ⟨token, now + ttl, 1⟩))
    | some entry =>
      if entry.isExpired now then (none, lm.put key (some ⟨token, now + ttl, 1⟩))
      else if entry.token = token then
        if lm.cfg.maxReentrancy ≤ entry.reentrancy then (some .maxReentrancy, lm)
        else (none, lm.put key (some ⟨token, now + ttl, entry.reentrancy + 1⟩))
      else (some .lockAlreadyHeld, lm)

def unlock (now : Int) (key token : String) : Option LockErr × LockManager :=
  if key = "" then (some .emptyKey, lm)
  else if token = "" then (some .emptyToken, lm)
  else if lm.stopped then (some .lockManagerStopped, lm)
  else
    match lm.locks key with
    | none => (some .lockNotHeld, lm)
    | some entry =>
      if entry.isExpired now then (some .lockExpired, lm.put key none)
      else if entry.token ≠ token then (some .invalidToken, lm)
      else if entry.reentrancy - 1 ≤ 0 then (none, lm.put key none)
      else (none, lm.put key (some { entry with reentrancy := entry.reentrancy - 1 }))

def heartbeat (now : Int) (key token : String) (ttl : Int) : Option LockErr × LockManager :=
  if key = "" then (some .emptyKey, lm)
  else if token = "" then (some .emptyToken, lm)
  else if ttl ≤ 0 then (some .invalidTTL, lm)
  else if lm.stopped then (some .lockManagerStopped, lm)
  else
    match lm.locks key with
    | none => (some .lockNotHeld, lm)
    | some entry =>
      if entry.isExpired now then (some .lockExpired, lm.put key none)
      else if entry.token ≠ token then (some .invalidToken, lm)
      else (none, lm.put key (some { entry with expiresAt := now + ttl }))

end LockManager

end Solocoder.DistLock
