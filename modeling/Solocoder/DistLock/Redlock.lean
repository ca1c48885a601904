import Solocoder.DistLock.Manager

/-!
# `Redlock`

A call goes from node call to node call and from clock reading to clock reading; in between other
calls go on and time passes.
-/

namespace Solocoder.DistLock

structure RedlockConfig where
  acquireTimeout : Int
  retryDelay : Int
  clockDrift : Int

def defaultRedlockConfig : RedlockConfig := ⟨5000000000, 100000000, 50000000⟩

/-- `NewRedlockWithConfig`: the configuration of a `Redlock` over `nodeCount` nodes. -/
def newRedlockWithConfig (nodeCount : Nat) (cfg : RedlockConfig) : Except LockErr RedlockConfig :=
  if nodeCount = 0 then .error .invalidNodeCount
  else if nodeCount % 2 = 0 then .error .invalidNodeCount
  else if cfg.acquireTimeout < 0 then .error .invalidTTL
  else if cfg.retryDelay < 0 then .error .invalidTTL
  else if cfg.clockDrift < 0 then .error .invalidTTL
  else
    let cfg := if cfg.acquireTimeout = 0 then
      { cfg with acquireTimeout := defaultRedlockConfig.acquireTimeout } else cfg
    let cfg := if cfg.retryDelay = 0 then
      { cfg with retryDelay := defaultRedlockConfig.retryDelay } else cfg
    .ok cfg

def majority (nodeCount : Nat) : Nat := nodeCount / 2 + 1

/-- `LockAcquisition`. -/
structure Acquisition where
  key : String
  token : String
  expiry : Int
  nodeExpiries : List (Nat × Int)
  nodeCount : Nat
  successCount : Nat
  /-- The client has called `Unlock` with it. -/
  released : Bool
  deriving DecidableEq

/-- `IsValid`, for an acquisition that is not released. -/
def Acquisition.isValid (a : Acquisition) (now : Int) : Bool := !a.released && (now < a.expiry)

/-- What a call does. -/
inductive Kind where
  /-- `Lock` with its deadline, or `TryLock`. -/
  | lock (deadline : Option Int)
  | heartbeat
  | unlock
  deriving DecidableEq

/-- How far a call is. -/
inductive Phase where
  /-- In front of `attemptLock`. -/
  | enter
  /-- In the loop over the nodes, of which `todo` remain. -/
  | collect (todo : List Nat) (expiries : List (Nat × Int))
  /-- Behind a successful call of node `i`, made at the time `since`, and in front of the reading of
  the clock for it. -/
  | stamp (i : Nat) (since : Int) (todo : List Nat) (expiries : List (Nat × Int))
  /-- Behind that loop. -/
  | settle (expiries : List (Nat × Int))
  /-- In the loop of `rollbackPartialLock` or `Unlock`, with what the calls so far returned. -/
  | giveBack (todo : List Nat) (succeeded failed : Bool)
  | done (err : Option LockErr)
  deriving DecidableEq

/-- A call of a client. -/
structure Call where
  cfg : RedlockConfig
  kind : Kind
  key : String
  token : String
  ttl : Int
  phase : Phase

/-- The nodes, the calls in progress and the acquisitions that have been returned. A node is its
position in the slice of nodes, which stands for its `ID`: the identifiers are taken to be unique. -/
structure System where
  nodeCount : Nat
  now : Int
  nodes : Nat → LockManager
  calls : List Call
  acquisitions : List Acquisition

/-- What can happen. -/
inductive Event where
  | tick (d : Nat)
  | lock (cfg : RedlockConfig) (key token : String) (ttl : Int)
  | tryLock (cfg : RedlockConfig) (key token : String) (ttl : Int)
  /-- `Unlock` with acquisition number `a`. -/
  | unlock (cfg : RedlockConfig) (a : Nat)
  /-- `Heartbeat` with acquisition number `a`. -/
  | heartbeat (cfg : RedlockConfig) (a : Nat) (ttl : Int)
  /-- Call number `c` goes on; a loop over a map takes the remaining node number `choice`. -/
  | step (c choice : Nat)

/-- The smallest expiry, less the clock drift. -/
def minExpiry (cfg : RedlockConfig) : List (Nat × Int) → Int
  | [] => -cfg.clockDrift
  | (_, e) :: expiries => expiries.foldl (fun m p => min m p.2) e - cfg.clockDrift

/-- Which of the remaining nodes comes next: the first one, or any one in a loop over a map. -/
def Call.next (c : Call) (choice : Nat) : Nat :=
  match c.kind, c.phase with
  | .lock _, .collect _ _ => 0
  | .unlock, _ => 0
  | _, _ => choice

namespace System

variable (s : System)

def setPhase (n : Nat) (c : Call) (phase : Phase) : System :=
  { s with calls := s.calls.set n { c with phase := phase } }

/-- Node `i` has changed. -/
def setNode (i : Nat) (lm : LockManager) : System :=
  { s with nodes := Function.update s.nodes i lm }

/-- The node call in the loop of `attemptLock` or `Heartbeat`. -/
def ask (c : Call) (i : Nat) : Option LockErr × LockManager :=
  match c.kind with
  | .lock _ => (s.nodes i).lock s.now c.key c.token c.ttl
  | _ => (s.nodes i).heartbeat s.now c.key c.token c.ttl

/-- One turn of the loop over the nodes. -/
def collect (s : System) (n : Nat) (c : Call) (i : Nat) (todo : List Nat)
    (expiries : List (Nat × Int)) : System :=
  let answer := s.ask c i
  let s := s.setNode i answer.2
  if answer.1 = none then s.setPhase n c (.stamp i s.now todo expiries)
  else s.setPhase n c (.collect todo expiries)

/-- The end of `attemptLock` or `Heartbeat`. -/
def settle (n : Nat) (c : Call) (expiries : List (Nat × Int)) : System :=
  if expiries.length < majority s.nodeCount ∨ ¬ s.now < minExpiry c.cfg expiries then
    match c.kind with
    | .lock _ => s.setPhase n c (.giveBack (expiries.map Prod.fst) false false)
    | _ => s.setPhase n c (.done (some .quorumNotReached))
  else
    let s := s.setPhase n c (.done none)
    { s with acquisitions := s.acquisitions ++
      [⟨c.key, c.token, minExpiry c.cfg expiries, expiries, s.nodeCount, expiries.length, false⟩] }

/-- One turn of the loop of `rollbackPartialLock` or `Unlock`. -/
def giveBack (s : System) (n : Nat) (c : Call) (i : Nat) (todo : List Nat)
    (succeeded failed : Bool) : System :=
  let answer := (s.nodes i).unlock s.now c.key c.token
  (s.setNode i answer.2).setPhase n c
    (.giveBack todo (succeeded || answer.1 = none) (failed || answer.1 ≠ none))

/-- A call goes on. -/
def advance (n : Nat) (c : Call) (choice : Nat) : System :=
  match c.phase with
  | .enter =>
    match c.kind with
    | .lock (some deadline) =>
      if deadline < s.now then s.setPhase n c (.done (some .quorumNotReached))
      else s.setPhase n c (.collect (List.range s.nodeCount) [])
    | _ => s.setPhase n c (.collect (List.range s.nodeCount) [])
  | .collect [] expiries => s.setPhase n c (.settle expiries)
  | .collect todo expiries =>
    match todo[c.next choice]? with
    | some i => s.collect n c i (todo.eraseIdx (c.next choice)) expiries
    | none => s
  | .stamp i _ todo expiries => s.setPhase n c (.collect todo (expiries ++ [(i, s.now + c.ttl)]))
  | .settle expiries => s.settle n c expiries
  | .giveBack [] succeeded failed =>
    match c.kind with
    | .lock (some deadline) =>
      if deadline < s.now then s.setPhase n c (.done (some .quorumNotReached))
      else s.setPhase n c .enter
    | .lock none => s.setPhase n c (.done (some .quorumNotReached))
    | _ => s.setPhase n c (.done (if !succeeded && failed then some .nodeFailure else none))
  | .giveBack todo succeeded failed =>
    match todo[c.next choice]? with
    | some i => s.giveBack n c i (todo.eraseIdx (c.next choice)) succeeded failed
    | none => s
  | .done _ => s

/-- A call that has passed its first checks. -/
def start (c : Call) : System := { s with calls := s.calls ++ [c] }

/-- `Lock` and `TryLock` up to the first attempt. -/
def startLock (cfg : RedlockConfig) (kind : Kind) (key token : String) (ttl : Int) : System :=
  if key = "" then s.start ⟨cfg, kind, key, token, ttl, .done (some .emptyKey)⟩
  else if token = "" then s.start ⟨cfg, kind, key, token, ttl, .done (some .emptyToken)⟩
  else if ttl ≤ 0 then s.start ⟨cfg, kind, key, token, ttl, .done (some .invalidTTL)⟩
  else s.start ⟨cfg, kind, key, token, ttl, .enter⟩

/-- What an event does. -/
def step (s : System) : Event → System
  | .tick d => { s with now := s.now + d }
  | .lock cfg key token ttl =>
    match newRedlockWithConfig s.nodeCount cfg with
    | .ok cfg => s.startLock cfg (.lock (some (s.now + cfg.acquireTimeout))) key token ttl
    | .error _ => s
  | .tryLock cfg key token ttl =>
    match newRedlockWithConfig s.nodeCount cfg with
    | .ok cfg => s.startLock cfg (.lock none) key token ttl
    | .error _ => s
  | .unlock cfg a =>
    match newRedlockWithConfig s.nodeCount cfg, s.acquisitions[a]? with
    | .ok cfg, some acq =>
      { s with acquisitions := s.acquisitions.set a { acq with released := true } }.start
        ⟨cfg, .unlock, acq.key, acq.token, 0, .giveBack (List.range s.nodeCount) false false⟩
    | _, _ => s
  | .heartbeat cfg a ttl =>
    match newRedlockWithConfig s.nodeCount cfg, s.acquisitions[a]? with
    | .ok cfg, some acq =>
      if ttl ≤ 0 then
        s.start ⟨cfg, .heartbeat, acq.key, acq.token, ttl, .done (some .invalidTTL)⟩
      else s.start ⟨cfg, .heartbeat, acq.key, acq.token, ttl,
        .collect (acq.nodeExpiries.map Prod.fst) []⟩
    | _, _ => s
  | .step n choice =>
    match s.calls[n]? with
    | some c => s.advance n c choice
    | none => s

/-- The state after some events. -/
def run (events : List Event) : System := events.foldl step s

end System

end Solocoder.DistLock
