import Mathlib.Tactic

/-!
# The Raft node of `internal/raftlog`

The bodies of the critical sections of a `RaftNode`, as pure functions on its state. Methods that
release `n.mu` in between are cut there, and `Solocoder.Raft.Cluster` interleaves the pieces.

Indices and terms are natural numbers; the conflict term of a reply is `-1` for "the log is too
short". Go maps with boolean values are finite sets, maps to `int` are total functions that read `0`
where no key is stored. Timers, channels and locks are left out.
-/

namespace Solocoder.Raft

inductive NodeState where
  | follower
  | candidate
  | leader
  deriving DecidableEq, Repr

inductive LogEntryType where
  | normal
  | configJoint
  | configNew
  deriving DecidableEq, Repr

/-- `LogEntry`; the command is a byte string. -/
structure LogEntry where
  term : Nat
  index : Nat
  type : LogEntryType
  command : List UInt8
  deriving DecidableEq, Repr

/-- `Configuration`: the set of node ids. -/
structure Configuration where
  nodes : Finset String
  deriving DecidableEq

namespace Configuration

/-- `NewConfiguration`. -/
def new (nodes : List String) : Configuration := ⟨nodes.toFinset⟩

def contains (c : Configuration) (nodeID : String) : Bool := decide (nodeID ∈ c.nodes)

/-- `Quorum`: a strict majority. -/
def quorum (c : Configuration) : Nat := c.nodes.card / 2 + 1

end Configuration

structure JointConfiguration where
  old : Configuration
  new : Configuration
  deriving DecidableEq

structure Snapshot where
  lastIncludedIndex : Nat
  lastIncludedTerm : Nat
  config : Option Configuration
  data : List UInt8

/-- `RequestVoteRequest`; `IsConfig` is never read. -/
structure RequestVoteRequest where
  term : Nat
  candidateID : String
  lastLogIndex : Nat
  lastLogTerm : Nat
  deriving DecidableEq, Repr

structure RequestVoteReply where
  term : Nat
  voteGranted : Bool
  deriving DecidableEq, Repr

structure AppendEntriesRequest where
  term : Nat
  leaderID : String
  prevLogIndex : Nat
  prevLogTerm : Nat
  entries : List LogEntry
  leaderCommit : Nat
  deriving DecidableEq, Repr

structure AppendEntriesReply where
  term : Nat
  success : Bool
  matchIndex : Nat
  conflictTerm : Int
  conflictIndex : Nat
  deriving DecidableEq, Repr

structure InstallSnapshotRequest where
  term : Nat
  leaderID : String
  lastIncludedIndex : Nat
  lastIncludedTerm : Nat
  config : Option Configuration
  data : List UInt8

structure InstallSnapshotReply where
  term : Nat
  success : Bool
  deriving DecidableEq, Repr

/-- The errors the modelled methods return. -/
inductive RaftError where
  | notLeader
  | nodeStopped
  | configChangeInFlight
  | snapshotInstalling
  | nodeExists
  | nodeNotFound
  | emptyConfig
  | invalidIndex
  deriving DecidableEq, Repr

/-- The `StateMachine` interface, as supplied by the user of the package: each method returns the
new state and possibly an error. -/
structure StateMachine (σ : Type) where
  /-- `Apply`. -/
  apply : σ → LogEntry → σ × Option String
  /-- `ApplySnapshot`. -/
  applySnapshot : σ → Snapshot → σ × Option String

/-- The state machine that ignores what it is given. -/
def StateMachine.idle : StateMachine Unit where
  apply := fun s _ => (s, none)
  applySnapshot := fun s _ => (s, none)

/-- The fields of `RaftNode` that its methods read. -/
structure RaftNode (σ : Type) where
  id : String
  state : NodeState
  sm : σ
  currentTerm : Nat
  votedFor : String
  log : List LogEntry
  logOffset : Nat
  commitIndex : Nat
  lastApplied : Nat
  nextIndex : String → Nat
  matchIndex : String → Nat
  votesReceived : Finset String
  leaderID : String
  config : Configuration
  joint : Option JointConfiguration
  configCommitted : Bool
  running : Bool
  lastSnapshotIndex : Nat
  lastSnapshotTerm : Nat
  configChangeInFlight : Bool
  snapshotInFlight : Nat

/-- The entry every log starts with. -/
def sentinel : LogEntry := { term := 0, index := 0, type := .normal, command := [] }

/-- `NewRaftNode`, before `Start`. -/
def newRaftNode {σ : Type} (id : String) (sm : σ) (initialNodes : List String) : RaftNode σ where
  id := id
  state := .follower
  sm := sm
  currentTerm := 0
  votedFor := ""
  log := [sentinel]
  logOffset := 0
  commitIndex := 0
  lastApplied := 0
  nextIndex := fun _ => 0
  matchIndex := fun _ => 0
  votesReceived := ∅
  leaderID := ""
  config := Configuration.new initialNodes
  joint := none
  configCommitted := false
  running := false
  lastSnapshotIndex := 0
  lastSnapshotTerm := 0
  configChangeInFlight := false
  snapshotInFlight := 0

namespace RaftNode

variable {σ : Type} (n : RaftNode σ) (req : AppendEntriesRequest) (jc : JointConfiguration)
  (M : StateMachine σ) (target : String) (reply : AppendEntriesReply) (index : Nat)

def start : RaftNode σ := { n with running := true }

/-- `lastLogIndex`: the `Index` field of the last entry, the offset of an empty log. -/
def lastLogIndex : Nat :=
  match n.log.getLast? with
  | none => n.logOffset
  | some e => e.index

def lastLogTerm : Nat :=
  match n.log.getLast? with
  | none => n.lastSnapshotTerm
  | some e => e.term

/-- `getLogEntry`: the entry at position `index - logOffset`, whatever its `Index` field says. -/
def getLogEntry : Option LogEntry :=
  if index < n.logOffset then none else n.log[index - n.logOffset]?

def appendEntry (e : LogEntry) : RaftNode σ := { n with log := n.log ++ [e] }

def truncateLog : RaftNode σ :=
  if index < n.logOffset then { n with log := [], logOffset := index }
  else if index - n.logOffset < n.log.length then { n with log := n.log.take (index - n.logOffset) }
  else n

def currentNodes : Finset String :=
  match n.joint with
  | some jc => jc.old.nodes ∪ jc.new.nodes
  | none => n.config.nodes

def becomeFollower (term : Nat) : RaftNode σ :=
  { n with state := .follower, currentTerm := term, votedFor := "", leaderID := "" }

/-- `becomeLeader`: the vote is cleared and every peer starts at the end of the log. -/
def becomeLeader : RaftNode σ :=
  { n with
    state := .leader
    votedFor := ""
    leaderID := n.id
    nextIndex := fun p => if p ∈ n.currentNodes.erase n.id then n.lastLogIndex + 1 else n.nextIndex p
    matchIndex := fun p => if p ∈ n.currentNodes.erase n.id then 0 else n.matchIndex p }

/-- The vote count of `checkElectionWin`: under a joint configuration both majorities, otherwise the
number of votes against the quorum. -/
def hasQuorumOfVotes : Bool :=
  match n.joint with
  | some jc =>
    decide (jc.old.quorum ≤ (n.votesReceived.filter (· ∈ jc.old.nodes)).card ∧
      jc.new.quorum ≤ (n.votesReceived.filter (· ∈ jc.new.nodes)).card)
  | none => decide (n.config.quorum ≤ n.votesReceived.card)

/-- `checkElectionWin`. The `go n.sendHeartbeats()` it starts is a `heartbeat` step of the cluster. -/
def checkElectionWin : RaftNode σ :=
  if n.state = .candidate ∧ n.hasQuorumOfVotes then n.becomeLeader else n

def becomeCandidate : RaftNode σ :=
  checkElectionWin
    { n with
      state := .candidate
      currentTerm := n.currentTerm + 1
      votedFor := n.id
      votesReceived := {n.id}
      leaderID := "" }

/-- The request `startElection` sends to every other node, from the state it reads under the lock. -/
def voteRequest : RequestVoteRequest where
  term := n.currentTerm
  candidateID := n.id
  lastLogIndex := n.lastLogIndex
  lastLogTerm := n.lastLogTerm

def isLogUpToDate (otherIndex otherTerm : Nat) : Bool :=
  decide (n.lastLogTerm < otherTerm) ||
    (decide (otherTerm = n.lastLogTerm) && decide (n.lastLogIndex ≤ otherIndex))

/-- The first lines of every request handler: a request from a later term makes the node a follower
of that term. -/
def observeTerm (term : Nat) : RaftNode σ :=
  if n.currentTerm < term then n.becomeFollower term else n

/-- `canVote` of `HandleRequestVote`. -/
def canVote (candidateID : String) : Bool :=
  decide (n.votedFor = "") || decide (n.votedFor = candidateID)

def handleRequestVote (req : RequestVoteRequest) : RaftNode σ × RequestVoteReply :=
  let n := n.observeTerm req.term
  if req.term < n.currentTerm then (n, { term := n.currentTerm, voteGranted := false })
  else if n.canVote req.candidateID && n.isLogUpToDate req.lastLogIndex req.lastLogTerm then
    ({ n with votedFor := req.candidateID }, { term := n.currentTerm, voteGranted := true })
  else (n, { term := n.currentTerm, voteGranted := false })

/-- `handleRequestVoteReply`. The reply is compared with the term the election was started in, never
that term with the current one. -/
def handleRequestVoteReply (originalTerm : Nat) (voterID : String)
    (reply : RequestVoteReply) : RaftNode σ :=
  if n.state ≠ .candidate then n
  else if n.currentTerm < reply.term then n.becomeFollower reply.term
  else if reply.term < originalTerm then n
  else if reply.voteGranted then
    checkElectionWin { n with votesReceived := insert voterID n.votesReceived }
  else n.checkElectionWin

/-- What one goroutine of `sendHeartbeats` sends. -/
inductive Outgoing where
  | append (req : AppendEntriesRequest)
  | snapshot (term lastIncludedIndex lastIncludedTerm : Nat) (config : Configuration)

/-- The goroutine of `sendHeartbeats` for `target`: `term` and `commitIndex` were read under an
earlier acquisition of the lock, `nextIndex` and the log are read now. -/
def sendTo (term commitIndex : Nat) : Outgoing :=
  let nextIdx := if n.nextIndex target = 0 then n.lastLogIndex + 1 else n.nextIndex target
  if nextIdx ≤ n.logOffset then
    .snapshot n.currentTerm n.lastSnapshotIndex n.lastSnapshotTerm n.config
  else
    let prevLogIndex := nextIdx - 1
    let prevLogTerm :=
      if n.logOffset ≤ prevLogIndex then ((n.getLogEntry prevLogIndex).map (·.term)).getD 0
      else if prevLogIndex + 1 = n.logOffset ∧ prevLogIndex = n.lastSnapshotIndex then
        n.lastSnapshotTerm
      else 0
    let entries := if nextIdx ≤ n.lastLogIndex then n.log.drop (nextIdx - n.logOffset) else []
    .append
      { term := term
        leaderID := n.id
        prevLogIndex := prevLogIndex
        prevLogTerm := prevLogTerm
        entries := entries
        leaderCommit := commitIndex }

/-- One round of the append loop of `HandleAppendEntries`. -/
def insertEntry (insertIdx : Nat) (e : LogEntry) : RaftNode σ :=
  if insertIdx ≤ n.lastLogIndex then
    match n.getLogEntry insertIdx with
    | some existing =>
      if existing.term ≠ e.term then (n.truncateLog insertIdx).appendEntry e else n
    | none => n
  else n.appendEntry e

/-- The append loop of `HandleAppendEntries`. -/
def insertEntries (n : RaftNode σ) (insertIdx : Nat) : List LogEntry → RaftNode σ
  | [] => n
  | e :: es => (n.insertEntry insertIdx e).insertEntries (insertIdx + 1) es

/-- The search for `ConflictIndex`: from `prevLogIndex - 1` down to the offset, the first entry
whose term differs from the conflict term (any entry when that is `0`). -/
def conflictIndex (prevLogIndex : Nat) (conflictTerm : Nat) : Nat :=
  let found := (List.range' n.logOffset (prevLogIndex - n.logOffset)).reverse.find? fun i =>
    match n.getLogEntry i with
    | some e => decide (conflictTerm = 0 ∨ e.term ≠ conflictTerm)
    | none => false
  match found with
  | some i => i + 1
  | none => n.logOffset + 1

/-- The consistency check of `HandleAppendEntries` on the previous entry: `none` when the request is
accepted, otherwise the conflict term and index of the reply. -/
def prevConflict : Option (Int × Nat) :=
  if req.prevLogIndex = 0 then none
  else if req.prevLogIndex < n.logOffset then
    if req.prevLogIndex = n.lastSnapshotIndex ∧ n.lastSnapshotTerm = req.prevLogTerm then none
    else some (n.lastSnapshotTerm, n.logOffset + 1)
  else if n.lastLogIndex < req.prevLogIndex then some (-1, n.lastLogIndex + 1)
  else
    match n.getLogEntry req.prevLogIndex with
    | none => some (0, n.conflictIndex req.prevLogIndex 0)
    | some prev =>
      if prev.term = req.prevLogTerm then none
      else some (prev.term, n.conflictIndex req.prevLogIndex prev.term)

/-- The commit index a follower takes from an accepted request. -/
def followCommit : RaftNode σ :=
  if n.commitIndex < req.leaderCommit then
    { n with commitIndex := min req.leaderCommit (req.prevLogIndex + req.entries.length) }
  else n

/-- The state of `HandleAppendEntries` once the term has been checked: a candidate steps down,
which clears its vote in the same term. -/
def followLeader : RaftNode σ :=
  { (if n.state = .candidate then n.becomeFollower req.term else n) with leaderID := req.leaderID }

/-- `HandleAppendEntries`. A conflict reply keeps the term the node had on entry. -/
def handleAppendEntries : RaftNode σ × AppendEntriesReply :=
  let entryTerm := n.currentTerm
  let n := n.observeTerm req.term
  if req.term < n.currentTerm then
    (n, { term := n.currentTerm, success := false, matchIndex := 0, conflictTerm := 0,
          conflictIndex := 0 })
  else
    let n := n.followLeader req
    match n.prevConflict req with
    | some (ct, ci) =>
      (n, { term := entryTerm, success := false, matchIndex := 0, conflictTerm := ct,
            conflictIndex := ci })
    | none =>
      let n := (n.insertEntries (req.prevLogIndex + 1) req.entries).followCommit req
      (n, { term := n.currentTerm, success := true,
            matchIndex := req.prevLogIndex + req.entries.length, conflictTerm := 0,
            conflictIndex := 0 })

/-- The counting loop over one configuration: the members whose match index reaches `i`, and one for
the node itself whether or not it is a member. -/
def matchCount (c : Configuration) (i : Nat) : Nat :=
  1 + ((c.nodes.erase n.id).filter (fun p => i ≤ n.matchIndex p)).card

/-- Both counts of a joint configuration reach their quorum at `i`. -/
def jointMatch (i : Nat) : Bool :=
  decide (jc.old.quorum ≤ n.matchCount jc.old i) && decide (jc.new.quorum ≤ n.matchCount jc.new i)

/-- The condition under which one round of `updateCommitIndex` sets `commitIndex` to `i`. -/
def canCommit (i : Nat) : Bool :=
  match n.getLogEntry i with
  | none => false
  | some e =>
    decide (e.term = n.currentTerm) &&
      match n.joint with
      | some jc => decide (e.type = .normal) && n.jointMatch jc i
      | none => decide (n.config.quorum ≤ n.matchCount n.config i)

/-- One round of the loop of `updateCommitIndex`. -/
def tryCommit (i : Nat) : RaftNode σ :=
  if n.canCommit i then { n with commitIndex := i } else n

/-- The indices the loops over the uncommitted log visit, in ascending order. -/
def uncommitted : List Nat :=
  List.range' (n.commitIndex + 1) (n.lastLogIndex - n.commitIndex)

def updateCommitIndex : RaftNode σ :=
  if n.state ≠ .leader then n else n.uncommitted.foldl tryCommit n

/-- Whether the log has an entry of type `ty` at `i`. -/
def hasType (ty : LogEntryType) (i : Nat) : Bool :=
  match n.getLogEntry i with
  | none => false
  | some e => decide (e.type = ty)

/-- The first half of `checkConfigProgress`: commit the oldest uncommitted joint entry and append
the entry of the new configuration. The heartbeats it starts are a step of the cluster. -/
def progressJoint : RaftNode σ :=
  match n.uncommitted.find? (n.hasType .configJoint) with
  | none => n
  | some i =>
    if n.jointMatch jc i then
      let n := { n with commitIndex := i }
      n.appendEntry
        { term := n.currentTerm, index := n.lastLogIndex + 1, type := .configNew, command := [] }
    else n

/-- The second half of `checkConfigProgress`: commit the newest uncommitted entry of a new
configuration and install that configuration. -/
def progressNew : RaftNode σ :=
  match n.uncommitted.reverse.find? (n.hasType .configNew) with
  | none => n
  | some i =>
    if n.jointMatch jc i then
      { n with
        commitIndex := i
        config := jc.new
        joint := none
        configCommitted := true
        configChangeInFlight := false }
    else n

def checkConfigProgress : RaftNode σ :=
  match n.joint with
  | none => n
  | some jc => if n.state ≠ .leader then n else (n.progressJoint jc).progressNew jc

/-- Where `handleAppendEntriesReply` restarts after a conflict: behind the last own entry of the
conflict term, or at the conflict index, but never below `1`. -/
def backOff : Nat :=
  let next :=
    if reply.conflictTerm < 0 then reply.conflictIndex
    else
      let found := (List.range' n.logOffset (n.lastLogIndex + 1 - n.logOffset)).reverse.find? fun i =>
        match n.getLogEntry i with
        | some e => decide ((e.term : Int) = reply.conflictTerm)
        | none => false
      match found with
      | some i => i + 1
      | none => reply.conflictIndex
  if next < 1 then 1 else next

def handleAppendEntriesReply : RaftNode σ :=
  if n.state ≠ .leader then n
  else if n.currentTerm < reply.term then n.becomeFollower reply.term
  else if reply.term < n.currentTerm then n
  else if reply.success then
    checkConfigProgress <| updateCommitIndex
      { n with
        matchIndex := Function.update n.matchIndex target reply.matchIndex
        nextIndex := Function.update n.nextIndex target (reply.matchIndex + 1) }
  else { n with nextIndex := Function.update n.nextIndex target (n.backOff reply) }

/-- One round of the loop of `applyCommitted`, with the entry it hands on, if any. Configuration
entries are reported but not applied to the state machine. -/
def applyNext (n : RaftNode σ) : RaftNode σ × Option LogEntry :=
  let n := { n with lastApplied := n.lastApplied + 1 }
  match n.getLogEntry n.lastApplied with
  | none => (n, none)
  | some e =>
    if e.type = .normal then ({ n with sm := (M.apply n.sm e).1 }, some e) else (n, some e)

/-- `rounds` rounds of `applyCommitted`, with the pairs of the step number and the entry applied. -/
def applyRounds (M : StateMachine σ) : Nat → RaftNode σ → RaftNode σ × List (Nat × LogEntry)
  | 0, n => (n, [])
  | k + 1, n =>
    let r := n.applyNext M
    let rest := applyRounds M k r.1
    (rest.1, (r.2.map (fun e => (n.lastApplied + 1, e))).toList ++ rest.2)

/-- `applyCommitted`: the loop runs while `lastApplied < commitIndex`. -/
def applyCommitted (n : RaftNode σ) : RaftNode σ × List (Nat × LogEntry) :=
  applyRounds M (n.commitIndex - n.lastApplied) n

def propose (command : List UInt8) : Except RaftError (RaftNode σ) :=
  if 0 < n.snapshotInFlight then .error .snapshotInstalling
  else if n.state ≠ .leader then .error .notLeader
  else if !n.running then .error .nodeStopped
  else if n.configChangeInFlight then .error .configChangeInFlight
  else
    .ok (n.appendEntry
      { term := n.currentTerm, index := n.lastLogIndex + 1, type := .normal, command := command })

/-- The common end of `AddNode` and `RemoveNode`: enter the joint configuration and append its
entry. -/
def enterJoint (newConfig : Configuration) : RaftNode σ :=
  { n.appendEntry
      { term := n.currentTerm, index := n.lastLogIndex + 1, type := .configJoint, command := [] } with
    joint := some { old := n.config, new := newConfig }
    configChangeInFlight := true
    configCommitted := false }

def addNode (nodeID : String) : Except RaftError (RaftNode σ) :=
  if n.state ≠ .leader then .error .notLeader
  else if n.configChangeInFlight then .error .configChangeInFlight
  else if n.config.contains nodeID then .error .nodeExists
  else .ok (n.enterJoint ⟨insert nodeID n.config.nodes⟩)

def removeNode (nodeID : String) : Except RaftError (RaftNode σ) :=
  if n.state ≠ .leader then .error .notLeader
  else if n.configChangeInFlight then .error .configChangeInFlight
  else if !n.config.contains nodeID then .error .nodeNotFound
  else if n.config.nodes.erase nodeID = ∅ then .error .emptyConfig
  else .ok (n.enterJoint ⟨n.config.nodes.erase nodeID⟩)

/-- `HandleInstallSnapshot`. The log is emptied and the offset set to the last included index. -/
def handleInstallSnapshot (n : RaftNode σ) (req : InstallSnapshotRequest) :
    RaftNode σ × InstallSnapshotReply :=
  let entryTerm := n.currentTerm
  let n := n.observeTerm req.term
  if req.term < n.currentTerm then (n, { term := n.currentTerm, success := false })
  else if req.lastIncludedIndex ≤ n.lastSnapshotIndex then (n, { term := entryTerm, success := true })
  else
    let snap : Snapshot :=
      { lastIncludedIndex := req.lastIncludedIndex
        lastIncludedTerm := req.lastIncludedTerm
        config := req.config
        data := req.data }
    let r := M.applySnapshot n.sm snap
    match r.2 with
    | some _ => ({ n with sm := r.1 }, { term := entryTerm, success := false })
    | none =>
      ({ n with
          sm := r.1
          lastSnapshotIndex := req.lastIncludedIndex
          lastSnapshotTerm := req.lastIncludedTerm
          logOffset := req.lastIncludedIndex
          log := []
          config := req.config.getD n.config
          commitIndex := max n.commitIndex req.lastIncludedIndex
          lastApplied := max n.lastApplied req.lastIncludedIndex },
        { term := entryTerm, success := true })

def handleInstallSnapshotReply (reply : InstallSnapshotReply) : RaftNode σ :=
  if n.state ≠ .leader then n
  else if n.currentTerm < reply.term then n.becomeFollower reply.term
  else if reply.term < n.currentTerm then n
  else if reply.success then
    { n with
      matchIndex := Function.update n.matchIndex target n.lastSnapshotIndex
      nextIndex := Function.update n.nextIndex target (n.lastSnapshotIndex + 1) }
  else n

/-- `CompactLog`. The entry at the new offset stays in the log. -/
def compactLog : Except RaftError (RaftNode σ) :=
  if n.commitIndex < index then .error .invalidIndex
  else if index ≤ n.logOffset then .ok n
  else
    match n.getLogEntry index with
    | none => .error .invalidIndex
    | some e =>
      .ok { n with
        lastSnapshotIndex := index
        lastSnapshotTerm := e.term
        log := n.log.drop (index - n.logOffset)
        logOffset := index }

end RaftNode

end Solocoder.Raft
