import Solocoder.Raft.Node

/-!
# Sequences of calls on one node

The exported methods and reply handlers of a `RaftNode`. A call that fails leaves the node as it is.
-/

namespace Solocoder.Raft

/-- A call on a node. -/
inductive Call where
  | start
  | timeout
  | requestVote (req : RequestVoteRequest)
  | voteReply (originalTerm : Nat) (voter : String) (reply : RequestVoteReply)
  | appendEntries (req : AppendEntriesRequest)
  | appendReply (target : String) (reply : AppendEntriesReply)
  | installSnapshot (req : InstallSnapshotRequest)
  | snapshotReply (target : String) (reply : InstallSnapshotReply)
  | propose (command : List UInt8)
  | addNode (nodeID : String)
  | removeNode (nodeID : String)
  | compactLog (index : Nat)
  | applyCommitted

/-- The entries of an `AppendEntries` request carry consecutive indices from `PrevLogIndex + 1` on,
as `sendHeartbeats` builds them. -/
def AppendEntriesRequest.Consecutive (req : AppendEntriesRequest) : Prop :=
  ∀ k e, req.entries[k]? = some e → e.index = req.prevLogIndex + 1 + k

/-- The requests of a call are ones the package builds. -/
def Call.WellFormed : Call → Prop
  | .appendEntries req => req.Consecutive
  | _ => True

namespace RaftNode

variable {σ : Type}

/-- The node after a call. -/
def call (M : StateMachine σ) (n : RaftNode σ) : Call → RaftNode σ
  | .start => n.start
  | .timeout => if n.state = .leader ∨ !n.running then n else n.becomeCandidate
  | .requestVote req => (n.handleRequestVote req).1
  | .voteReply orig voter reply => n.handleRequestVoteReply orig voter reply
  | .appendEntries req => (n.handleAppendEntries req).1
  | .appendReply target reply => n.handleAppendEntriesReply target reply
  | .installSnapshot req => (n.handleInstallSnapshot M req).1
  | .snapshotReply target reply => n.handleInstallSnapshotReply target reply
  | .propose command => (n.propose command).toOption.getD n
  | .addNode nodeID => (n.addNode nodeID).toOption.getD n
  | .removeNode nodeID => (n.removeNode nodeID).toOption.getD n
  | .compactLog index => (n.compactLog index).toOption.getD n
  | .applyCommitted => (n.applyCommitted M).1

variable (n : RaftNode σ)

/-- Position `k` of the log holds the entry with index `logOffset + k`. -/
def Aligned : Prop := ∀ k e, n.log[k]? = some e → e.index = n.logOffset + k

/-- The call would append to an empty log: a method of the leader that passes its checks, or an
accepted `AppendEntries` request from the beginning of the log that reaches past the snapshot. -/
def appendsToEmpty : Call → Prop
  | .propose _ =>
    n.snapshotInFlight = 0 ∧ n.state = .leader ∧ n.running ∧ n.configChangeInFlight = false
  | .addNode x => n.state = .leader ∧ n.configChangeInFlight = false ∧ x ∉ n.config.nodes
  | .removeNode x =>
    n.state = .leader ∧ n.configChangeInFlight = false ∧ x ∈ n.config.nodes ∧
      n.config.nodes.erase x ≠ ∅
  | .appendEntries req =>
    n.currentTerm ≤ req.term ∧ req.prevLogIndex = 0 ∧ n.logOffset < req.entries.length
  | _ => False

/-- The call does not append to an empty log. -/
def CallOk (c : Call) : Prop := n.log = [] → ¬ n.appendsToEmpty c

end RaftNode

/-- The states a node reaches from `NewRaftNode` by well-formed calls that satisfy `ok` in the state
they start from. -/
inductive CallRun {σ : Type} (M : StateMachine σ) (n₀ : RaftNode σ)
    (ok : RaftNode σ → Call → Prop) : RaftNode σ → Prop where
  | init : CallRun M n₀ ok n₀
  | call {n : RaftNode σ} {c : Call} (h : CallRun M n₀ ok n) (hwf : c.WellFormed) (hok : ok n c) :
      CallRun M n₀ ok (n.call M c)

end Solocoder.Raft
