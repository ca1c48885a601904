import Solocoder.Raft.Node

/-!
# A cluster of Raft nodes with a fixed membership

A state holds every node and the multiset of everything under way: requests and replies, and the
goroutines that have released the lock in the middle of `handleElectionTimeout` and
`sendHeartbeats`. A step is one critical section of one node, or the loss of something in flight, in
any order.
-/

namespace Solocoder.Raft

/-- What is under way between two critical sections. -/
inductive Pending where
  /-- `handleElectionTimeout` of `node` has called `becomeCandidate`, `startElection` is next. -/
  | election (node : String)
  /-- A `RequestVote` request of `candidate` to `target`. -/
  | voteRequest (candidate target : String) (req : RequestVoteRequest)
  /-- The answer of `voter` to a request `candidate` sent in `originalTerm`. -/
  | voteReply (candidate : String) (originalTerm : Nat) (voter : String) (reply : RequestVoteReply)
  /-- The goroutine of `sendHeartbeats` for `target`, with what was read before it started. -/
  | append (node target : String) (term commitIndex : Nat)
  /-- An `AppendEntries` request of `node` to `target`. -/
  | appendRequest (node target : String) (req : AppendEntriesRequest)
  /-- The answer of `target` to an `AppendEntries` request of `node`. -/
  | appendReply (node target : String) (reply : AppendEntriesReply)
  deriving DecidableEq

/-- The nodes of the cluster and what is in flight between them. -/
structure Cluster (σ : Type) where
  node : String → RaftNode σ
  pending : Multiset Pending

/-- What happens next. -/
inductive Action where
  /-- The election timer of a node fires: `handleElectionTimeout` up to `becomeCandidate`. -/
  | timeout (node : String)
  /-- A call of `sendHeartbeats`, from the timer or a goroutine, up to the release of the lock. -/
  | heartbeat (node : String)
  /-- A client calls `Propose`. -/
  | propose (node : String) (command : List UInt8)
  /-- One pass of `applyLoop`. -/
  | apply (node : String)
  /-- Something in flight is processed. -/
  | deliver (p : Pending)
  /-- Something in flight is lost. -/
  | lose (p : Pending)

namespace Cluster

variable {σ : Type}

/-- `NewCluster` followed by `Start`: every node knows the membership `ids`. -/
def init (ids : List String) (sm : String → σ) : Cluster σ where
  node := fun i => (newRaftNode i (sm i) ids).start
  pending := 0

variable (s : Cluster σ)

/-- Replace the node `i`. -/
def setNode (i : String) (n : RaftNode σ) : Cluster σ :=
  { s with node := Function.update s.node i n }

/-- Put items in flight. -/
def post (ps : Multiset Pending) : Cluster σ := { s with pending := s.pending + ps }

/-- Take an item out of flight. -/
def take (p : Pending) : Cluster σ := { s with pending := s.pending.erase p }

/-- The requests of `startElection`. -/
def requests (n : RaftNode σ) : Multiset Pending :=
  (n.currentNodes.erase n.id).val.map fun t => .voteRequest n.id t n.voteRequest

/-- The goroutines of `sendHeartbeats`. -/
def appends (n : RaftNode σ) : Multiset Pending :=
  (n.currentNodes.erase n.id).val.map fun t => .append n.id t n.currentTerm n.commitIndex

/-- The critical section that processes an item in flight. A snapshot that `sendHeartbeats` sends
instead of entries counts as lost. -/
def process : Pending → Cluster σ
  | .election i => s.post (requests (s.node i))
  | .voteRequest c t req =>
    let r := (s.node t).handleRequestVote req
    (s.setNode t r.1).post {.voteReply c req.term t r.2}
  | .voteReply c orig voter reply =>
    s.setNode c ((s.node c).handleRequestVoteReply orig voter reply)
  | .append i t term commit =>
    match (s.node i).sendTo t term commit with
    | .append req => s.post {.appendRequest i t req}
    | .snapshot .. => s
  | .appendRequest i t req =>
    let r := (s.node t).handleAppendEntries req
    (s.setNode t r.1).post {.appendReply i t r.2}
  | .appendReply i t reply => s.setNode i ((s.node i).handleAppendEntriesReply t reply)

/-- One step of the cluster with the members `ids`. -/
def step (M : StateMachine σ) (ids : List String) (s : Cluster σ) : Action → Option (Cluster σ)
  | .timeout i =>
    if i ∈ ids ∧ (s.node i).state ≠ .leader ∧ (s.node i).running then
      some ((s.setNode i (s.node i).becomeCandidate).post {.election i})
    else none
  | .heartbeat i =>
    if i ∈ ids ∧ (s.node i).state = .leader then some (s.post (appends (s.node i))) else none
  | .propose i command =>
    if i ∈ ids then
      match (s.node i).propose command with
      | .ok n => some (s.setNode i n)
      | .error _ => none
    else none
  | .apply i =>
    if i ∈ ids then some (s.setNode i ((s.node i).applyCommitted M).1) else none
  | .deliver p => if p ∈ s.pending then some ((s.take p).process p) else none
  | .lose p => if p ∈ s.pending then some (s.take p) else none

/-- The state after a list of actions, if every one of them can be taken and satisfies `ok`. -/
def runActions (M : StateMachine σ) (ids : List String) (ok : Cluster σ → Action → Prop)
    [∀ s a, Decidable (ok s a)] (s : Cluster σ) : List Action → Option (Cluster σ)
  | [] => some s
  | a :: as => if ok s a then (s.step M ids a).bind fun s' => s'.runActions M ids ok as else none

end Cluster

variable {σ : Type}

/-- The runs of a cluster whose every step satisfies `ok`: the steps, the latest first, each with
the state before it, and the state reached. -/
inductive Run (M : StateMachine σ) (ids : List String) (sm : String → σ)
    (ok : Cluster σ → Action → Prop) : List (Cluster σ × Action) → Cluster σ → Prop where
  /-- The run that has not started. -/
  | init : Run M ids sm ok [] (Cluster.init ids sm)
  /-- One more step. -/
  | step {hist : List (Cluster σ × Action)} {s s' : Cluster σ} {a : Action}
      (h : Run M ids sm ok hist s) (hok : ok s a) (hs : s.step M ids a = some s') :
      Run M ids sm ok ((s, a) :: hist) s'

/-- All runs. -/
abbrev AnyRun (M : StateMachine σ) (ids : List String) (sm : String → σ) :
    List (Cluster σ × Action) → Cluster σ → Prop :=
  Run M ids sm fun _ _ => True

theorem Run.append_runActions {M : StateMachine σ} {ids : List String} {sm : String → σ}
    {ok : Cluster σ → Action → Prop} [∀ s a, Decidable (ok s a)] {as : List Action} :
    ∀ {hist : List (Cluster σ × Action)} {s s' : Cluster σ}, Run M ids sm ok hist s →
      s.runActions M ids ok as = some s' →
      ∃ hist', Run M ids sm ok hist' s' ∧ hist'.map Prod.snd = as.reverse ++ hist.map Prod.snd := by
  induction as with
  | nil =>
    intro hist s s' h hs
    simp only [Cluster.runActions, Option.some.injEq] at hs
    subst hs
    exact ⟨hist, h, rfl⟩
  | cons a as ih =>
    intro hist s s' h hs
    simp only [Cluster.runActions] at hs
    split_ifs at hs with hok
    obtain ⟨s1, h1, h2⟩ := Option.bind_eq_some_iff.1 hs
    obtain ⟨hist', h3, h4⟩ := ih (h.step hok h1) h2
    exact ⟨hist', h3, by rw [h4]; simp⟩

/-- A list of actions from the initial state is a run. -/
theorem Run.of_runActions (M : StateMachine σ) (ids : List String) (sm : String → σ)
    (ok : Cluster σ → Action → Prop) [∀ s a, Decidable (ok s a)] (as : List Action)
    (p : Cluster σ → Prop) [DecidablePred p]
    (h : ((Cluster.init ids sm).runActions M ids ok as).any (fun s => decide (p s)) = true) :
    ∃ hist s, Run M ids sm ok hist s ∧ hist.map Prod.snd = as.reverse ∧ p s := by
  cases hr : (Cluster.init ids sm).runActions M ids ok as with
  | none => rw [hr] at h; cases h
  | some s =>
    rw [hr] at h
    obtain ⟨hist, h1, h2⟩ := Run.init.append_runActions hr
    exact ⟨hist, s, h1, by simpa using h2, of_decide_eq_true h⟩

end Solocoder.Raft
