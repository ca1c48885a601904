import Solocoder.Raft.Cluster

/-!
# What one critical section can do

Every handler is described once by the ways in which it can end, guards included; the invariants of
the cluster are proved from these descriptions.
-/

namespace Solocoder.Raft

open List Function

namespace RaftNode

variable {σ : Type} (n : RaftNode σ)

theorem observeTerm_cases (t : Nat) :
    (n.currentTerm < t ∧ n.observeTerm t = n.becomeFollower t) ∨
      (t ≤ n.currentTerm ∧ n.observeTerm t = n) := by
  unfold observeTerm
  split_ifs with h
  · exact Or.inl ⟨h, rfl⟩
  · exact Or.inr ⟨Nat.le_of_not_lt h, rfl⟩

theorem observeTerm_currentTerm (t : Nat) :
    (n.observeTerm t).currentTerm = max n.currentTerm t := by
  rcases observeTerm_cases n t with ⟨h, e⟩ | ⟨h, e⟩
  · rw [e, max_eq_right h.le]; rfl
  · rw [e, max_eq_left h]

theorem checkElectionWin_cases :
    (n.state = .candidate ∧ n.hasQuorumOfVotes = true ∧ n.checkElectionWin = n.becomeLeader) ∨
      ((n.state = .candidate → n.hasQuorumOfVotes = false) ∧ n.checkElectionWin = n) := by
  unfold checkElectionWin
  split_ifs with h
  · exact Or.inl ⟨h.1, h.2, rfl⟩
  · refine Or.inr ⟨fun hc => ?_, rfl⟩
    by_contra hq
    exact h ⟨hc, by simpa using hq⟩

/-- `HandleRequestVote` refuses and at most follows the later term, or it grants its vote in the
term of the request. -/
theorem handleRequestVote_cases (req : RequestVoteRequest) :
    ((n.handleRequestVote req).2.voteGranted = false ∧
        (n.handleRequestVote req).1 = n.observeTerm req.term) ∨
      ((n.handleRequestVote req).2.voteGranted = true ∧
        (n.handleRequestVote req).2.term = req.term ∧
        n.currentTerm ≤ req.term ∧
        (n.observeTerm req.term).canVote req.candidateID = true ∧
        (n.observeTerm req.term).isLogUpToDate req.lastLogIndex req.lastLogTerm = true ∧
        (n.handleRequestVote req).1 =
          { n.observeTerm req.term with votedFor := req.candidateID }) := by
  have ht := observeTerm_currentTerm n req.term
  unfold handleRequestVote
  simp only
  split_ifs with h1 h2
  · exact Or.inl ⟨rfl, rfl⟩
  · simp only [Bool.and_eq_true] at h2
    have hle : n.currentTerm ≤ req.term := by omega
    refine Or.inr ⟨rfl, ?_, hle, h2.1, h2.2, rfl⟩
    rw [ht, max_eq_right hle]
  · exact Or.inl ⟨rfl, rfl⟩

/-- `handleRequestVoteReply` does nothing, follows a later term, or counts the vote and looks
whether the election is won. -/
theorem handleRequestVoteReply_cases (orig : Nat) (voter : String) (reply : RequestVoteReply) :
    n.handleRequestVoteReply orig voter reply = n ∨
      (n.state = .candidate ∧ n.currentTerm < reply.term ∧
        n.handleRequestVoteReply orig voter reply = n.becomeFollower reply.term) ∨
      (n.state = .candidate ∧ reply.voteGranted = true ∧ n.handleRequestVoteReply orig voter reply =
          checkElectionWin { n with votesReceived := insert voter n.votesReceived }) ∨
      (n.state = .candidate ∧ n.handleRequestVoteReply orig voter reply = n.checkElectionWin) := by
  unfold handleRequestVoteReply
  split_ifs with h1 h2 h3 h4
  · exact Or.inl rfl
  · exact Or.inr (Or.inl ⟨not_not.1 h1, h2, rfl⟩)
  · exact Or.inl rfl
  · exact Or.inr (Or.inr (Or.inl ⟨not_not.1 h1, h4, rfl⟩))
  · exact Or.inr (Or.inr (Or.inr ⟨not_not.1 h1, rfl⟩))

/-- `HandleAppendEntries` refuses an earlier term, or follows the leader and reports a conflict or
takes over the entries and the commit index. -/
theorem handleAppendEntries_cases (req : AppendEntriesRequest) :
    (req.term < n.currentTerm ∧ (n.handleAppendEntries req).1 = n ∧
        (n.handleAppendEntries req).2.success = false ∧
        (n.handleAppendEntries req).2.term = n.currentTerm) ∨
      (n.currentTerm ≤ req.term ∧
        (n.handleAppendEntries req).1 = (n.observeTerm req.term).followLeader req ∧
        (n.handleAppendEntries req).2.success = false ∧
        (n.handleAppendEntries req).2.term = n.currentTerm) ∨
      (n.currentTerm ≤ req.term ∧
        ((n.observeTerm req.term).followLeader req).prevConflict req = none ∧
        (n.handleAppendEntries req).1 =
          (((n.observeTerm req.term).followLeader req).insertEntries (req.prevLogIndex + 1)
            req.entries).followCommit req ∧
        (n.handleAppendEntries req).2.success = true ∧
        (n.handleAppendEntries req).2.term = (n.handleAppendEntries req).1.currentTerm ∧
        (n.handleAppendEntries req).2.matchIndex = req.prevLogIndex + req.entries.length) := by
  have ht := observeTerm_currentTerm n req.term
  unfold handleAppendEntries
  simp only
  split_ifs with h1
  · have hlt : req.term < n.currentTerm := by omega
    have he : n.observeTerm req.term = n := by
      rcases observeTerm_cases n req.term with ⟨h, -⟩ | ⟨-, e⟩
      · omega
      · exact e
    exact Or.inl ⟨hlt, he, rfl, by rw [he]⟩
  · have hle : n.currentTerm ≤ req.term := by omega
    cases hc : ((n.observeTerm req.term).followLeader req).prevConflict req with
    | some c => exact Or.inr (Or.inl ⟨hle, rfl, rfl, rfl⟩)
    | none => exact Or.inr (Or.inr ⟨hle, rfl, rfl, rfl, rfl, rfl⟩)

/-- `handleAppendEntriesReply` does nothing, follows a later term, records an acknowledgement of its
own term, or backs off. -/
theorem handleAppendEntriesReply_cases (target : String) (reply : AppendEntriesReply) :
    n.handleAppendEntriesReply target reply = n ∨ (n.state = .leader ∧ n.currentTerm < reply.term ∧
        n.handleAppendEntriesReply target reply = n.becomeFollower reply.term) ∨
      (n.state = .leader ∧ reply.term = n.currentTerm ∧ reply.success = true ∧
        n.handleAppendEntriesReply target reply = checkConfigProgress (updateCommitIndex
            { n with
              matchIndex := update n.matchIndex target reply.matchIndex
              nextIndex := update n.nextIndex target (reply.matchIndex + 1) })) ∨
      (n.state = .leader ∧ n.handleAppendEntriesReply target reply =
          { n with nextIndex := update n.nextIndex target (n.backOff reply) }) := by
  unfold handleAppendEntriesReply
  split_ifs with h1 h2 h3 h4
  · exact Or.inl rfl
  · exact Or.inr (Or.inl ⟨not_not.1 h1, h2, rfl⟩)
  · exact Or.inl rfl
  · exact Or.inr (Or.inr (Or.inl ⟨not_not.1 h1, by omega, h4, rfl⟩))
  · exact Or.inr (Or.inr (Or.inr ⟨not_not.1 h1, rfl⟩))

theorem propose_ok {n n' : RaftNode σ} {command : List UInt8} (h : n.propose command = .ok n') :
    n.state = .leader ∧ n' = n.appendEntry
        { term := n.currentTerm, index := n.lastLogIndex + 1, type := .normal,
          command := command } := by
  unfold propose at h
  split_ifs at h with h1 h2 h3 h4
  exact ⟨not_not.1 h2, (Except.ok.inj h).symm⟩

def voteView : String × NodeState × Nat × String × Finset String :=
  (n.id, n.state, n.currentTerm, n.votedFor, n.votesReceived)

theorem voteView_eq {m n : RaftNode σ} (h : m.voteView = n.voteView) :
    m.id = n.id ∧ m.state = n.state ∧ m.currentTerm = n.currentTerm ∧ m.votedFor = n.votedFor ∧
      m.votesReceived = n.votesReceived := by
  simpa [voteView] using h

def configView : String × Configuration × Option JointConfiguration :=
  (n.id, n.config, n.joint)

theorem configView_eq {m n : RaftNode σ} (h : m.configView = n.configView) :
    m.id = n.id ∧ m.config = n.config ∧ m.joint = n.joint := by
  simpa [configView] using h

theorem followCommit_eq (req : AppendEntriesRequest) :
    ∃ c, n.followCommit req = { n with commitIndex := c } := by
  unfold followCommit
  split_ifs <;> exact ⟨_, rfl⟩

theorem insertEntries_eq (i : Nat) (es : List LogEntry) :
    ∃ l o, n.insertEntries i es = { n with log := l, logOffset := o } := by
  induction es generalizing n i with
  | nil => exact ⟨_, _, rfl⟩
  | cons e es ih =>
    have hone : ∃ l o, n.insertEntry i e = { n with log := l, logOffset := o } := by
      unfold insertEntry truncateLog appendEntry
      repeat' split
      all_goals exact ⟨_, _, rfl⟩
    obtain ⟨l, o, h⟩ := hone
    rw [insertEntries, h]
    exact ih _ (i + 1)

theorem accept_voteView (i : Nat) (req : AppendEntriesRequest) :
    ((n.insertEntries i req.entries).followCommit req).voteView = n.voteView := by
  obtain ⟨l, o, hl⟩ := n.insertEntries_eq i req.entries
  obtain ⟨c, hc⟩ := (n.insertEntries i req.entries).followCommit_eq req
  rw [hc, hl]
  rfl

theorem foldl_tryCommit_eq (is : List Nat) (n : RaftNode σ) :
    ∃ c, is.foldl tryCommit n = { n with commitIndex := c } := by
  induction is generalizing n with
  | nil => exact ⟨_, rfl⟩
  | cons i is ih =>
    rw [foldl_cons, tryCommit]
    split_ifs
    · exact ih { n with commitIndex := i }
    · exact ih n

theorem updateCommitIndex_eq : ∃ c, n.updateCommitIndex = { n with commitIndex := c } := by
  unfold updateCommitIndex
  split_ifs
  · exact ⟨_, rfl⟩
  · exact foldl_tryCommit_eq _ n

theorem checkConfigProgress_of_joint_none {n : RaftNode σ} (h : n.joint = none) :
    n.checkConfigProgress = n := by
  unfold checkConfigProgress
  rw [h]

theorem applyRounds_voteView (M : StateMachine σ) (k : Nat) (n : RaftNode σ) :
    (applyRounds M k n).1.voteView = n.voteView := by
  induction k generalizing n with
  | zero => rfl
  | succ k ih =>
    have hnext : (n.applyNext M).1.voteView = n.voteView := by
      unfold applyNext
      simp only
      split
      · rfl
      · split_ifs <;> rfl
    exact (ih (n.applyNext M).1).trans hnext

end RaftNode

namespace Cluster

variable {σ : Type} {s : Cluster σ}

@[simp] theorem setNode_self (i : String) (n : RaftNode σ) : (s.setNode i n).node i = n := by
  simp [setNode]

theorem setNode_of_ne {i j : String} (h : j ≠ i) (n : RaftNode σ) :
    (s.setNode i n).node j = s.node j := by
  simp [setNode, h]

@[simp] theorem take_node (p : Pending) : (s.take p).node = s.node := rfl

theorem mem_of_mem_take {p q : Pending} (h : q ∈ (s.take p).pending) : q ∈ s.pending :=
  Multiset.mem_of_mem_erase h

theorem mem_requests {n : RaftNode σ} {q : Pending} (h : q ∈ requests n) :
    ∃ t ∈ n.currentNodes, q = .voteRequest n.id t n.voteRequest := by
  obtain ⟨t, ht, rfl⟩ := Multiset.mem_map.1 h
  exact ⟨t, Finset.mem_of_mem_erase ht, rfl⟩

theorem mem_appends {n : RaftNode σ} {q : Pending} (h : q ∈ appends n) :
    ∃ t, t ≠ n.id ∧ q = .append n.id t n.currentTerm n.commitIndex := by
  obtain ⟨t, ht, rfl⟩ := Multiset.mem_map.1 h
  exact ⟨t, Finset.ne_of_mem_erase ht, rfl⟩

end Cluster

/-- The node whose critical section processes an item. -/
def Pending.actor : Pending → String
  | .election i => i
  | .voteRequest _ t _ => t
  | .voteReply c _ _ _ => c
  | .append i _ _ _ => i
  | .appendRequest _ t _ => t
  | .appendReply i _ _ => i

/-- The node that takes a step. -/
def Action.actor : Action → String
  | .timeout i => i
  | .heartbeat i => i
  | .propose i _ => i
  | .apply i => i
  | .deliver p => p.actor
  | .lose p => p.actor

variable {σ : Type} {i : String}

theorem Cluster.process_of_ne_actor {s : Cluster σ} {p : Pending} (hi : i ≠ p.actor) :
    (s.process p).node i = s.node i := by
  cases p with
  | election j => rfl
  | voteRequest c t req => exact setNode_of_ne hi _
  | voteReply c orig v reply => exact setNode_of_ne hi _
  | append j t T c =>
    simp only [process]
    split <;> rfl
  | appendRequest j t req => exact setNode_of_ne hi _
  | appendReply j t reply => exact setNode_of_ne hi _

theorem Cluster.step_of_ne_actor {M : StateMachine σ} {ids : List String} {s s' : Cluster σ}
    {a : Action} (hs : s.step M ids a = some s') (hi : i ≠ a.actor) :
    s'.node i = s.node i := by
  cases a with
  | timeout j =>
    simp only [step] at hs
    split_ifs at hs
    cases hs
    exact setNode_of_ne hi _
  | heartbeat j =>
    simp only [step] at hs
    split_ifs at hs
    cases hs
    rfl
  | propose j command =>
    simp only [step] at hs
    split_ifs at hs
    split at hs
    · cases hs; exact setNode_of_ne hi _
    · cases hs
  | apply j =>
    simp only [step] at hs
    split_ifs at hs
    cases hs
    exact setNode_of_ne hi _
  | deliver p =>
    simp only [step] at hs
    split_ifs at hs
    cases hs
    exact process_of_ne_actor hi
  | lose p =>
    simp only [step] at hs
    split_ifs at hs
    cases hs
    rfl

theorem Run.leader_acted {M : StateMachine σ} {ids : List String} {sm : String → σ}
    {ok : Cluster σ → Action → Prop} {hist : List (Cluster σ × Action)} {s : Cluster σ}
    (h : Run M ids sm ok hist s) (hl : (s.node i).state = .leader) :
    i ∈ hist.map fun x => x.2.actor := by
  induction h with
  | init => cases hl
  | @step hist s s' a _ _ hs ih =>
    by_cases hi : i = a.actor
    · rw [hi]; exact mem_cons_self ..
    · rw [Cluster.step_of_ne_actor hs hi] at hl
      exact mem_cons_of_mem _ (ih hl)

end Solocoder.Raft
