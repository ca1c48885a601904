import Solocoder.Raft.Proofs.LogShapeProofs
import Solocoder.Raft.Proofs.VoteProofs

/-!
# Steps of the cluster as sequences of moves

Every step of the cluster is a sequence of moves, each of which does one thing, after which a node
may win an election. An invariant of the moves is one of the steps.
-/

namespace Solocoder.Raft

open List Function Pending Multiset

variable {σ : Type}

/-- A leader does not give away its vote in the term it leads. -/
def KeepsVote (s : Cluster σ) : Action → Prop
  | .deliver (.voteRequest _ t req) =>
    (s.node t).state = .leader → (s.node t).currentTerm = req.term →
      ¬ ((s.node t).canVote req.candidateID = true ∧
        (s.node t).isLogUpToDate req.lastLogIndex req.lastLogTerm = true)
  | _ => True

instance (s : Cluster σ) : (a : Action) → Decidable (KeepsVote s a)
  | .deliver (.voteRequest _ _ _) => inferInstanceAs (Decidable (_ → _ → _))
  | .deliver (.election _) => isTrue trivial
  | .deliver (.voteReply _ _ _ _) => isTrue trivial
  | .deliver (.append _ _ _ _) => isTrue trivial
  | .deliver (.appendRequest _ _ _) => isTrue trivial
  | .deliver (.appendReply _ _ _) => isTrue trivial
  | .timeout _ => isTrue trivial
  | .heartbeat _ => isTrue trivial
  | .propose _ _ => isTrue trivial
  | .apply _ => isTrue trivial
  | .lose _ => isTrue trivial

/-- No leader gives away its vote in the term it leads, and no vote of an earlier election reaches a
candidate. -/
def SoundVotes (s : Cluster σ) (a : Action) : Prop := KeepsVote s a ∧ FreshVotes s a

instance (s : Cluster σ) (a : Action) : Decidable (SoundVotes s a) :=
  inferInstanceAs (Decidable (_ ∧ _))

namespace RaftNode

/-- What the invariants of elections and logs look at, `lastApplied` apart. -/
def coreView (n : RaftNode σ) :
    (String × NodeState × Nat × String × Finset String) ×
      (String × Configuration × Option JointConfiguration) × (List LogEntry × Nat × Nat) × Nat ×
      (String → Nat) :=
  (n.voteView, n.configView, n.logView, n.commitIndex, n.matchIndex)

theorem coreView_eq {m n : RaftNode σ} (h : m.coreView = n.coreView) :
    m.voteView = n.voteView ∧ m.configView = n.configView ∧ m.logView = n.logView ∧
      m.commitIndex = n.commitIndex ∧ m.matchIndex = n.matchIndex := by
  simpa [coreView] using h

/-- A candidate of the next term, before it counts its own vote. -/
def campaign (n : RaftNode σ) : RaftNode σ :=
  { n with
    state := .candidate
    currentTerm := n.currentTerm + 1
    votedFor := n.id
    votesReceived := {n.id}
    leaderID := "" }

theorem applyRounds_core (M : StateMachine σ) (k : Nat) :
    ∀ n : RaftNode σ, (applyRounds M k n).1.coreView = n.coreView ∧
      (applyRounds M k n).1.lastApplied = n.lastApplied + k := by
  induction k with
  | zero => intro n; exact ⟨rfl, rfl⟩
  | succ k ih =>
    intro n
    have hnext : (n.applyNext M).1.coreView = n.coreView ∧
        (n.applyNext M).1.lastApplied = n.lastApplied + 1 := by
      unfold applyNext
      simp only
      split
      · exact ⟨rfl, rfl⟩
      · split_ifs <;> exact ⟨rfl, rfl⟩
    obtain ⟨h1, h2⟩ := ih (n.applyNext M).1
    refine ⟨h1.trans hnext.1, ?_⟩
    show (applyRounds M k (n.applyNext M).1).1.lastApplied = _
    omega

theorem applyCommitted_core (M : StateMachine σ) (n : RaftNode σ) :
    (n.applyCommitted M).1.coreView = n.coreView ∧
      (n.applyCommitted M).1.lastApplied = max n.lastApplied n.commitIndex := by
  obtain ⟨h1, h2⟩ := applyRounds_core M (n.commitIndex - n.lastApplied) n
  refine ⟨h1, ?_⟩
  show (applyRounds M _ n).1.lastApplied = _
  omega

end RaftNode

open RaftNode Cluster

/-- Replies that grant nothing and acknowledge nothing. -/
def Pending.Refusal : Pending → Prop
  | .voteReply _ _ _ reply => reply.voteGranted = false
  | .appendReply _ _ reply => reply.success = false
  | _ => False

/-- One change of one node, or something new in flight. With `strict`, only the votes that
`SoundVotes` allows are given and counted. -/
inductive Move (strict : Prop) (ids : List String) (s : Cluster σ) : Cluster σ → Prop where
  /-- Fields change that no invariant looks at. -/
  | quiet (i : String) (n : RaftNode σ) (hcore : n.coreView = (s.node i).coreView)
      (hla : n.lastApplied = (s.node i).lastApplied) : Move strict ids s (s.setNode i n)
  /-- A node follows a later term. -/
  | follow (i : String) (T : Nat) (hT : (s.node i).currentTerm < T) :
      Move strict ids s (s.setNode i ((s.node i).becomeFollower T))
  /-- A candidate hears from a leader of its term. -/
  | stepDown (i t : String) (req : AppendEntriesRequest)
      (hp : appendRequest i t req ∈ s.pending)
      (hT : (s.node t).currentTerm = req.term) (hc : (s.node t).state = .candidate) :
      Move strict ids s (s.setNode t ((s.node t).becomeFollower req.term))
  /-- An election timer fires. -/
  | campaign (i : String) (hi : i ∈ ids) (hs : (s.node i).state ≠ .leader) :
      Move strict ids s (s.setNode i (s.node i).campaign)
  /-- An election is due to be started. -/
  | election (i : String) (hi : i ∈ ids) : Move strict ids s (s.post {.election i})
  /-- The requests of an election are sent. -/
  | request (i : String) (hp : election i ∈ s.pending) :
      Move strict ids s (s.post (requests (s.node i)))
  /-- A vote is given in the current term of the voter. -/
  | grant (c t : String) (req : RequestVoteRequest) (hp : voteRequest c t req ∈ s.pending)
      (hT : (s.node t).currentTerm = req.term) (hcan : (s.node t).canVote req.candidateID = true)
      (hup : (s.node t).isLogUpToDate req.lastLogIndex req.lastLogTerm = true)
      (hl : strict → (s.node t).state ≠ .leader) :
      Move strict ids s ((s.setNode t { s.node t with votedFor := req.candidateID }).post
        {.voteReply c req.term t { term := req.term, voteGranted := true }})
  /-- A reply says no. -/
  | refuse (p : Pending) (hp : p.Refusal) : Move strict ids s (s.post {p})
  /-- A candidate counts a vote. -/
  | count (c : String) (orig : Nat) (v : String) (reply : RequestVoteReply)
      (hp : voteReply c orig v reply ∈ s.pending) (hc : (s.node c).state = .candidate)
      (hg : reply.voteGranted = true) (ho : strict → orig = (s.node c).currentTerm) :
      Move strict ids s
        (s.setNode c { s.node c with votesReceived := insert v (s.node c).votesReceived })
  /-- A leader starts to send its log. -/
  | heartbeat (i : String) (hl : (s.node i).state = .leader) :
      Move strict ids s (s.post (appends (s.node i)))
  /-- A leader appends an entry of its term. -/
  | propose (i : String) (command : List UInt8) (hl : (s.node i).state = .leader) :
      Move strict ids s (s.setNode i ((s.node i).appendEntry
        { term := (s.node i).currentTerm, index := (s.node i).lastLogIndex + 1, type := .normal,
          command := command }))
  /-- The log is read and sent. -/
  | send (i t : String) (T c : Nat) (req : AppendEntriesRequest)
      (hp : append i t T c ∈ s.pending) (hr : (s.node i).sendTo t T c = .append req) :
      Move strict ids s (s.post {.appendRequest i t req})
  /-- A log is taken over in the current term of the node. -/
  | accept (i t : String) (req : AppendEntriesRequest) (reply : AppendEntriesReply)
      (hp : appendRequest i t req ∈ s.pending)
      (hT : (s.node t).currentTerm = req.term) (hc : (s.node t).state ≠ .candidate)
      (hprev : (s.node t).prevConflict req = none) (hrT : reply.term = req.term)
      (hrm : reply.matchIndex = req.prevLogIndex + req.entries.length) :
      Move strict ids s ((s.setNode t
        (((s.node t).insertEntries (req.prevLogIndex + 1) req.entries).followCommit req)).post
        {.appendReply i t reply})
  /-- A leader records an acknowledgement. -/
  | record (i t : String) (reply : AppendEntriesReply)
      (hp : appendReply i t reply ∈ s.pending) (hl : (s.node i).state = .leader)
      (hT : reply.term = (s.node i).currentTerm) (hs : reply.success = true) :
      Move strict ids s (s.setNode i
        { s.node i with
          matchIndex := update (s.node i).matchIndex t reply.matchIndex
          nextIndex := update (s.node i).nextIndex t (reply.matchIndex + 1) })
  /-- A leader commits. -/
  | commit (i : String) (k : Nat) (hl : (s.node i).state = .leader) (hk : 0 < k)
      (hcan : (s.node i).canCommit k = true) :
      Move strict ids s (s.setNode i { s.node i with commitIndex := k })
  /-- What is committed is applied. -/
  | apply (i : String) (n : RaftNode σ) (hcore : n.coreView = (s.node i).coreView)
      (hla : n.lastApplied = max (s.node i).lastApplied (s.node i).commitIndex) :
      Move strict ids s (s.setNode i n)

def Win (s s' : Cluster σ) : Prop :=
  ∃ i, (s.node i).state = .candidate ∧ (s.node i).hasQuorumOfVotes = true ∧
    s' = s.setNode i (s.node i).becomeLeader

namespace Cluster

variable {s : Cluster σ}

theorem setNode_node (s : Cluster σ) (i : String) : s.setNode i (s.node i) = s := by
  simp [setNode]

@[simp] theorem setNode_setNode (i : String) (n n' : RaftNode σ) :
    (s.setNode i n).setNode i n' = s.setNode i n' := by
  simp [setNode]

/-- Taking an item out of flight before or after it is processed makes no difference to the nodes.
-/
theorem process_take (s : Cluster σ) (p q : Pending) :
    ((s.take q).process p).node = (s.process p).node ∧
      ((s.take q).process p).pending ⊆ (s.process p).pending := by
  have hsub : ∀ ps : Multiset Pending, s.pending.erase q + ps ⊆ s.pending + ps := by
    intro ps x hx
    rcases mem_add.1 hx with hx | hx
    · exact mem_add.2 (Or.inl (mem_of_mem_erase hx))
    · exact mem_add.2 (Or.inr hx)
  have hsub' : s.pending.erase q ⊆ s.pending := erase_subset q s.pending
  cases p with
  | election i => exact ⟨rfl, hsub _⟩
  | voteRequest c t req => exact ⟨rfl, hsub _⟩
  | voteReply c orig v reply => exact ⟨rfl, hsub'⟩
  | append i t T c =>
    simp only [process, take_node]
    split
    · exact ⟨rfl, hsub _⟩
    · exact ⟨rfl, hsub'⟩
  | appendRequest i t req => exact ⟨rfl, hsub _⟩
  | appendReply i t reply => exact ⟨rfl, hsub'⟩

end Cluster

/-- `P` is kept by the moves and by a victory at the end of a step that leads to nodes `node`. -/
structure MoveInv (strict : Prop) (ids : List String) (node : String → RaftNode σ)
    (P : Cluster σ → Prop) : Prop where
  joint : ∀ {s}, P s → ∀ i, (s.node i).joint = none
  move : ∀ {s s'}, P s → Move strict ids s s' → P s'
  win : ∀ {s s'}, P s → Win s s' → s'.node = node → P s'
  less : ∀ {s s'}, P s → s'.node = s.node → s'.pending ⊆ s.pending → P s'

namespace MoveInv

variable {strict : Prop} {ids : List String} {node : String → RaftNode σ} {P : Cluster σ → Prop}
  {s : Cluster σ}

section

variable (hi : MoveInv strict ids node P)
include hi

theorem observeTerm (h : P s) (t : String) (T : Nat) :
    P (s.setNode t ((s.node t).observeTerm T)) := by
  rcases observeTerm_cases (s.node t) T with ⟨hlt, e⟩ | ⟨-, e⟩
  · rw [e]; exact hi.move h (.follow t T hlt)
  · rw [e, setNode_node]; exact h

theorem checkElectionWin (h : P s) {i : String}
    (hnode : (s.setNode i (s.node i).checkElectionWin).node = node) :
    P (s.setNode i (s.node i).checkElectionWin) := by
  rcases checkElectionWin_cases (s.node i) with ⟨hc, hq, e⟩ | ⟨-, e⟩
  · rw [e] at hnode ⊢
    exact hi.win h ⟨i, hc, hq, rfl⟩ hnode
  · rw [e, setNode_node]; exact h

variable {i t : String} {req : AppendEntriesRequest}

protected theorem followLeader (h : P s) (hp : appendRequest i t req ∈ s.pending)
    (hT : (s.node t).currentTerm = req.term) :
    P (s.setNode t ((s.node t).followLeader req)) := by
  by_cases hc : (s.node t).state = .candidate
  · have h1 : P (s.setNode t ((s.node t).becomeFollower req.term)) :=
      hi.move h (.stepDown i t req hp hT hc)
    have h2 := hi.move h1 (.quiet t ((s.node t).followLeader req) (by
      rw [setNode_self]
      unfold followLeader
      rw [if_pos hc]
      rfl) (by
      rw [setNode_self]
      unfold followLeader
      rw [if_pos hc]))
    rwa [setNode_setNode] at h2
  · refine hi.move h (.quiet t _ ?_ ?_)
    · unfold followLeader
      rw [if_neg hc]
      rfl
    · unfold followLeader
      rw [if_neg hc]

theorem handleRequestVote (h : P s) {c t : String}
    {req : RequestVoteRequest} (hp : voteRequest c t req ∈ s.pending)
    (hok : strict → KeepsVote s (.deliver (.voteRequest c t req))) :
    P ((s.setNode t ((s.node t).handleRequestVote req).1).post
      {.voteReply c req.term t ((s.node t).handleRequestVote req).2}) := by
  have hobs := hi.observeTerm h t req.term
  rcases handleRequestVote_cases (s.node t) req with ⟨hg, e⟩ | ⟨hg, hrt, hle, hcan, hup, e⟩
  · rw [e]
    exact hi.move hobs (.refuse _ hg)
  · have hreply : ((s.node t).handleRequestVote req).2 = { term := req.term, voteGranted := true } := by
      rw [← hrt, ← hg]
    have hT : ((s.node t).observeTerm req.term).currentTerm = req.term := by
      rw [observeTerm_currentTerm, max_eq_right hle]
    rw [e, hreply]
    have h2 := hi.move hobs (.grant c t req hp (by rw [setNode_self, hT])
      (by rw [setNode_self]; exact hcan) (by rw [setNode_self]; exact hup) (fun hst hl => ?_))
    · rwa [setNode_setNode, setNode_self] at h2
    · -- a node that has just followed a later term is no leader
      rw [setNode_self] at hl
      rcases observeTerm_cases (s.node t) req.term with ⟨-, e'⟩ | ⟨hge, e'⟩
      · rw [e'] at hl; cases hl
      · rw [e'] at hl hcan hup
        exact hok hst hl (le_antisymm hle hge) ⟨hcan, hup⟩

theorem handleRequestVoteReply (h : P s) {c v : String} {orig : Nat}
    {reply : RequestVoteReply} (hp : voteReply c orig v reply ∈ s.pending)
    (hok : strict → FreshVotes s (.deliver (.voteReply c orig v reply)))
    (hnode : (s.setNode c ((s.node c).handleRequestVoteReply orig v reply)).node = node) :
    P (s.setNode c ((s.node c).handleRequestVoteReply orig v reply)) := by
  rcases handleRequestVoteReply_cases (s.node c) orig v reply with
    e | ⟨-, hlt, e⟩ | ⟨hc, hg, e⟩ | ⟨hc, e⟩
  · rw [e, setNode_node]; exact h
  · rw [e]; exact hi.move h (.follow c reply.term hlt)
  · rw [e] at hnode ⊢
    have h1 := hi.move h (.count c orig v reply hp hc hg fun hst => hok hst hc hg)
    set u := s.setNode c { s.node c with votesReceived := insert v (s.node c).votesReceived } with hu
    have hself : u.node c = { s.node c with votesReceived := insert v (s.node c).votesReceived } :=
      setNode_self _ _
    have hset : ∀ n, u.setNode c n = s.setNode c n := fun n => setNode_setNode _ _ _
    rw [← hself, ← hset] at hnode ⊢
    exact hi.checkElectionWin h1 hnode
  · rw [e] at hnode ⊢
    exact hi.checkElectionWin h hnode

theorem handleAppendEntries (h : P s) (hp : appendRequest i t req ∈ s.pending) :
    P ((s.setNode t ((s.node t).handleAppendEntries req).1).post
      {.appendReply i t ((s.node t).handleAppendEntries req).2}) := by
  have hfollow : (s.node t).currentTerm ≤ req.term →
      P (s.setNode t (((s.node t).observeTerm req.term).followLeader req)) ∧
        ((s.node t).observeTerm req.term).currentTerm = req.term := by
    intro hle
    have hT : ((s.node t).observeTerm req.term).currentTerm = req.term := by
      rw [observeTerm_currentTerm, max_eq_right hle]
    have h2 := hi.followLeader (hi.observeTerm h t req.term) (i := i) hp
      (by rw [setNode_self]; exact hT)
    rw [setNode_setNode, setNode_self] at h2
    exact ⟨h2, hT⟩
  rcases handleAppendEntries_cases (s.node t) req with
    ⟨-, e, hs, -⟩ | ⟨hle, e, hs, -⟩ | ⟨hle, hprev, e, -, hrt, hrm⟩
  · rw [e, setNode_node]
    exact hi.move h (.refuse _ hs)
  · rw [e]
    exact hi.move (hfollow hle).1 (.refuse _ hs)
  · obtain ⟨h2, hT⟩ := hfollow hle
    -- the node follows the leader in the term of the request and is no candidate any more
    have hfT : (((s.node t).observeTerm req.term).followLeader req).currentTerm = req.term := by
      unfold followLeader
      split_ifs
      · rfl
      · exact hT
    have hfc : (((s.node t).observeTerm req.term).followLeader req).state ≠ .candidate := by
      unfold followLeader
      split_ifs with hc
      · nofun
      · exact hc
    have hterm : ((s.node t).handleAppendEntries req).2.term = req.term := by
      rw [hrt, e]
      exact (voteView_eq (accept_voteView _ _ req)).2.2.1.trans hfT
    have h3 := hi.move h2 (.accept i t req _ hp (by rw [setNode_self]; exact hfT)
      (by rw [setNode_self]; exact hfc) (by rw [setNode_self]; exact hprev) hterm hrm)
    rw [setNode_setNode, setNode_self] at h3
    rw [e]
    exact h3

theorem foldl_tryCommit {i : String} {ks : List Nat} :
    ∀ {n : RaftNode σ}, (∀ k ∈ ks, 0 < k) → n.state = .leader → P (s.setNode i n) →
      P (s.setNode i (ks.foldl tryCommit n)) := by
  induction ks with
  | nil => intro n _ _ h; exact h
  | cons k ks ih =>
    intro n hpos hl h
    have hks : ∀ k' ∈ ks, 0 < k' := fun k' hk' => hpos k' (mem_cons_of_mem k hk')
    have hst : (n.tryCommit k).state = .leader := by
      unfold tryCommit
      split_ifs <;> exact hl
    refine ih hks hst ?_
    by_cases hc : n.canCommit k = true
    · have h1 := hi.move h (.commit i k (by rw [setNode_self, hl]) (hpos k (mem_cons_self ..))
        (by rw [setNode_self, hc]))
      rw [setNode_setNode, setNode_self] at h1
      rwa [tryCommit, if_pos hc]
    · rwa [tryCommit, if_neg hc]

theorem handleAppendEntriesReply (h : P s)
    {reply : AppendEntriesReply} (hp : appendReply i t reply ∈ s.pending) :
    P (s.setNode i ((s.node i).handleAppendEntriesReply t reply)) := by
  rcases handleAppendEntriesReply_cases (s.node i) t reply with
    e | ⟨-, hlt, e⟩ | ⟨hl, hT, hs, e⟩ | ⟨-, e⟩
  · rw [e, setNode_node]; exact h
  · rw [e]; exact hi.move h (.follow i reply.term hlt)
  · have h1 := hi.move h (.record i t reply hp hl hT hs)
    rw [e, checkConfigProgress_of_joint_none, updateCommitIndex, if_neg (not_not.2 hl)]
    · refine hi.foldl_tryCommit (fun k hk => ?_) hl h1
      have := mem_range'.1 hk
      omega
    · obtain ⟨c, hc⟩ := updateCommitIndex_eq { s.node i with
        matchIndex := update (s.node i).matchIndex t reply.matchIndex
        nextIndex := update (s.node i).nextIndex t (reply.matchIndex + 1) }
      rw [hc]
      exact hi.joint h i
  · rw [e]
    exact hi.move h (.quiet i _ rfl rfl)

protected theorem process (h : P s) {p : Pending} (hp : p ∈ s.pending)
    (hok : strict → SoundVotes s (.deliver p)) (hnode : (s.process p).node = node) :
    P (s.process p) := by
  cases p with
  | election i => exact hi.move h (.request i hp)
  | voteRequest c t req => exact hi.handleRequestVote h hp fun hst => (hok hst).1
  | voteReply c orig v reply =>
    exact hi.handleRequestVoteReply h hp (fun hst => (hok hst).2) hnode
  | append i t T c =>
    simp only [process]
    split
    · rename_i req hr
      exact hi.move h (.send i t T c req hp hr)
    · exact h
  | appendRequest i t req => exact hi.handleAppendEntries h hp
  | appendReply i t reply => exact hi.handleAppendEntriesReply h hp

end

protected theorem step {M : StateMachine σ} {s' : Cluster σ} {a : Action} (hi : MoveInv strict ids s'.node P)
    (h : P s) (hok : strict → SoundVotes s a) (hs : s.step M ids a = some s') : P s' := by
  cases a with
  | timeout i =>
    simp only [step] at hs
    split_ifs at hs with hc
    obtain ⟨hmem, hst, -⟩ := hc
    cases hs
    -- the order of the two parts does not matter, the victory comes last
    have h1 : P (s.post {.election i}) := hi.move h (.election i hmem)
    have h2 := hi.move h1 (.campaign i hmem hst)
    have h3 := hi.checkElectionWin h2 (i := i) (by
      rw [setNode_setNode, setNode_self]
      rfl)
    rw [setNode_setNode, setNode_self] at h3
    exact h3
  | heartbeat i =>
    simp only [step] at hs
    split_ifs at hs with hc
    cases hs
    exact hi.move h (.heartbeat i hc.2)
  | propose i command =>
    simp only [step] at hs
    split_ifs at hs with hc
    split at hs
    · rename_i n hn
      cases hs
      obtain ⟨hl, rfl⟩ := propose_ok hn
      exact hi.move h (.propose i command hl)
    · cases hs
  | apply i =>
    simp only [step] at hs
    split_ifs at hs with hc
    cases hs
    obtain ⟨h1, h2⟩ := applyCommitted_core M (s.node i)
    exact hi.move h (.apply i _ h1 h2)
  | deliver p =>
    simp only [step] at hs
    split_ifs at hs with hp
    cases hs
    obtain ⟨h1, h2⟩ := process_take s p p
    exact hi.less (hi.process h hp hok h1.symm) h1 h2
  | lose p =>
    simp only [step] at hs
    split_ifs at hs with hp
    cases hs
    exact hi.less h rfl (erase_subset p s.pending)

end MoveInv

end Solocoder.Raft
