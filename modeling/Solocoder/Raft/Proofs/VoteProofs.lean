import Solocoder.Raft.Proofs.HandlerProofs

/-!
# Vote accounting

`handleRequestVoteReply` compares the term the election was started in with the term of the reply
only: a late vote of an earlier election is counted towards the new term.
-/

namespace Solocoder.Raft

open List Cluster Function Pending

variable {σ : Type}

/-- In one of the steps taken, `voter` answered a `RequestVote` request of `candidate` for term
`term` with its vote. -/
def Answered (hist : List (Cluster σ × Action)) (candidate voter : String) (term : Nat) : Prop :=
  ∃ s req, (s, Action.deliver (.voteRequest candidate voter req)) ∈ hist ∧
    req.candidateID = candidate ∧ req.term = term ∧
    ((s.node voter).handleRequestVote req).2.voteGranted = true

variable {hist : List (Cluster σ × Action)}

theorem Answered.cons {c v : String} {t : Nat}
    (h : Answered hist c v t) (x : Cluster σ × Action) : Answered (x :: hist) c v t := by
  obtain ⟨s, req, hmem, hrest⟩ := h
  exact ⟨s, req, mem_cons_of_mem x hmem, hrest⟩

/-- A vote that reaches a candidate was given in the candidate's current term. -/
def FreshVotes (s : Cluster σ) : Action → Prop
  | .deliver (.voteReply c orig _ reply) =>
    (s.node c).state = .candidate → reply.voteGranted = true → orig = (s.node c).currentTerm
  | _ => True

instance (s : Cluster σ) : (a : Action) → Decidable (FreshVotes s a)
  | .deliver (.voteReply _ _ _ _) => inferInstanceAs (Decidable (_ → _ → _))
  | .deliver (.election _) => isTrue trivial
  | .deliver (.voteRequest _ _ _) => isTrue trivial
  | .deliver (.append _ _ _ _) => isTrue trivial
  | .deliver (.appendRequest _ _ _) => isTrue trivial
  | .deliver (.appendReply _ _ _) => isTrue trivial
  | .timeout _ => isTrue trivial
  | .heartbeat _ => isTrue trivial
  | .propose _ _ => isTrue trivial
  | .apply _ => isTrue trivial
  | .lose _ => isTrue trivial

namespace RaftNode

variable {n : RaftNode σ}

/-- A node that is a candidate now was one before, in the same election. -/
def SameElection (n n' : RaftNode σ) : Prop :=
  n'.id = n.id ∧ (n'.state = .candidate → n.state = .candidate ∧ n'.currentTerm = n.currentTerm ∧
    n'.votesReceived = n.votesReceived)

theorem SameElection.of_voteView {n' : RaftNode σ} (h : n'.voteView = n.voteView) :
    SameElection n n' := by
  obtain ⟨h1, h2, h3, -, h5⟩ := voteView_eq h
  exact ⟨h1, fun hc => ⟨h2 ▸ hc, h3, h5⟩⟩

theorem SameElection.trans {n1 n2 n3 : RaftNode σ} (h : SameElection n1 n2)
    (g : SameElection n2 n3) : SameElection n1 n3 := by
  refine ⟨g.1.trans h.1, fun hc => ?_⟩
  obtain ⟨g1, g2, g3⟩ := g.2 hc
  obtain ⟨h1, h2, h3⟩ := h.2 g1
  exact ⟨h1, g2.trans h2, g3.trans h3⟩

theorem becomeFollower_sameElection (t : Nat) : SameElection n (n.becomeFollower t) :=
  ⟨rfl, fun hc => by simp [becomeFollower] at hc⟩

theorem observeTerm_sameElection (t : Nat) : SameElection n (n.observeTerm t) := by
  rcases observeTerm_cases n t with ⟨-, e⟩ | ⟨-, e⟩
  · rw [e]; exact becomeFollower_sameElection t
  · rw [e]; exact .of_voteView rfl

theorem checkElectionWin_sameElection : SameElection n n.checkElectionWin := by
  rcases checkElectionWin_cases n with ⟨-, -, e⟩ | ⟨-, e⟩
  · rw [e]; exact ⟨rfl, fun hc => by simp [becomeLeader] at hc⟩
  · rw [e]; exact .of_voteView rfl

theorem handleRequestVote_sameElection (req : RequestVoteRequest) :
    SameElection n (n.handleRequestVote req).1 := by
  rcases handleRequestVote_cases n req with ⟨-, e⟩ | ⟨-, -, -, -, -, e⟩
  · rw [e]; exact observeTerm_sameElection req.term
  · rw [e]
    exact (observeTerm_sameElection req.term).trans ⟨rfl, fun hc => ⟨hc, rfl, rfl⟩⟩

variable (req : AppendEntriesRequest)

theorem followLeader_sameElection : SameElection n (n.followLeader req) := by
  unfold followLeader
  split_ifs
  · exact ⟨rfl, fun hc => by simp [becomeFollower] at hc⟩
  · exact ⟨rfl, fun hc => ⟨hc, rfl, rfl⟩⟩

theorem handleAppendEntries_sameElection : SameElection n (n.handleAppendEntries req).1 := by
  have hf := (observeTerm_sameElection (n := n) req.term).trans (followLeader_sameElection req)
  rcases handleAppendEntries_cases n req with ⟨-, e, -⟩ | ⟨-, e, -⟩ | ⟨-, -, e, -⟩
  · rw [e]; exact .of_voteView rfl
  · rw [e]; exact hf
  · rw [e]
    exact hf.trans (.of_voteView (accept_voteView _ _ req))

theorem handleAppendEntriesReply_sameElection (target : String) (reply : AppendEntriesReply) :
    SameElection n (n.handleAppendEntriesReply target reply) := by
  rcases handleAppendEntriesReply_cases n target reply with
    e | ⟨-, -, e⟩ | ⟨hl, -, -, e⟩ | ⟨-, e⟩
  · rw [e]; exact .of_voteView rfl
  · rw [e]; exact becomeFollower_sameElection reply.term
  · -- a leader stays one, whatever it commits
    rw [e]
    set m := updateCommitIndex ({ n with
        matchIndex := update n.matchIndex target reply.matchIndex
        nextIndex := update n.nextIndex target (reply.matchIndex + 1) } : RaftNode σ)
    obtain ⟨c, hc⟩ : ∃ c, m = _ := updateCommitIndex_eq _
    have hm : m.voteView = n.voteView := by rw [hc]; rfl
    refine (SameElection.of_voteView hm).trans ?_
    unfold checkConfigProgress progressNew progressJoint appendEntry
    repeat' split
    all_goals exact .of_voteView rfl
  · rw [e]; exact .of_voteView rfl

theorem handleRequestVoteReply_election (n : RaftNode σ) (orig : Nat) (voter : String)
    (reply : RequestVoteReply) :
    (n.handleRequestVoteReply orig voter reply).id = n.id ∧
      ((n.handleRequestVoteReply orig voter reply).state = .candidate → n.state = .candidate ∧
        (n.handleRequestVoteReply orig voter reply).currentTerm = n.currentTerm ∧
        ∀ v ∈ (n.handleRequestVoteReply orig voter reply).votesReceived,
          v ∈ n.votesReceived ∨ (v = voter ∧ reply.voteGranted = true)) := by
  rcases handleRequestVoteReply_cases n orig voter reply with
    e | ⟨-, -, e⟩ | ⟨-, hg, e⟩ | ⟨-, e⟩
  · rw [e]; exact ⟨rfl, fun hc => ⟨hc, rfl, fun v hv => Or.inl hv⟩⟩
  · rw [e]; exact ⟨rfl, fun hc => by simp [becomeFollower] at hc⟩
  · obtain ⟨h1, h2⟩ := checkElectionWin_sameElection
      (n := { n with votesReceived := insert voter n.votesReceived })
    rw [e]
    refine ⟨h1, fun hc => ?_⟩
    obtain ⟨g1, g2, g3⟩ := h2 hc
    refine ⟨g1, g2, fun v hv => ?_⟩
    rw [g3] at hv
    rcases Finset.mem_insert.1 hv with rfl | hv
    · exact Or.inr ⟨rfl, hg⟩
    · exact Or.inl hv
  · obtain ⟨h1, h2⟩ := checkElectionWin_sameElection (n := n)
    rw [e]
    refine ⟨h1, fun hc => ?_⟩
    obtain ⟨g1, g2, g3⟩ := h2 hc
    exact ⟨g1, g2, fun v hv => Or.inl (g3 ▸ hv)⟩

theorem becomeCandidate_election : n.becomeCandidate.id = n.id ∧
      (n.becomeCandidate.state = .candidate → n.becomeCandidate.votesReceived = {n.id}) := by
  obtain ⟨h1, h2⟩ := checkElectionWin_sameElection
    (n := { n with state := .candidate, currentTerm := n.currentTerm + 1, votedFor := n.id,
                   votesReceived := {n.id}, leaderID := "" })
  exact ⟨h1, fun hc => (h2 hc).2.2⟩

end RaftNode

open RaftNode

/-- What a run keeps: requests name their candidate, votes on the wire and in the hands of a
candidate were given. -/
structure VoteInv (hist : List (Cluster σ × Action)) (s : Cluster σ) : Prop where
  id : ∀ i, (s.node i).id = i
  request : ∀ c t req, voteRequest c t req ∈ s.pending → req.candidateID = c
  reply : ∀ c orig v r, voteReply c orig v r ∈ s.pending → r.voteGranted = true →
    Answered hist c v orig
  votes : ∀ c v, (s.node c).state = .candidate → v ∈ (s.node c).votesReceived → v ≠ c →
    Answered hist c v (s.node c).currentTerm

namespace VoteInv

variable {hist : List (Cluster σ × Action)} {s : Cluster σ} {x : Cluster σ × Action}
  (h : VoteInv hist s)
include h

theorem replace {i : String} {n : RaftNode σ} (hid : n.id = (s.node i).id)
    (hvotes : ∀ v, n.state = .candidate → v ∈ n.votesReceived → v ≠ i →
      Answered hist i v n.currentTerm) : VoteInv hist (s.setNode i n) where
  id := fun j => by
    by_cases hj : j = i
    · subst hj; rw [setNode_self, hid, h.id]
    · rw [setNode_of_ne hj, h.id]
  request := h.request
  reply := h.reply
  votes := fun c v hc hv hne => by
    by_cases hci : c = i
    · subst hci
      rw [setNode_self] at hc hv ⊢
      exact hvotes v hc hv hne
    · rw [setNode_of_ne hci] at hc hv ⊢
      exact h.votes c v hc hv hne

theorem setNode {i : String} {n : RaftNode σ}
    (hn : SameElection (s.node i) n) : VoteInv hist (s.setNode i n) := by
  refine h.replace hn.1 fun v hc hv hne => ?_
  obtain ⟨h1, h2, h3⟩ := hn.2 hc
  rw [h2]
  exact h.votes i v h1 (h3 ▸ hv) hne

theorem take (p : Pending) : VoteInv hist (s.take p) where
  id := h.id
  request := fun c t req hp => h.request c t req (mem_of_mem_take hp)
  reply := fun c orig v r hp => h.reply c orig v r (mem_of_mem_take hp)
  votes := h.votes

theorem post {ps : Multiset Pending}
    (hreq : ∀ c t req, voteRequest c t req ∈ ps → req.candidateID = c)
    (hrep : ∀ c orig v r, voteReply c orig v r ∈ ps → r.voteGranted = true →
      Answered hist c v orig) : VoteInv hist (s.post ps) where
  id := h.id
  request := fun c t req hp => by
    rcases Multiset.mem_add.1 hp with hp | hp
    · exact h.request c t req hp
    · exact hreq c t req hp
  reply := fun c orig v r hp hg => by
    rcases Multiset.mem_add.1 hp with hp | hp
    · exact h.reply c orig v r hp hg
    · exact hrep c orig v r hp hg
  votes := h.votes

theorem post_other {p : Pending} (hreq : ∀ c t req, .voteRequest c t req ≠ p)
    (hrep : ∀ c orig v r, .voteReply c orig v r ≠ p) : VoteInv hist (s.post {p}) :=
  h.post (fun c t req hq => absurd (Multiset.mem_singleton.1 hq) (hreq c t req))
    fun c orig v r hq => absurd (Multiset.mem_singleton.1 hq) (hrep c orig v r)

theorem cons (x : Cluster σ × Action) : VoteInv (x :: hist) s where
  id := h.id
  request := h.request
  reply := fun c orig v r hp hg => (h.reply c orig v r hp hg).cons x
  votes := fun c v hc hv hne => (h.votes c v hc hv hne).cons x

theorem process {p : Pending} (hp : p ∈ s.pending) (hok : FreshVotes s (.deliver p)) :
    VoteInv ((s, .deliver p) :: hist) ((s.take p).process p) := by
  have h0 : VoteInv ((s, .deliver p) :: hist) (s.take p) := (h.take p).cons _
  cases p with
  | election i =>
    refine h0.post (fun c t req hq => ?_) (fun c orig v r hq _ => ?_)
    · obtain ⟨t', -, e⟩ := mem_requests hq
      simp only [voteRequest.injEq] at e
      rw [e.2.2, e.1]; rfl
    · obtain ⟨t', -, e⟩ := mem_requests hq
      cases e
  | voteRequest c t req =>
    refine (h0.setNode (handleRequestVote_sameElection req)).post (fun c' t' req' hq => ?_)
      (fun c' orig v r hq hg => ?_)
    · rw [Multiset.mem_singleton] at hq; cases hq
    · rw [Multiset.mem_singleton] at hq
      obtain ⟨rfl, rfl, rfl, rfl⟩ := hq
      exact ⟨s, req, mem_cons_self, h.request _ _ _ hp, rfl, hg⟩
  | voteReply c orig voter reply =>
    -- the one place where votes are added: a fresh vote was given in the current term
    obtain ⟨e1, e2⟩ := handleRequestVoteReply_election (s.node c) orig voter reply
    refine h0.replace e1 fun v hc hv hne => ?_
    obtain ⟨g1, g2, g3⟩ := e2 hc
    refine g2 ▸ Answered.cons ?_ _
    rcases g3 v hv with hv | ⟨rfl, hg⟩
    · exact h.votes c v g1 hv hne
    · rw [← hok g1 hg]
      exact h.reply _ _ _ _ hp hg
  | append i t term commit =>
    simp only [Cluster.process]
    split
    · exact h0.post_other (by simp) (by simp)
    · exact h0
  | appendRequest i t req =>
    exact (h0.setNode (handleAppendEntries_sameElection req)).post_other (by simp) (by simp)
  | appendReply i t reply => exact h0.setNode (handleAppendEntriesReply_sameElection t reply)

end VoteInv

theorem voteInv_init (ids : List String) (sm : String → σ) : VoteInv [] (init ids sm) where
  id := fun _ => rfl
  request := fun c t req hp => by simp [init] at hp
  reply := fun c orig v r hp => by simp [init] at hp
  votes := fun c v hc => by simp [init, newRaftNode, RaftNode.start] at hc

theorem VoteInv.step {M : StateMachine σ} {ids : List String}
    {s s' : Cluster σ} {a : Action} (h : VoteInv hist s) (hok : FreshVotes s a)
    (hs : s.step M ids a = some s') : VoteInv ((s, a) :: hist) s' := by
  have h0 := h.cons (s, a)
  cases a with
  | timeout i =>
    simp only [Cluster.step] at hs
    split_ifs at hs with hg
    cases hs
    obtain ⟨e1, e2⟩ := becomeCandidate_election (n := s.node i)
    refine (h0.replace e1 fun v hc hv hne => ?_).post_other (by simp) (by simp)
    -- a new candidate holds its own vote only
    rw [e2 hc, Finset.mem_singleton, h.id] at hv
    exact absurd hv hne
  | heartbeat i =>
    simp only [Cluster.step] at hs
    split_ifs at hs with hg
    cases hs
    refine h0.post (fun c t req hq => ?_) (fun c orig v r hq _ => ?_)
    · obtain ⟨t', -, e⟩ := mem_appends hq; cases e
    · obtain ⟨t', -, e⟩ := mem_appends hq; cases e
  | propose i command =>
    simp only [Cluster.step] at hs
    split_ifs at hs with hg
    cases hp : (s.node i).propose command with
    | error e => rw [hp] at hs; cases hs
    | ok n =>
      rw [hp] at hs
      cases hs
      obtain ⟨-, rfl⟩ := propose_ok hp
      exact h0.setNode (.of_voteView rfl)
  | apply i =>
    simp only [Cluster.step] at hs
    split_ifs at hs with hg
    cases hs
    exact h0.setNode (.of_voteView (applyRounds_voteView M _ _))
  | deliver p =>
    simp only [Cluster.step] at hs
    split_ifs at hs with hp
    cases hs
    exact h.process hp hok
  | lose p =>
    simp only [Cluster.step] at hs
    split_ifs at hs with hp
    cases hs
    exact h0.take p

/-- If no vote of an earlier election reaches a candidate, every node whose vote a candidate holds
answered a `RequestVote` request of that candidate for its current term. -/
theorem votes_accounted_of_freshVotes (M : StateMachine σ) (ids : List String) (sm : String → σ)
    {hist : List (Cluster σ × Action)} {s : Cluster σ} (h : Run M ids sm FreshVotes hist s) :
    ∀ c v, (s.node c).state = .candidate → v ∈ (s.node c).votesReceived → v ≠ c →
      Answered hist c v (s.node c).currentTerm := by
  have hinv : VoteInv hist s := by
    induction h with
    | init => exact voteInv_init ids sm
    | step _ hok hs ih => exact ih.step hok hs
  exact hinv.votes

/-- `b` gives `a` its vote for term `1`, which arrives after `a` has timed out again. -/
def lateVote : List Action :=
  let req : RequestVoteRequest :=
    { term := 1, candidateID := "a", lastLogIndex := 0, lastLogTerm := 0 }
  [.timeout "a", .deliver (.election "a"), .deliver (.voteRequest "a" "b" req), .timeout "a",
    .deliver (.voteReply "a" 1 "b" { term := 1, voteGranted := true })]

/-- The late vote is counted: in term `2` the candidate `a` holds a vote of `b` for term `1` only.
-/
theorem votes_accounted_fails_for_late_vote :
    ¬ ∀ (hist : List (Cluster Unit × Action)) (s : Cluster Unit),
      AnyRun .idle ["a", "b", "c", "d"] (fun _ => ()) hist s →
      ∀ c v, (s.node c).state = .candidate → v ∈ (s.node c).votesReceived → v ≠ c →
        Answered hist c v (s.node c).currentTerm := by
  intro h
  obtain ⟨hist, s, hrun, hacts, hcand, hterm, hvote⟩ := Run.of_runActions
    .idle ["a", "b", "c", "d"] (fun _ => ()) (fun _ _ => True) lateVote
    (fun s => (s.node "a").state = .candidate ∧ (s.node "a").currentTerm = 2 ∧
      "b" ∈ (s.node "a").votesReceived) (by decide)
  obtain ⟨s', req, hmem, -, hreq, -⟩ := h hist s hrun "a" "b" hcand hvote (by decide)
  have hin : Action.deliver (.voteRequest "a" "b" req) ∈ lateVote.reverse := by
    rw [← hacts]; exact List.mem_map_of_mem hmem
  rw [hterm] at hreq
  simp only [lateVote, reverse_cons, reverse_nil, nil_append, cons_append,
    mem_cons, not_mem_nil, Action.deliver.injEq, voteRequest.injEq, reduceCtorEq,
    true_and, false_or, or_false] at hin
  rw [hin] at hreq
  simp at hreq

theorem votes_accounted_in_time : ∃ (hist : List (Cluster Unit × Action)) (s : Cluster Unit),
      Run .idle ["a", "b", "c", "d"] (fun _ => ()) FreshVotes hist s ∧
      (s.node "a").state = .candidate ∧ "b" ∈ (s.node "a").votesReceived ∧
      Answered hist "a" "b" (s.node "a").currentTerm := by
  obtain ⟨hist, s, hrun, -, hcand, hvote⟩ := Run.of_runActions
    .idle ["a", "b", "c", "d"] (fun _ => ()) FreshVotes
    (lateVote.take 3 ++ [.deliver (.voteReply "a" 1 "b" { term := 1, voteGranted := true })])
    (fun s => (s.node "a").state = .candidate ∧ "b" ∈ (s.node "a").votesReceived) (by decide)
  exact ⟨hist, s, hrun, hcand, hvote,
    votes_accounted_of_freshVotes .idle _ _ hrun "a" "b" hcand hvote (by decide)⟩

end Solocoder.Raft
