import Solocoder.Lib.BallotEvents
import Solocoder.Raft.Proofs.ReplicaProofs

/-!
# Election safety and state machine safety

The votes, acknowledgements and commit indices of a cluster, as ballots over its history.

The code deviates from Raft in two places: `becomeLeader` clears the vote of the node, so that a
leader can vote for another candidate of its term, and `handleRequestVoteReply` counts votes of
earlier elections. A candidate that steps down in its own term loses its vote too, but only after
somebody has won that term.
-/

namespace Solocoder.Raft

open Lib List Function RaftNode Ballots LogHistory Cluster Pending

variable {σ : Type}

theorem RaftNode.lastLogTerm_eq {n : RaftNode σ} (hw : WellIndexed n.log) :
    n.lastLogTerm = lastTerm entryTerm n.log := by
  unfold lastLogTerm lastTerm
  cases hl : n.log.getLast? with
  | none =>
    have := hw.length_pos
    rw [getLast?_eq_none_iff] at hl
    simp [hl] at this
  | some e => rfl

/-! ## The cluster and its ballots -/

/-- What the node `i` knows of the ballots. -/
structure BallotNode (ids : List String) (h : LogHistory String LogEntry)
    (b : Ballots String LogEntry) (i : String) (n : RaftNode σ) : Prop where
  /-- Until somebody has won the term, the vote is remembered. -/
  voted : ∀ {c}, (i, c, h.term i) ∈ b.vote → h.won (h.term i) = none → n.votedFor = c
  /-- The electors of a winner remember their vote as long as they stay in the term. -/
  elector : ∀ {w}, h.won (h.term i) = some w → i ∈ b.electors (h.term i) → i ≠ w →
    n.state = .follower ∧ n.votedFor = w
  own : n.state = .candidate → b.camp i (h.term i) = some (h.log i) ∧
    (i, i, h.term i) ∈ b.vote ∧ ∀ v ∈ n.votesReceived, (v, i, h.term i) ∈ b.vote
  camp : ∀ {ℓ}, b.camp i (h.term i) = some ℓ → n.state = .candidate ∧ h.log i = ℓ
  matched : n.state = .leader → ∀ p ∈ ids, p ≠ i →
    n.matchIndex p = 0 ∨ (p, h.term i, n.matchIndex p) ∈ b.ack
  commit : n.commitIndex = 0 ∨ (i, n.commitIndex) ∈ b.com
  applied : n.lastApplied = 0 ∨ (i, n.lastApplied) ∈ b.com

/-- What is under way, as far as it concerns the ballots. An acknowledgement may come from a log
that its sender read after it left the term, but is then ignored. -/
def Pending.BallotOk (ids : List String) (h : LogHistory String LogEntry)
    (b : Ballots String LogEntry) : Pending → Prop
  | .election i => i ∈ ids
  | .voteRequest c t req =>
    req.candidateID = c ∧ c ∈ ids ∧ t ∈ ids ∧ req.term ≤ h.term c ∧
      ∀ ℓ, b.camp c req.term = some ℓ →
        req.lastLogIndex + 1 = ℓ.length ∧ req.lastLogTerm = lastTerm entryTerm ℓ
  | .voteReply c orig v reply => reply.voteGranted = true → (v, c, orig) ∈ b.vote
  | .append _ _ T k => k = 0 ∨ (T, k) ∈ b.hint
  | .appendRequest _ _ req => req.leaderCommit = 0 ∨ (req.term, req.leaderCommit) ∈ b.hint
  | .appendReply i t reply =>
    reply.success = true → reply.term < h.term i ∨ (t, reply.term, reply.matchIndex) ∈ b.ack

/-- The state of the cluster as a history of logs with its ballots. -/
structure BallotRel (ids : List String) (s : Cluster σ) (h : LogHistory String LogEntry)
    (b : Ballots String LogEntry) : Prop where
  log : LogRel ids s h
  inv : BallotInv ids.toFinset entryTerm h b
  votes : ∀ {v c T}, (v, c, T) ∈ b.vote → v ∈ ids ∧ c ∈ ids
  node : ∀ i, BallotNode ids h b i (s.node i)
  pending : ∀ {p}, p ∈ s.pending → p.BallotOk ids h b

variable {ids : List String} {s : Cluster σ} {h h' : LogHistory String LogEntry}
  {b b' : Ballots String LogEntry}

theorem ballotRel_init (ids : List String) (sm : String → σ) :
    BallotRel ids (Cluster.init ids sm) (init [sentinel]) init where
  log := logRel_init ids sm
  inv := BallotInv.init fun e he => by rw [mem_singleton.1 he]; rfl
  votes := fun hv => hv.elim
  node := fun i =>
    { voted := fun hv => hv.elim
      elector := nofun
      own := nofun
      camp := nofun
      matched := nofun
      commit := Or.inl rfl
      applied := Or.inl rfl }
  pending := nofun

/-! ### Frames -/

namespace BallotNode

variable {i : String} {n n' : RaftNode σ}

theorem congr (hn : BallotNode ids h b i n) (hv : n'.voteView = n.voteView)
    (hm : n'.matchIndex = n.matchIndex) (hc : n'.commitIndex = 0 ∨ (i, n'.commitIndex) ∈ b.com)
    (ha : n'.lastApplied = 0 ∨ (i, n'.lastApplied) ∈ b.com) : BallotNode ids h b i n' := by
  obtain ⟨-, v2, -, v4, v5⟩ := voteView_eq hv
  exact
    { voted := by rw [v4]; exact hn.voted
      elector := by rw [v2, v4]; exact hn.elector
      own := by rw [v2, v5]; exact hn.own
      camp := by rw [v2]; exact hn.camp
      matched := by rw [v2, hm]; exact hn.matched
      commit := hc
      applied := ha }

theorem frame (hn : BallotNode ids h b i n) (ht : h'.term i = h.term i) (hl : h'.log i = h.log i)
    (hw : h'.won (h.term i) = h.won (h.term i))
    (hel : b'.electors (h.term i) = b.electors (h.term i))
    (hcamp : b'.camp i (h.term i) = b.camp i (h.term i))
    (hnew : ∀ c, (i, c, h.term i) ∈ b'.vote → (i, c, h.term i) ∈ b.vote)
    (hvote : b.vote ⊆ b'.vote) (hack : b.ack ⊆ b'.ack) (hcom : b.com ⊆ b'.com) :
    BallotNode ids h' b' i n where
  voted := by rw [ht, hw]; exact fun hv => hn.voted (hnew _ hv)
  elector := by rw [ht, hw, hel]; exact hn.elector
  own := by
    rw [ht, hl, hcamp]
    exact fun hc => ⟨(hn.own hc).1, hvote (hn.own hc).2.1, fun v hv => hvote ((hn.own hc).2.2 v hv)⟩
  camp := by rw [ht, hl, hcamp]; exact hn.camp
  matched := by
    rw [ht]
    exact fun hs p hp hne => (hn.matched hs p hp hne).imp id fun hm => hack hm
  commit := hn.commit.imp id fun hm => hcom hm
  applied := hn.applied.imp id fun hm => hcom hm

end BallotNode

theorem Pending.BallotOk.mono {p : Pending} (hp : p.BallotOk ids h b)
    (hterm : ∀ j, h.term j ≤ h'.term j)
    (hcamp : ∀ {c T ℓ}, T ≤ h.term c → b'.camp c T = some ℓ → b.camp c T = some ℓ)
    (hvote : b.vote ⊆ b'.vote) (hack : b.ack ⊆ b'.ack) (hhint : b.hint ⊆ b'.hint) :
    p.BallotOk ids h' b' := by
  cases p with
  | election i => exact hp
  | voteRequest c t req =>
    obtain ⟨h1, h2, h3, h4, h5⟩ := hp
    exact ⟨h1, h2, h3, h4.trans (hterm c), fun ℓ hℓ => h5 ℓ (hcamp h4 hℓ)⟩
  | voteReply c orig v reply => exact fun hg => hvote (hp hg)
  | append i t T k => exact hp.imp id fun hm => hhint hm
  | appendRequest i t req => exact hp.imp id fun hm => hhint hm
  | appendReply i t reply =>
    exact fun hs => (hp hs).imp (fun hlt => hlt.trans_le (hterm i)) fun hm => hack hm

namespace BallotRel

section

variable (hr : BallotRel ids s h b)
include hr

theorem less {s' : Cluster σ} (hn : s'.node = s.node) (hp : s'.pending ⊆ s.pending) :
    BallotRel ids s' h b where
  log := hr.log.less hn hp
  inv := hr.inv
  votes := hr.votes
  node := fun i => by rw [hn]; exact hr.node i
  pending := fun hq => hr.pending (hp hq)

theorem post {ps : Multiset Pending} (hl : LogRel ids (s.post ps) h)
    (hps : ∀ p ∈ ps, p.BallotOk ids h b) : BallotRel ids (s.post ps) h b where
  log := hl
  inv := hr.inv
  votes := hr.votes
  node := hr.node
  pending := fun {p} hp => by
    rcases Multiset.mem_add.1 hp with hp | hp
    · exact hr.pending hp
    · exact hps p hp

theorem ballots (hinv : BallotInv ids.toFinset entryTerm h b') (hvote : b'.vote = b.vote)
    (hel : b'.electors = b.electors) (hcamp : b'.camp = b.camp) (hack : b.ack ⊆ b'.ack)
    (hcom : b.com ⊆ b'.com) (hhint : b.hint ⊆ b'.hint) : BallotRel ids s h b' where
  log := hr.log
  inv := hinv
  votes := by rw [hvote]; exact hr.votes
  node := fun i => (hr.node i).frame rfl rfl rfl (by rw [hel]) (by rw [hcamp])
    (fun c hv => hvote ▸ hv) hvote.symm.subset hack hcom
  pending := fun hp => (hr.pending hp).mono (fun _ => le_rfl) (fun _ hc => hcamp ▸ hc)
    hvote.symm.subset hack hhint

variable {i t : String} {n : RaftNode σ} {T : Nat} {req : AppendEntriesRequest}

theorem setNode (hlog : LogRel ids (s.setNode i n) h')
    (hinv : BallotInv ids.toFinset entryTerm h' b')
    (hvotes : ∀ {v c T}, (v, c, T) ∈ b'.vote → v ∈ ids ∧ c ∈ ids) (hn : BallotNode ids h' b' i n)
    (hframe : ∀ j, j ≠ i → BallotNode ids h' b' j (s.node j))
    (hpend : ∀ {p : Pending}, p.BallotOk ids h b → p.BallotOk ids h' b') :
    BallotRel ids (s.setNode i n) h' b' where
  log := hlog
  inv := hinv
  votes := hvotes
  node := fun j => by
    by_cases hj : j = i
    · subst hj; rw [setNode_self]; exact hn
    · rw [setNode_of_ne hj]; exact hframe j hj
  pending := fun hp => hpend (hr.pending hp)

theorem quiet (hlog : LogRel ids (s.setNode i n) h) (hn : BallotNode ids h b i n) :
    BallotRel ids (s.setNode i n) h b :=
  hr.setNode hlog hr.inv hr.votes hn (fun j _ => hr.node j) id

theorem post_one {p : Pending} (hl : LogRel ids (s.post {p}) h) (hp : p.BallotOk ids h b) :
    BallotRel ids (s.post {p}) h b :=
  hr.post hl fun q hq => by rw [Multiset.mem_singleton.1 hq]; exact hp

theorem refusal {p : Pending} (hp : p.Refusal) : BallotRel ids (s.post {p}) h b := by
  refine hr.post_one (hr.log.refusal hp) ?_
  cases p with
  | voteReply c o v r =>
    intro hg
    exact absurd hg (by rw [show r.voteGranted = false from hp]; decide)
  | appendReply i t r =>
    intro hg
    exact absurd hg (by rw [show r.success = false from hp]; decide)
  | _ => exact hp.elim

/-! ### Terms and campaigns -/

theorem follow (hT : (s.node i).currentTerm < T) :
    BallotRel ids (s.setNode i ((s.node i).becomeFollower T)) (h.advance i T) b := by
  have hlt : h.term i < T := (hr.log.node i).term ▸ hT
  have hterm : (h.advance i T).term i = T := by simp [advance]
  have hother : ∀ {j}, j ≠ i → (h.advance i T).term j = h.term j := fun hj => by
    simp [advance, hj]
  refine hr.setNode (hr.log.follow hT) (hr.inv.advance hlt.le) hr.votes ?_ (fun j hj => ?_)
    (fun hp => ?_)
  · -- nothing has happened yet in the new term
    refine
      { voted := ?_, elector := ?_, own := by rintro ⟨⟩, camp := ?_
        matched := by rintro ⟨⟩, commit := (hr.node i).commit
        applied := (hr.node i).applied }
    · intro c hv
      have := (hr.inv.vote_term hv).1
      omega
    · intro w hw hel
      have := (hr.inv.vote_term ((hr.inv.electors hw).2 i hel)).1
      omega
    · intro ℓ hc
      have := (hr.inv.camp_term hc).1
      omega
  · exact (hr.node j).frame (hother hj) rfl rfl rfl rfl (fun _ => id) subset_rfl subset_rfl
      subset_rfl
  · refine hp.mono (fun j => ?_) (fun _ => id) subset_rfl subset_rfl subset_rfl
    by_cases hj : j = i
    · subst hj; rw [hterm]; exact hlt.le
    · rw [hother hj]

theorem stepDown {w : String} (hT : (s.node i).currentTerm = T)
    (hc : (s.node i).state = .candidate) (hw : h.won T = some w) :
    BallotRel ids (s.setNode i ((s.node i).becomeFollower T)) h (b.withdraw i T) := by
  have hti : h.term i = T := by rw [← (hr.log.node i).term, hT]
  refine hr.setNode (hr.log.stepDown hT hc) (hr.inv.withdraw i T) hr.votes ?_ (fun j hj => ?_)
    (fun hp => hp.mono (fun _ => le_rfl) (fun _ => camp_of_withdraw) subset_rfl subset_rfl subset_rfl)
  · refine
      { voted := ?_, elector := ?_, own := by rintro ⟨⟩, camp := ?_
        matched := by rintro ⟨⟩, commit := (hr.node i).commit
        applied := (hr.node i).applied }
    · rw [hti, hw]
      intro c _ hn
      cases hn
    · intro w' hw' hel hne
      rw [((hr.node i).elector hw' hel hne).1] at hc
      cases hc
    · rw [hti]
      intro ℓ hcp
      simp [withdraw] at hcp
  · refine (hr.node j).frame rfl rfl rfl rfl ?_ (fun _ => id) subset_rfl subset_rfl subset_rfl
    simp [withdraw, hj]

theorem campaign (hi : i ∈ ids) :
    BallotRel ids (s.setNode i (s.node i).campaign) (h.advance i (h.term i + 1))
      (b.campaign i (h.term i + 1) (h.log i)) := by
  have hlt : h.term i < h.term i + 1 := Nat.lt_succ_self _
  have hterm : (h.advance i (h.term i + 1)).term i = h.term i + 1 := by simp [advance]
  have hother : ∀ {j}, j ≠ i → (h.advance i (h.term i + 1)).term j = h.term j := fun hj => by
    simp [advance, hj]
  have hcampi : (b.campaign i (h.term i + 1) (h.log i)).camp i (h.term i + 1) = some (h.log i) := by
    simp [Ballots.campaign]
  have hid : (s.node i).id = i := (hr.log.node i).id
  have hself : (i, i, h.term i + 1) ∈ (b.campaign i (h.term i + 1) (h.log i)).vote :=
    Set.mem_insert _ _
  refine hr.setNode (hr.log.campaign hi) (hr.inv.campaign hlt) ?_ ?_ (fun j hj => ?_) (fun hp => ?_)
  · rintro v c T (hv | hv)
    · cases hv; exact ⟨hi, hi⟩
    · exact hr.votes hv
  · refine
      { voted := ?_, elector := ?_, own := fun _ => ?_, camp := ?_
        matched := by rintro ⟨⟩, commit := (hr.node i).commit
        applied := (hr.node i).applied }
    · rw [hterm]
      rintro c (hv | hv) -
      · cases hv; exact hid
      · have := (hr.inv.vote_term hv).1
        omega
    · intro w hw hel
      have := (hr.inv.vote_term ((hr.inv.electors hw).2 i hel)).1
      omega
    · rw [hterm]
      refine ⟨hcampi, hself, fun v hv => ?_⟩
      have hvi : v = (s.node i).id := Finset.mem_singleton.1 hv
      rw [hvi, hid]
      exact hself
    · rw [hterm, hcampi]
      intro ℓ hℓ
      exact ⟨rfl, Option.some.inj hℓ⟩
  · refine (hr.node j).frame (hother hj) rfl rfl rfl ?_ (fun c hv => ?_) (Set.subset_insert _ _)
      subset_rfl subset_rfl
    · simp [Ballots.campaign, hj]
    · rcases hv with hv | hv
      · exact absurd (congrArg Prod.fst hv) hj
      · exact hv
  · refine hp.mono (fun j => ?_) (fun {c T ℓ} hle hcp => ?_) (Set.subset_insert _ _) subset_rfl
      subset_rfl
    · by_cases hj : j = i
      · subst hj; rw [hterm]; exact hlt.le
      · rw [hother hj]
    · by_cases hc : c = i
      · subst hc
        have hT : T ≠ h.term c + 1 := by omega
        simpa [Ballots.campaign, hT] using hcp
      · simpa [Ballots.campaign, hc] using hcp

theorem request (hp : election i ∈ s.pending) :
    BallotRel ids (s.post (Cluster.requests (s.node i))) h b := by
  have hnode := hr.log.node i
  have hshape := hr.log.wellIndexed i
  refine hr.post (hr.log.post fun p hp => ?_) fun p hp' => ?_
  · obtain ⟨t, -, rfl⟩ := mem_requests hp
    trivial
  · obtain ⟨t, ht, rfl⟩ := mem_requests hp'
    rw [hnode.currentNodes, mem_toFinset] at ht
    have hterm : (s.node i).voteRequest.term = h.term i := hnode.term
    rw [hnode.id]
    refine ⟨hnode.id, hr.pending hp, ht, hterm.le, fun ℓ hℓ => ?_⟩
    -- a request of a candidate carries the end of the log it campaigns with
    rw [hterm] at hℓ
    have hlog : (s.node i).log = ℓ := hnode.log.trans ((hr.node i).camp hℓ).2
    refine ⟨?_, ?_⟩
    · rw [← hlog]; exact lastLogIndex_add_one hnode.offset hshape
    · rw [← hlog]; exact lastLogTerm_eq hshape

/-! ### Votes -/

theorem grant (hempty : "" ∉ ids) {c : String} {req : RequestVoteRequest}
    (hp : voteRequest c t req ∈ s.pending) (hT : (s.node t).currentTerm = req.term)
    (hcan : (s.node t).canVote req.candidateID = true)
    (hup : (s.node t).isLogUpToDate req.lastLogIndex req.lastLogTerm = true)
    (hl : (s.node t).state ≠ .leader) :
    BallotRel ids ((s.setNode t { s.node t with votedFor := req.candidateID }).post
      {.voteReply c req.term t { term := req.term, voteGranted := true }}) h
      (b.grant t c (h.term t)) := by
  obtain ⟨hid, hc, ht, hle, hcamp⟩ := hr.pending hp
  have hnode := hr.log.node t
  have hterm : h.term t = req.term := by rw [← hnode.term, hT]
  have hshape := hr.log.wellIndexed t
  -- a node that remembers a vote for a member votes for nobody else
  have hvoted : ∀ {c'}, c' ∈ ids → (s.node t).votedFor = c' → c' = c := by
    intro c' hc' hv
    rw [canVote, hid, hv, Bool.or_eq_true, decide_eq_true_eq, decide_eq_true_eq] at hcan
    rcases hcan with e | e
    · exact absurd (e ▸ hc') hempty
    · exact e
  have hnotwon : ∀ {w}, h.won (h.term t) = some w → t ≠ w := by
    rintro w hw rfl
    exact hl (hnode.leader.2 hw)
  have helect : ∀ w, h.won (h.term t) = some w → t ∈ b.electors (h.term t) → c = w := by
    intro w hw hel
    have hvw := ((hr.node t).elector hw hel (hnotwon hw)).2
    exact (hvoted (hr.votes ((hr.inv.electors hw).2 t hel)).2 hvw).symm
  have hfree : h.won (h.term t) = none → ∀ c', (t, c', h.term t) ∈ b.vote → c' = c :=
    fun hn c' hv => hvoted (hr.votes hv).2 ((hr.node t).voted hv hn)
  have hupto : ∀ l, b.camp c (h.term t) = some l → UpToDate entryTerm l (h.log t) := by
    intro l hcp
    rw [hterm] at hcp
    obtain ⟨hli, hlt⟩ := hcamp l hcp
    have hidx := lastLogIndex_add_one hnode.offset hshape
    rw [isLogUpToDate, lastLogTerm_eq hshape, hnode.log, hlt] at hup
    simp only [Bool.or_eq_true, Bool.and_eq_true, decide_eq_true_eq] at hup
    rw [hnode.log] at hidx
    refine hup.imp id fun hu => ⟨hu.1, ?_⟩
    omega
  have hinv := hr.inv.grant (hterm.trans_le hle) hfree helect hupto
  have hrel : BallotRel ids (s.setNode t { s.node t with votedFor := req.candidateID }) h
      (b.grant t c (h.term t)) := by
    refine hr.setNode (hr.log.quiet rfl rfl rfl Iff.rfl id) hinv ?_ ?_ (fun j hj => ?_)
      (fun hp => hp.mono (fun _ => le_rfl) (fun _ => id) (Set.subset_insert _ _) subset_rfl
        subset_rfl)
    · rintro v c' T (hv | hv)
      · cases hv; exact ⟨ht, hc⟩
      · exact hr.votes hv
    · have hold := hr.node t
      refine { hold with
        voted := ?_
        elector := ?_
        own := fun hst => ⟨(hold.own hst).1, Or.inr (hold.own hst).2.1,
          fun v hv => Or.inr ((hold.own hst).2.2 v hv)⟩ }
      · rintro c' (hv | hv) hn
        · cases hv; exact hid
        · exact hid.trans (hfree hn c' hv).symm
      · intro w hw hel hne
        exact ⟨(hold.elector hw hel hne).1, hid.trans (helect w hw hel)⟩
    · refine (hr.node j).frame rfl rfl rfl rfl rfl (fun c' hv => ?_) (Set.subset_insert _ _)
        subset_rfl subset_rfl
      rcases hv with hv | hv
      · exact absurd (congrArg Prod.fst hv) hj
      · exact hv
  refine hrel.post_one (hrel.log.post_one trivial) fun _ => ?_
  rw [← hterm]
  exact Set.mem_insert _ _

theorem count {c v : String} {orig : Nat} {reply : RequestVoteReply}
    (hp : voteReply c orig v reply ∈ s.pending) (hg : reply.voteGranted = true)
    (ho : orig = (s.node c).currentTerm) :
    BallotRel ids
      (s.setNode c { s.node c with votesReceived := insert v (s.node c).votesReceived }) h b := by
  have hvote : (v, c, h.term c) ∈ b.vote := by
    rw [← (hr.log.node c).term, ← ho]
    exact hr.pending hp hg
  have hold := hr.node c
  refine hr.quiet (hr.log.quiet rfl rfl rfl Iff.rfl id)
    { hold with own := fun hst => ?_ }
  refine ⟨(hold.own hst).1, (hold.own hst).2.1, fun v' hv' => ?_⟩
  rcases Finset.mem_insert.1 hv' with rfl | hv'
  · exact hvote
  · exact (hold.own hst).2.2 v' hv'

theorem majority_votes (hc : (s.node i).state = .candidate)
    (hq : (s.node i).hasQuorumOfVotes = true) : Majority ids.toFinset (s.node i).votesReceived := by
  have hnode := hr.log.node i
  refine ⟨fun v hv => ?_, ?_⟩
  · exact mem_toFinset.2 (hr.votes (((hr.node i).own hc).2.2 v hv)).1
  · rw [hasQuorumOfVotes, hnode.joint, hnode.config] at hq
    have hq' : ids.toFinset.card / 2 + 1 ≤ (s.node i).votesReceived.card := of_decide_eq_true hq
    omega

/-- Who voted for another node in a term that nobody has won yet is still a follower. -/
theorem follower_of_vote {w : String} (hv : (i, w, h.term i) ∈ b.vote)
    (hnone : h.won (h.term i) = none) (hne : i ≠ w) :
    (s.node i).state = .follower ∧ (s.node i).votedFor = w := by
  have hvf := (hr.node i).voted hv hnone
  refine ⟨?_, hvf⟩
  cases hst : (s.node i).state with
  | follower => rfl
  | candidate =>
    have := (hr.node i).voted ((hr.node i).own hst).2.1 hnone
    exact absurd (this.symm.trans hvf) hne
  | leader =>
    have := (hr.log.node i).leader.1 hst
    rw [hnone] at this
    cases this

/-- A candidate with a majority of votes of its term wins it: nobody else has. -/
theorem win (hc : (s.node i).state = .candidate) (hq : (s.node i).hasQuorumOfVotes = true) :
    BallotRel ids (s.setNode i (s.node i).becomeLeader) (h.win i)
      ((b.elect (h.term i) (s.node i).votesReceived).withdraw i (h.term i)) := by
  have hnode := hr.log.node i
  have hold := hr.node i
  obtain ⟨hcamp, -, hvote⟩ := hold.own hc
  have hmaj := hr.majority_votes hc hq
  have hnone : h.won (h.term i) = none := by
    cases hw : h.won (h.term i) with
    | none => rfl
    | some w =>
      have := hr.inv.winner_unique hmaj hvote hw
      subst this
      exact absurd hw (hr.log.not_won_of_candidate hc)
  have hpos : 0 < h.term i := (hnode.active (by simp [hc])).2
  have hwoni : (h.win i).won (h.term i) = some i := LogHistory.won_win_self
  have hinv := (hr.inv.win hcamp hmaj hvote hpos hnone).withdraw i (h.term i)
  set b1 := (b.elect (h.term i) (s.node i).votesReceived).withdraw i (h.term i) with hb1
  have hel : b1.electors (h.term i) = (s.node i).votesReceived := by
    simp [hb1, withdraw, elect]
  have hcamp1 : ∀ {j}, j ≠ i → b1.camp j = b.camp j := fun hj => by
    simp [hb1, withdraw, elect, hj]
  have hcampi : b1.camp i (h.term i) = none := by
    simp [hb1, withdraw]
  refine hr.setNode (hr.log.win hc hnone) hinv hr.votes ?_ (fun j hj => ?_) (fun hp => ?_)
  · refine
      { voted := ?_, elector := ?_, own := by rintro ⟨⟩, camp := ?_
        matched := fun _ p hp hne => Or.inl ?_, commit := hold.commit, applied := hold.applied }
    · intro c _ hn
      rw [show (h.win i).won ((h.win i).term i) = some i from hwoni] at hn
      cases hn
    · intro w hw _ hne
      rw [show (h.win i).won ((h.win i).term i) = some i from hwoni] at hw
      exact absurd (Option.some.inj hw) hne
    · intro ℓ hℓ
      rw [show b1.camp i ((h.win i).term i) = none from hcampi] at hℓ
      cases hℓ
    · show (if p ∈ (s.node i).currentNodes.erase (s.node i).id then 0 else _) = 0
      rw [hnode.currentNodes, hnode.id, if_pos]
      exact Finset.mem_erase.2 ⟨hne, mem_toFinset.2 hp⟩
  · have hnj := hr.node j
    by_cases hT : h.term j = h.term i
    · -- the electors of the new leader remember their vote
      have hwonj : (h.win i).won ((h.win i).term j) = some i := by
        show (h.win i).won (h.term j) = some i
        rw [hT, hwoni]
      have helj : b1.electors ((h.win i).term j) = (s.node i).votesReceived := by
        show b1.electors (h.term j) = _
        rw [hT, hel]
      refine
        { voted := fun _ hn => ?_, elector := ?_, own := fun hst => ?_, camp := ?_
          matched := hnj.matched, commit := hnj.commit, applied := hnj.applied }
      · rw [hwonj] at hn; cases hn
      · intro w hw hjel hne
        rw [hwonj] at hw
        obtain rfl : i = w := Option.some.inj hw
        rw [helj] at hjel
        exact hr.follower_of_vote (hT ▸ hvote j hjel) (hT ▸ hnone) hne
      · refine ⟨?_, (hnj.own hst).2.1, (hnj.own hst).2.2⟩
        rw [hcamp1 hj]
        exact (hnj.own hst).1
      · rw [hcamp1 hj]
        exact hnj.camp
    · refine hnj.frame rfl rfl ?_ ?_ (by rw [hcamp1 hj]) (fun _ => id) subset_rfl subset_rfl
        subset_rfl
      · simp [LogHistory.win, hT]
      · simp [hb1, withdraw, elect, hT]
  · exact hp.mono (fun _ => le_rfl) (fun _ => camp_of_withdraw (b := b.elect _ _)) subset_rfl
      subset_rfl subset_rfl

/-! ### Logs and commitment -/

theorem propose {e : LogEntry} (hl : (s.node i).state = .leader)
    (hT : e.term = (s.node i).currentTerm) (he : e.index = (s.node i).lastLogIndex + 1) :
    BallotRel ids (s.setNode i ((s.node i).appendEntry e)) (h.propose i e) b := by
  have hnode := hr.log.node i
  have hold := hr.node i
  have hnc : (s.node i).state ≠ .candidate := by rw [hl]; nofun
  refine hr.setNode (hr.log.propose hl hT he)
    (hr.inv.propose (hnode.leader.1 hl) (hT.trans hnode.term)) hr.votes ?_ (fun j hj => ?_) (fun hp => hp.mono (fun _ => le_rfl) (fun _ => id) subset_rfl
      subset_rfl subset_rfl)
  · exact { hold with
      own := fun hst => absurd hst hnc
      camp := fun hc => absurd (hold.camp hc).1 hnc }
  · refine (hr.node j).frame rfl ?_ rfl rfl rfl (fun _ => id) subset_rfl subset_rfl subset_rfl
    simp [LogHistory.propose, hj]

theorem heartbeat (hl : (s.node i).state = .leader) :
    ∃ b', BallotRel ids (s.post (Cluster.appends (s.node i))) h b' := by
  have hnode := hr.log.node i
  rcases (hr.node i).commit with h0 | hcom
  · refine ⟨b, hr.post (hr.log.heartbeat hl) fun p hp => ?_⟩
    obtain ⟨t, -, rfl⟩ := mem_appends hp
    exact Or.inl h0
  · -- what the leader knows to be chosen it says in the name of its term
    obtain ⟨T, j, hT, hch, hj, -⟩ := hr.inv.com hcom
    have hinv := hr.inv.tell ⟨T, j, hT, hch, hj⟩
    have hr' := hr.ballots hinv rfl rfl rfl subset_rfl subset_rfl (Set.subset_insert _ _)
    refine ⟨_, hr'.post (hr.log.heartbeat hl) fun p hp => ?_⟩
    obtain ⟨t, -, rfl⟩ := mem_appends hp
    right
    rw [hnode.term]
    exact Set.mem_insert _ _

theorem send {c : Nat} (hp : append i t T c ∈ s.pending)
    (hs : (s.node i).sendTo t T c = .append req) :
    BallotRel ids (s.post {.appendRequest i t req}) (h.send i T) b := by
  have hnode := hr.log.node i
  obtain ⟨hw, -⟩ := hr.log.pending hp
  obtain ⟨hT, hcom, -⟩ := sendTo_slice hnode.offset (hr.log.wellIndexed i) hs
  exact
    { log := hr.log.send hp hs
      inv := hr.inv.send hw
      votes := hr.votes
      node := fun j => (hr.node j).frame rfl rfl rfl rfl rfl (fun _ => id) subset_rfl subset_rfl
        subset_rfl
      pending := fun {p} hq => by
        rcases Multiset.mem_add.1 hq with hq | hq
        · exact (hr.pending hq).mono (fun _ => le_rfl) (fun _ => id) subset_rfl subset_rfl subset_rfl
        · rw [Multiset.mem_singleton.1 hq]
          show req.leaderCommit = 0 ∨ (req.term, req.leaderCommit) ∈ b.hint
          rw [hT, hcom]
          exact hr.pending hp }

theorem insertEntries {ℓ : List LogEntry} (hw : h.won req.term = some i)
    (hne : i ≠ t) (hT : (s.node t).currentTerm = req.term) (hc : (s.node t).state ≠ .candidate)
    (hsent : (req.term, ℓ) ∈ h.sent) (hslice : Slice ℓ req)
    (hprev : (s.node t).prevConflict req = none) :
    BallotRel ids (s.setNode t ((s.node t).insertEntries (req.prevLogIndex + 1) req.entries))
      (h.accept t ℓ) b := by
  have hold := hr.node t
  have hterm : h.term t = req.term := by rw [← (hr.log.node t).term, hT]
  have hnot : h.won (h.term t) ≠ some t := by
    rw [hterm, hw]
    exact fun e => hne (Option.some.inj e)
  obtain ⟨l, o, he⟩ := (s.node t).insertEntries_eq (req.prevLogIndex + 1) req.entries
  refine hr.setNode (hr.log.insertEntries hw hne hT hsent hslice hprev)
    (hr.inv.accept (hterm ▸ hsent) hnot) hr.votes ?_ (fun j hj => ?_)
    (fun hp => hp.mono (fun _ => le_rfl) (fun _ => id) subset_rfl subset_rfl subset_rfl)
  · rw [he]
    exact { hold with
      own := fun hst => absurd hst hc
      camp := fun hcp => absurd (hold.camp hcp).1 hc }
  · refine (hr.node j).frame rfl ?_ rfl rfl rfl (fun _ => id) subset_rfl subset_rfl subset_rfl
    simp [accept, hj]

/-- A follower that holds the log a request was cut from acknowledges it, if the leader can still
hear it. -/
theorem acknowledge {ℓ : List LogEntry} (hw : h.won T = some i)
    (hT : h.term t = T) (hsent : (T, ℓ) ∈ h.sent) (hℓ : ℓ <+: h.log t) :
    ∃ b', BallotRel ids s h b' ∧ b'.hint = b.hint ∧
      (T < h.term i ∨ (t, T, ℓ.length - 1) ∈ b'.ack) := by
  rcases (hr.log.inv.won_term hw).lt_or_eq with hlt | heq
  · exact ⟨b, hr, rfl, Or.inl hlt⟩
  · have hlead : ℓ <+: h.lead T := hr.log.inv.sent_fresh hsent hw heq.symm
    have hpos := (hr.log.shape (hr.log.inv.sent_mem hsent)).length_pos
    have hlen := hlead.length_le
    have hpre : pre h (h.term t) (ℓ.length - 1) = ℓ := by
      rw [pre, hT, Nat.sub_add_cancel hpos, take_eq_take hlead le_rfl, take_length]
    have hinv := hr.inv.acknowledge ⟨i, hT ▸ hw⟩ (j := ℓ.length - 1) (by rw [hT]; omega)
      (by rw [hpre]; exact hℓ)
    refine ⟨_, hr.ballots hinv rfl rfl rfl (Set.subset_insert _ _) subset_rfl subset_rfl, rfl,
      Or.inr ?_⟩
    rw [← hT]
    exact Set.mem_insert _ _

variable {reply : AppendEntriesReply}

theorem accept
    (hp : appendRequest i t req ∈ s.pending) (hT : (s.node t).currentTerm = req.term)
    (hc : (s.node t).state ≠ .candidate) (hprev : (s.node t).prevConflict req = none)
    (hrT : reply.term = req.term) (hrm : reply.matchIndex = req.prevLogIndex + req.entries.length) :
    ∃ h' b', BallotRel ids ((s.setNode t
      (((s.node t).insertEntries (req.prevLogIndex + 1) req.entries).followCommit req)).post
      {.appendReply i t reply}) h' b' := by
  obtain ⟨hw, hne, ℓ, hsent, hslice⟩ := hr.log.pending hp
  obtain ⟨-, -, hlen⟩ := hr.log.accept_log hsent hslice hprev
  have hhint := hr.pending hp
  have hterm : h.term t = req.term := by rw [← (hr.log.node t).term, hT]
  have hr1 := hr.insertEntries hw hne hT hc hsent hslice hprev
  have hℓ : ℓ <+: (h.accept t ℓ).log t := by
    simp only [LogHistory.accept, update_self]
    split_ifs with hif
    · exact hif
    · exact prefix_rfl
  obtain ⟨b2, hr2, hhint2, hack⟩ := hr1.acknowledge (t := t) hw hterm hsent hℓ
  set m := (s.node t).insertEntries (req.prevLogIndex + 1) req.entries
  -- the commit index of the request, as far as the log goes
  obtain ⟨b3, hr3, hack3, hcommit⟩ : ∃ b3, BallotRel ids (s.setNode t m) (h.accept t ℓ) b3 ∧
      b3.ack = b2.ack ∧
      ((m.followCommit req).commitIndex = 0 ∨ (t, (m.followCommit req).commitIndex) ∈ b3.com) := by
    have hmnode := hr2.node t
    rw [setNode_self] at hmnode
    unfold followCommit
    split_ifs with hlt
    · rcases hhint with h0 | hh
      · omega
      · have hlearn := hr2.inv.follow_hint (r := t) (l := ℓ) (c := req.leaderCommit)
          (k := min req.leaderCommit (req.prevLogIndex + req.entries.length))
          (by rw [show (h.accept t ℓ).term t = req.term from hterm]; exact hsent)
          (by rw [show (h.accept t ℓ).term t = req.term from hterm, hhint2]; exact hh)
          (min_le_left _ _) (by omega) hℓ
        exact ⟨_, hr2.ballots (hr2.inv.learn hlearn) rfl rfl rfl subset_rfl (Set.subset_insert _ _)
          subset_rfl, rfl, Or.inr (Set.mem_insert _ _)⟩
    · exact ⟨b2, hr2, rfl, hmnode.commit⟩
  have hr4 : BallotRel ids (s.setNode t (m.followCommit req)) (h.accept t ℓ) b3 := by
    obtain ⟨c, hc⟩ := m.followCommit_eq req
    have hmnode := hr3.node t
    have hlog := hr3.log.followCommit t req
    rw [setNode_setNode, setNode_self] at hlog
    rw [setNode_self] at hmnode
    have hq := hr3.quiet (i := t) (n := m.followCommit req) (by rw [setNode_setNode]; exact hlog)
      (hmnode.congr (by rw [hc]; rfl) (by rw [hc]) hcommit (by rw [hc]; exact hmnode.applied))
    rwa [setNode_setNode] at hq
  refine ⟨h.accept t ℓ, b3, hr4.post_one (hr4.log.post_one trivial) fun _ => ?_⟩
  rw [hrT, hack3, hrm, show req.prevLogIndex + req.entries.length = ℓ.length - 1 by omega]
  exact hack

theorem record
    (hp : appendReply i t reply ∈ s.pending) (hT : reply.term = (s.node i).currentTerm)
    (hs : reply.success = true) :
    BallotRel ids (s.setNode i
      { s.node i with
        matchIndex := update (s.node i).matchIndex t reply.matchIndex
        nextIndex := update (s.node i).nextIndex t (reply.matchIndex + 1) }) h b := by
  have hold := hr.node i
  have hterm : reply.term = h.term i := hT.trans (hr.log.node i).term
  refine hr.quiet (hr.log.quiet rfl rfl rfl Iff.rfl id)
    { hold with matched := fun hl p hpi hne => ?_ }
  by_cases hpt : p = t
  · subst hpt
    right
    show (p, h.term i, update (s.node i).matchIndex p reply.matchIndex p) ∈ b.ack
    rw [update_self, ← hterm]
    rcases hr.pending hp hs with hlt | hack
    · omega
    · exact hack
  · show update (s.node i).matchIndex t reply.matchIndex p = 0 ∨
      (p, h.term i, update (s.node i).matchIndex t reply.matchIndex p) ∈ b.ack
    rw [update_of_ne hpt]
    exact hold.matched hl p hpi hne

theorem commit {k : Nat} (hl : (s.node i).state = .leader) (hk : 0 < k)
    (hcan : (s.node i).canCommit k = true) :
    ∃ b', BallotRel ids (s.setNode i { s.node i with commitIndex := k }) h b' := by
  have hnode := hr.log.node i
  have hold := hr.node i
  have hi : i ∈ ids := (hnode.active (by rw [hl]; nofun)).1
  rw [canCommit, getLogEntry_of_offset hnode.offset, hnode.log] at hcan
  cases he : (h.log i)[k]? with
  | none => rw [he] at hcan; cases hcan
  | some e =>
    rw [he] at hcan
    simp only [hnode.joint, Bool.and_eq_true, decide_eq_true_eq] at hcan
    obtain ⟨hterm, hcount⟩ := hcan
    set Q := insert i ((ids.toFinset.erase i).filter fun p => k ≤ (s.node i).matchIndex p) with hQ
    have hmaj : Majority ids.toFinset Q := by
      refine ⟨fun p hp => ?_, ?_⟩
      · rcases Finset.mem_insert.1 hp with rfl | hp
        · exact mem_toFinset.2 hi
        · exact Finset.mem_of_mem_erase (Finset.mem_filter.1 hp).1
      · rw [Finset.card_insert_of_notMem (by simp)]
        rw [matchCount, hnode.config, hnode.id] at hcount
        have hcount' : ids.toFinset.card / 2 + 1 ≤
            1 + ((ids.toFinset.erase i).filter fun p => k ≤ (s.node i).matchIndex p).card := hcount
        omega
    have hlearn := hr.inv.commit (hnode.leader.1 hl) he (hterm.trans hnode.term) hmaj (fun r hrQ => ?_)
    · have hr' := hr.ballots (hr.inv.learn hlearn) rfl rfl rfl subset_rfl (Set.subset_insert _ _)
        subset_rfl
      refine ⟨_, hr'.quiet (hr.log.quiet rfl rfl rfl Iff.rfl id)
        ((hr'.node i).congr rfl rfl (Or.inr (Set.mem_insert _ _)) (hr'.node i).applied)⟩
    · rcases Finset.mem_insert.1 hrQ with rfl | hrQ
      · exact Or.inl rfl
      · obtain ⟨hmem, hle⟩ := Finset.mem_filter.1 hrQ
        obtain ⟨hne, hrid⟩ := Finset.mem_erase.1 hmem
        rcases hold.matched hl r (mem_toFinset.1 hrid) hne with h0 | hack
        · omega
        · exact Or.inr ⟨_, hle, hack⟩

theorem apply (hcore : n.coreView = (s.node i).coreView)
    (hla : n.lastApplied = max (s.node i).lastApplied (s.node i).commitIndex) :
    BallotRel ids (s.setNode i n) h b := by
  obtain ⟨hv, -, -, hc, hm⟩ := coreView_eq hcore
  have hold := hr.node i
  refine hr.quiet (hr.log.core hcore) (hold.congr hv hm (by rw [hc]; exact hold.commit) ?_)
  rw [hla]
  rcases le_total (s.node i).lastApplied (s.node i).commitIndex with hle | hle
  · rw [max_eq_right hle]; exact hold.commit
  · rw [max_eq_left hle]; exact hold.applied

end

/-! ## Runs -/

theorem move {s' : Cluster σ} (hempty : "" ∉ ids) (hr : BallotRel ids s h b)
    (hm : Move True ids s s') : ∃ h' b', BallotRel ids s' h' b' := by
  cases hm with
  | quiet i n hcore hla =>
    obtain ⟨hv, -, -, hc, hm⟩ := coreView_eq hcore
    have hold := hr.node i
    exact ⟨h, b, hr.quiet (hr.log.core hcore) (hold.congr hv hm (by rw [hc]; exact hold.commit)
      (by rw [hla]; exact hold.applied))⟩
  | follow i T hT => exact ⟨_, _, hr.follow hT⟩
  | stepDown i t req hp hT hc =>
    obtain ⟨hw, -⟩ := hr.log.pending hp
    exact ⟨_, _, hr.stepDown hT hc hw⟩
  | campaign i hi _ => exact ⟨_, _, hr.campaign hi⟩
  | election i hi => exact ⟨h, b, hr.post_one (hr.log.post_one trivial) hi⟩
  | request i hp => exact ⟨h, b, hr.request hp⟩
  | grant c t req hp hT hcan hup hl => exact ⟨_, _, hr.grant hempty hp hT hcan hup (hl trivial)⟩
  | refuse p hp => exact ⟨h, b, hr.refusal hp⟩
  | count c orig v reply hp hc hg ho => exact ⟨h, b, hr.count hp hg (ho trivial)⟩
  | heartbeat i hl => exact ⟨h, hr.heartbeat hl⟩
  | propose i command hl => exact ⟨_, _, hr.propose hl rfl rfl⟩
  | send i t T c req hp hs => exact ⟨_, _, hr.send hp hs⟩
  | accept i t req reply hp hT hc hprev hrT hrm => exact hr.accept hp hT hc hprev hrT hrm
  | record i t reply hp hl hT hs => exact ⟨h, b, hr.record hp hT hs⟩
  | commit i k hl hk hcan => exact ⟨h, hr.commit hl hk hcan⟩
  | apply i n hcore hla => exact ⟨h, b, hr.apply hcore hla⟩

theorem moveInv (hempty : "" ∉ ids) (node : String → RaftNode σ) :
    MoveInv True ids node fun c : Cluster σ => ∃ h b, BallotRel ids c h b where
  joint := fun ⟨_, _, hr⟩ i => (hr.log.node i).joint
  move := fun ⟨_, _, hr⟩ hm => hr.move hempty hm
  win := fun ⟨_, _, hr⟩ ⟨_, hc, hq, e⟩ _ => ⟨_, _, e ▸ hr.win hc hq⟩
  less := fun ⟨h, b, hr⟩ hn hp => ⟨h, b, hr.less hn hp⟩

theorem of_run {M : StateMachine σ} {sm : String → σ} (hempty : "" ∉ ids)
    {hist : List (Cluster σ × Action)} (hrun : Run M ids sm SoundVotes hist s) :
    ∃ h b, BallotRel ids s h b := by
  induction hrun with
  | init => exact ⟨_, _, ballotRel_init ids sm⟩
  | step _ hok hs ih => exact (moveInv hempty _).step ih (fun _ => hok) hs

end BallotRel

/-- If no leader gives away its vote in the term it leads and no vote of an earlier election reaches
a candidate, no two nodes lead the same term. -/
theorem one_leader_of_soundVotes (M : StateMachine σ) (ids : List String) (sm : String → σ)
    (hempty : "" ∉ ids) {hist : List (Cluster σ × Action)} {s : Cluster σ}
    (hrun : Run M ids sm SoundVotes hist s) (i j : String) (hi : (s.node i).state = .leader)
    (hj : (s.node j).state = .leader) (hT : (s.node i).currentTerm = (s.node j).currentTerm) :
    i = j := by
  obtain ⟨h, b, hr⟩ := BallotRel.of_run hempty hrun
  have hwi : h.won (h.term i) = some i := (hr.log.node i).leader.1 hi
  have hwj : h.won (h.term j) = some j := (hr.log.node j).leader.1 hj
  rw [← (hr.log.node i).term, hT, (hr.log.node j).term, hwj] at hwi
  exact (Option.some.inj hwi).symm

/-- In a cluster of three, `a` and `b` start an election of term `1`, `c` votes for `a`, and `a`
votes for `b` after it has become the leader. -/
def twoLeaders : List Action :=
  let request (c : String) : RequestVoteRequest :=
    { term := 1, candidateID := c, lastLogIndex := 0, lastLogTerm := 0 }
  let granted : RequestVoteReply := { term := 1, voteGranted := true }
  [.timeout "a", .timeout "b", .deliver (.election "a"), .deliver (.election "b"),
    .deliver (.voteRequest "a" "c" (request "a")), .deliver (.voteReply "a" 1 "c" granted),
    .deliver (.voteRequest "b" "a" (request "b")), .deliver (.voteReply "b" 1 "a" granted)]

/-- The leader `a` makes `b` a second leader of term `1`. -/
theorem one_leader_fails_for_two_votes :
    ¬ ∀ (hist : List (Cluster Unit × Action)) (s : Cluster Unit),
      AnyRun .idle ["a", "b", "c"] (fun _ => ()) hist s →
      ∀ i j, (s.node i).state = .leader → (s.node j).state = .leader →
        (s.node i).currentTerm = (s.node j).currentTerm → i = j := by
  intro h
  obtain ⟨hist, s, hrun, -, ha, hb, hT⟩ := Run.of_runActions .idle ["a", "b", "c"] (fun _ => ())
    (fun _ _ => True) twoLeaders
    (fun s => (s.node "a").state = .leader ∧ (s.node "b").state = .leader ∧
      (s.node "a").currentTerm = (s.node "b").currentTerm) (by decide)
  exact absurd (h hist s hrun "a" "b" ha hb hT) (by decide)

theorem one_leader_of_first_votes : ∃ (hist : List (Cluster Unit × Action)) (s : Cluster Unit),
      Run .idle ["a", "b", "c"] (fun _ => ()) SoundVotes hist s ∧ (s.node "a").state = .leader ∧
      (s.node "a").currentTerm = 1 ∧
      ∀ j, (s.node j).state = .leader → (s.node j).currentTerm = 1 → "a" = j := by
  obtain ⟨hist, s, hrun, -, ha, hT⟩ := Run.of_runActions .idle ["a", "b", "c"] (fun _ => ())
    SoundVotes (twoLeaders.take 6)
    (fun s => (s.node "a").state = .leader ∧ (s.node "a").currentTerm = 1) (by decide)
  refine ⟨hist, s, hrun, ha, hT, fun j hj hTj => ?_⟩
  exact one_leader_of_soundVotes .idle _ _ (by decide) hrun "a" j ha hj (hT.trans hTj.symm)

/-! ## State machine safety -/

/-- What two nodes have applied at the same index has the same term, type and command. -/
def AppliedAgree (s : Cluster σ) : Prop :=
  ∀ i j k e e', k ≤ (s.node i).lastApplied → k ≤ (s.node j).lastApplied →
    (s.node i).getLogEntry k = some e → (s.node j).getLogEntry k = some e' →
    e.term = e'.term ∧ e.type = e'.type ∧ e.command = e'.command

namespace BallotRel

theorem applied_lt (hr : BallotRel ids s h b) {i : String} {k : Nat}
    (hk : k ≤ (s.node i).lastApplied) : k < (s.node i).log.length := by
  have hnode := hr.log.node i
  rw [hnode.log]
  rcases (hr.node i).applied with h0 | hcom
  · have := (hr.log.shape (hr.log.inv.log_mem i)).length_pos
    omega
  · obtain ⟨T, j, -, hch, hj, hp⟩ := hr.inv.com hcom
    have hlt := hch.1.lt
    have hlen := hp.length_le
    rw [length_take] at hlen
    omega

theorem applied_eq (hr : BallotRel ids s h b) {i j : String} {k : Nat}
    (hi : k ≤ (s.node i).lastApplied) (hj : k ≤ (s.node j).lastApplied) :
    (s.node i).log[k]? = (s.node j).log[k]? := by
  have hhead : ∀ n, (s.node n).log[0]? = some sentinel := fun n => by
    rw [(hr.log.node n).log]; exact (hr.log.shape (hr.log.inv.log_mem n)).head
  by_cases hk : k = 0
  · rw [hk, hhead, hhead]
  · rw [(hr.log.node i).log, (hr.log.node j).log]
    rcases (hr.node i).applied with h0 | hci
    · omega
    · rcases (hr.node j).applied with h0 | hcj
      · omega
      · exact hr.inv.com_agree hci hcj hi hj

end BallotRel

/-- If no leader gives away its vote in the term it leads and no vote of an earlier election reaches
a candidate, the entries that two nodes have applied at the same index agree. -/
theorem appliedAgree_of_soundVotes (M : StateMachine σ) (ids : List String) (sm : String → σ)
    (hempty : "" ∉ ids) {hist : List (Cluster σ × Action)} {s : Cluster σ}
    (hrun : Run M ids sm SoundVotes hist s) :
    AppliedAgree s ∧
      ∀ i k, k ≤ (s.node i).lastApplied → ∃ e, (s.node i).getLogEntry k = some e := by
  obtain ⟨h, b, hr⟩ := BallotRel.of_run hempty hrun
  have hget : ∀ i k, (s.node i).getLogEntry k = (s.node i).log[k]? := fun i k =>
    getLogEntry_of_offset (hr.log.node i).offset k
  refine ⟨?_, fun i k hk => ?_⟩
  · intro i j k e e' hi hj he he'
    rw [hget] at he he'
    rw [hr.applied_eq hi hj, he'] at he
    obtain rfl : e' = e := Option.some.inj he
    exact ⟨rfl, rfl, rfl⟩
  · rw [hget]
    exact ⟨_, getElem?_eq_getElem (hr.applied_lt hk)⟩

/-- Both leaders send an entry of index `1` to `c`, which keeps the first and acknowledges both. -/
def twoCommits : List Action :=
  let entry (x : UInt8) : LogEntry := { term := 1, index := 1, type := .normal, command := [x] }
  let request (i : String) (x : UInt8) : AppendEntriesRequest :=
    { term := 1, leaderID := i, prevLogIndex := 0, prevLogTerm := 0, entries := [entry x],
      leaderCommit := 0 }
  let reply : AppendEntriesReply :=
    { term := 1, success := true, matchIndex := 1, conflictTerm := 0, conflictIndex := 0 }
  let round (i : String) (x : UInt8) : List Action :=
    [.propose i [x], .heartbeat i, .deliver (.append i "c" 1 0),
      .deliver (.appendRequest i "c" (request i x)), .deliver (.appendReply i "c" reply), .apply i]
  twoLeaders ++ round "a" 1 ++ round "b" 2

/-- The two leaders of term `1` apply different commands at index `1`. -/
theorem appliedAgree_fails_for_two_leaders :
    ¬ ∀ (hist : List (Cluster Unit × Action)) (s : Cluster Unit),
      AnyRun .idle ["a", "b", "c"] (fun _ => ()) hist s → AppliedAgree s := by
  intro h
  obtain ⟨hist, s, hrun, -, ha, hb, hea, heb⟩ := Run.of_runActions .idle ["a", "b", "c"]
    (fun _ => ()) (fun _ _ => True) twoCommits
    (fun s => 1 ≤ (s.node "a").lastApplied ∧ 1 ≤ (s.node "b").lastApplied ∧
      (s.node "a").getLogEntry 1 = some { term := 1, index := 1, type := .normal, command := [1] } ∧
      (s.node "b").getLogEntry 1 =
        some { term := 1, index := 1, type := .normal, command := [2] }) (by decide)
  have := (h hist s hrun "a" "b" 1 _ _ ha hb hea heb).2.2
  exact absurd this (by decide)

/-- The run `oneEntry`, until both nodes have applied the command. -/
def oneCommit : List Action :=
  let reply : AppendEntriesReply :=
    { term := 1, success := true, matchIndex := 1, conflictTerm := 0, conflictIndex := 0 }
  let req : AppendEntriesRequest :=
    { term := 1, leaderID := "a", prevLogIndex := 1, prevLogTerm := 1, entries := [],
      leaderCommit := 1 }
  oneEntry ++ [.deliver (.appendReply "a" "b" reply), .apply "a", .heartbeat "a",
      .deliver (.append "a" "b" 1 1), .deliver (.appendRequest "a" "b" req), .apply "b"]

/-- `appliedAgree_of_soundVotes` after the run above. -/
theorem appliedAgree_after_one_commit : ∃ (hist : List (Cluster Unit × Action)) (s : Cluster Unit),
      Run .idle ["a", "b"] (fun _ => ()) SoundVotes hist s ∧ (s.node "a").lastApplied = 1 ∧
      (s.node "b").lastApplied = 1 ∧ AppliedAgree s ∧
      ∃ e, (s.node "b").getLogEntry 1 = some e := by
  obtain ⟨hist, s, hrun, -, ha, hb⟩ := Run.of_runActions .idle ["a", "b"] (fun _ => ()) SoundVotes
    oneCommit (fun s => (s.node "a").lastApplied = 1 ∧ (s.node "b").lastApplied = 1) (by decide)
  obtain ⟨h1, h2⟩ := appliedAgree_of_soundVotes .idle _ _ (by decide) hrun
  exact ⟨hist, s, hrun, ha, hb, h1, h2 "b" 1 hb.ge⟩

/-- A node has an entry at every position up to its commit index, and every leader of its term or a
later one has the same entry there. -/
theorem leader_holds_committed {M : StateMachine σ} {sm : String → σ} (hempty : "" ∉ ids)
    {hist : List (Cluster σ × Action)} (hrun : Run M ids sm SoundVotes hist s) {i : String}
    {k : Nat} (hk : k ≤ (s.node i).commitIndex) :
    ∃ e, (s.node i).getLogEntry k = some e ∧ ∀ j, (s.node j).state = .leader →
      (s.node i).currentTerm ≤ (s.node j).currentTerm → (s.node j).getLogEntry k = some e := by
  obtain ⟨h, b, hr⟩ := BallotRel.of_run hempty hrun
  have hi := hr.log.node i
  rw [getLogEntry_of_offset hi.offset]
  rcases (hr.node i).commit with h0 | hcom
  · rw [show k = 0 by omega]
    refine ⟨_, (hr.log.wellIndexed i).head, fun j _ _ => ?_⟩
    rw [getLogEntry_of_offset (hr.log.node j).offset]
    exact (hr.log.wellIndexed j).head
  · obtain ⟨T, c, hTi, hch, hc, hp⟩ := hr.inv.com hcom
    have hlt := hch.1.lt
    rw [hi.log, getElem?_of_take hp hk (by omega), getElem?_eq_getElem (by omega)]
    refine ⟨_, rfl, fun j hj hT => ?_⟩
    have hl := hr.log.node j
    rw [hi.term, hl.term] at hT
    have hw := hl.leader.1 hj
    have hlead : pre h T c <+: h.log j := by
      rcases (hTi.trans hT).lt_or_eq with hlater | rfl
      · exact hr.inv.hold_won hw hlater hch.choosable
      · exact hr.inv.hold hch.choosable (.inr ⟨hw, hlt⟩)
    rw [getLogEntry_of_offset hl.offset, hl.log, getElem?_of_take hlead (hk.trans hc) hlt,
      getElem?_eq_getElem (by omega)]

theorem leader_holds_one_commit : ∃ s : Cluster Unit, 1 ≤ (s.node "b").commitIndex ∧
      ∃ e, (s.node "b").getLogEntry 1 = some e ∧ (s.node "a").getLogEntry 1 = some e := by
  obtain ⟨hist, s, hrun, -, ha, hT, hb⟩ := Run.of_runActions .idle ["a", "b"] (fun _ => ())
    SoundVotes oneCommit (fun s => (s.node "a").state = .leader ∧
      (s.node "b").currentTerm ≤ (s.node "a").currentTerm ∧ 1 ≤ (s.node "b").commitIndex) (by decide)
  obtain ⟨e, he, hleader⟩ := leader_holds_committed (by decide) hrun hb
  exact ⟨s, hb, e, he, hleader "a" ha hT⟩

end Solocoder.Raft
