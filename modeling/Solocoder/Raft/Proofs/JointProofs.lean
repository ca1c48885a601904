import Solocoder.Raft.Proofs.HandlerProofs

/-!
# The commit rule of a joint configuration

`updateCommitIndex` and `checkConfigProgress` count the nodes that hold an index, in the old and in
the new configuration, and start both counts at one for the leader itself.
-/

namespace Solocoder.Raft

open Solocoder.Raft.Configuration Finset RaftNode

variable {σ : Type}

namespace RaftNode

/-- The members of a configuration that hold index `i`, as the leader `n` knows them. -/
def holders (n : RaftNode σ) (c : Configuration) (i : Nat) : Finset String :=
  c.nodes.filter fun p => p = n.id ∨ i ≤ n.matchIndex p

/-- `{leader} ∪ {p | matchIndex p ≥ i}` has a quorum of the old and of the new configuration. -/
def DoubleMajority (n : RaftNode σ) (jc : JointConfiguration) (i : Nat) : Prop :=
  jc.old.quorum ≤ (n.holders jc.old i).card ∧ jc.new.quorum ≤ (n.holders jc.new i).card

/-- A call of `updateCommitIndex` or `checkConfigProgress` assigns `i` to `commitIndex`. -/
inductive MovesTo (n : RaftNode σ) : Nat → Prop where
  | update {pre post : List Nat} {j i : Nat} (hl : n.state = .leader)
      (hsplit : n.uncommitted = pre ++ j :: post)
      (hne : ((pre.foldl tryCommit n).tryCommit j).commitIndex ≠ (pre.foldl tryCommit n).commitIndex)
      (hi : ((pre.foldl tryCommit n).tryCommit j).commitIndex = i) : MovesTo n i
  | joint {jc : JointConfiguration} {i : Nat} (hl : n.state = .leader) (hj : n.joint = some jc)
      (hne : (n.progressJoint jc).commitIndex ≠ n.commitIndex)
      (hi : (n.progressJoint jc).commitIndex = i) : MovesTo n i
  | new {jc : JointConfiguration} {i : Nat} (hl : n.state = .leader) (hj : n.joint = some jc)
      (hne : ((n.progressJoint jc).progressNew jc).commitIndex ≠ (n.progressJoint jc).commitIndex)
      (hi : ((n.progressJoint jc).progressNew jc).commitIndex = i) : MovesTo n i

end RaftNode

/-- The joint configuration `(old, new)` is one that a leader `id` creates by `AddNode` or
`RemoveNode`. -/
def JointFrom (σ : Type) (id : String) (old new : Configuration) : Prop :=
  ∃ (n n' : RaftNode σ) (x : String), n.id = id ∧ (n.addNode x = .ok n' ∨ n.removeNode x = .ok n') ∧
    n'.joint = some ⟨old, new⟩

/-- Every leader `id` with this joint configuration moves its commit index only to indices that a
majority of both configurations holds. -/
def CommitRule (σ : Type) (id : String) (old new : Configuration) : Prop :=
  ∀ n : RaftNode σ, n.id = id → n.state = .leader → n.joint = some ⟨old, new⟩ →
    ∀ i, n.MovesTo i → n.DoubleMajority ⟨old, new⟩ i

namespace RaftNode

variable {n : RaftNode σ}

theorem holders_card (n : RaftNode σ) (c : Configuration) (i : Nat) :
    (n.holders c i).card + 1 = n.matchCount c i + if n.id ∈ c.nodes then 1 else 0 := by
  have hsplit : n.holders c i =
      (c.nodes.filter (· = n.id)) ∪ ((c.nodes.erase n.id).filter fun p => i ≤ n.matchIndex p) := by
    ext p
    simp only [holders, mem_filter, mem_union, mem_erase]
    by_cases hp : p = n.id
    · simp [hp]
    · simp [hp]
  have hdisj : Disjoint (c.nodes.filter (· = n.id))
      ((c.nodes.erase n.id).filter fun p => i ≤ n.matchIndex p) := by
    rw [disjoint_left]
    intro p hp hq
    simp only [mem_filter, mem_erase] at hp hq
    exact hq.1.1 hp.2
  rw [hsplit, card_union_of_disjoint hdisj, filter_eq']
  unfold matchCount
  split_ifs
  · simp only [card_singleton]
  · simp only [card_empty]; omega

theorem jointMatch_congr {m : RaftNode σ} (h1 : m.matchIndex = n.matchIndex) (h2 : m.id = n.id)
    (jc : JointConfiguration) (i : Nat) : m.jointMatch jc i = n.jointMatch jc i := by
  unfold jointMatch matchCount
  rw [h1, h2]

theorem progressJoint_counts (n : RaftNode σ) (jc : JointConfiguration) :
    (n.progressJoint jc).matchIndex = n.matchIndex ∧ (n.progressJoint jc).id = n.id := by
  unfold progressJoint
  split
  · exact ⟨rfl, rfl⟩
  · split_ifs <;> exact ⟨rfl, rfl⟩

theorem MovesTo.jointMatch {i : Nat} (h : n.MovesTo i) {jc : JointConfiguration}
    (hj : n.joint = some jc) : n.jointMatch jc i = true := by
  cases h with
  | @update pre post j _ hl hsplit hne hi =>
    obtain ⟨c, hc⟩ := foldl_tryCommit_eq pre n
    obtain ⟨h1, h2, h3⟩ : (pre.foldl tryCommit n).matchIndex = n.matchIndex ∧
        (pre.foldl tryCommit n).id = n.id ∧ (pre.foldl tryCommit n).joint = n.joint := by
      rw [hc]
      exact ⟨rfl, rfl, rfl⟩
    set m := pre.foldl tryCommit n
    unfold tryCommit at hne hi
    split_ifs at hne hi with hc
    · subst hi
      unfold canCommit at hc
      cases hg : m.getLogEntry j with
      | none => rw [hg] at hc; cases hc
      | some e =>
        rw [hg, h3, hj] at hc
        simp only [Bool.and_eq_true] at hc
        rw [← jointMatch_congr h1 h2]
        exact hc.2.2
    · exact absurd rfl hne
  | @joint jc' _ hl hj' hne hi =>
    obtain rfl : jc' = jc := Option.some.inj (hj'.symm.trans hj)
    subst hi
    revert hne
    unfold progressJoint
    split
    · exact (absurd rfl ·)
    · split_ifs with hc
      · exact fun _ => hc
      · exact (absurd rfl ·)
  | @new jc' _ hl hj' hne hi =>
    obtain rfl : jc' = jc := Option.some.inj (hj'.symm.trans hj)
    obtain ⟨h1, h2⟩ := progressJoint_counts n jc'
    subst hi
    rw [← jointMatch_congr h1 h2]
    revert hne
    unfold progressNew
    split
    · exact (absurd rfl ·)
    · split_ifs with hc
      · exact fun _ => hc
      · exact (absurd rfl ·)

end RaftNode

variable {id : String} {old new : Configuration}

theorem JointFrom.shape (h : JointFrom σ id old new) :
    (∃ x ∉ old.nodes, new.nodes = insert x old.nodes) ∨
      (∃ x ∈ old.nodes, new.nodes = old.nodes.erase x ∧ new.nodes ≠ ∅) := by
  obtain ⟨n, n', x, -, hadd | hrem, hj⟩ := h
  · left
    unfold addNode at hadd
    split_ifs at hadd with h1 h2 h3
    simp only [Except.ok.injEq] at hadd
    subst hadd
    obtain ⟨rfl, rfl⟩ := hj
    exact ⟨x, by simpa [contains] using h3, rfl⟩
  · right
    unfold removeNode at hrem
    split_ifs at hrem with h1 h2 h3 h4
    simp only [Except.ok.injEq] at hrem
    subst hrem
    obtain ⟨rfl, rfl⟩ := hj
    exact ⟨x, by simpa [contains] using h3, rfl, h4⟩

/-- A leader `id` in term `1` with one uncommitted entry, which exactly the nodes of `S` hold. -/
def leaderWith (sm : σ) (id : String) (old new : Configuration) (S : Finset String) : RaftNode σ :=
  { newRaftNode id sm [] with
    state := .leader
    currentTerm := 1
    log := [sentinel, { term := 1, index := 1, type := .normal, command := [] }]
    matchIndex := fun p => if p ∈ S then 1 else 0
    config := old
    joint := some ⟨old, new⟩ }

theorem leaderWith_matchCount (sm : σ) (id : String) (old new c : Configuration)
    (S : Finset String) :
    (leaderWith sm id old new S).matchCount c 1 = 1 + ((c.nodes.erase id) ∩ S).card := by
  unfold matchCount leaderWith
  congr 2
  ext p
  by_cases hp : p ∈ S <;> simp [newRaftNode, hp]

theorem leaderWith_movesTo {sm : σ} {S : Finset String}
    (h1 : old.quorum ≤ 1 + ((old.nodes.erase id) ∩ S).card)
    (h2 : new.quorum ≤ 1 + ((new.nodes.erase id) ∩ S).card) :
    (leaderWith sm id old new S).MovesTo 1 := by
  have hcan : (leaderWith sm id old new S).canCommit 1 = true := by
    have hj : (leaderWith sm id old new S).jointMatch ⟨old, new⟩ 1 = true := by
      simp only [jointMatch, leaderWith_matchCount, Bool.and_eq_true, decide_eq_true_eq]
      exact ⟨h1, h2⟩
    have hg : (leaderWith sm id old new S).getLogEntry 1 =
        some { term := 1, index := 1, type := .normal, command := [] } := rfl
    simp only [canCommit, hg]
    simpa [leaderWith] using hj
  have hun : (leaderWith sm id old new S).uncommitted = [] ++ 1 :: [] := rfl
  have htry : (leaderWith sm id old new S).tryCommit 1 =
      { leaderWith sm id old new S with commitIndex := 1 } := if_pos hcan
  refine .update rfl hun ?_ ?_
  · rw [List.foldl_nil, htry]
    exact Nat.one_ne_zero
  · rw [List.foldl_nil, htry]

/-- The commit rule fails if some followers satisfy both counts but are, with the leader, no
majority of one of the configurations. -/
theorem not_commitRule (sm : σ) (S : Finset String)
    (h1 : old.quorum ≤ 1 + ((old.nodes.erase id) ∩ S).card)
    (h2 : new.quorum ≤ 1 + ((new.nodes.erase id) ∩ S).card)
    (hbad : (id ∉ old.nodes ∧ ((old.nodes.erase id) ∩ S).card < old.quorum) ∨ (id ∉ new.nodes ∧
      ((new.nodes.erase id) ∩ S).card < new.quorum)) : ¬ CommitRule σ id old new := by
  intro hrule
  have hid : (leaderWith sm id old new S).id = id := rfl
  obtain ⟨g1, g2⟩ := hrule (leaderWith sm id old new S) rfl rfl rfl 1 (leaderWith_movesTo h1 h2)
  have c1 := (leaderWith sm id old new S).holders_card old 1
  have c2 := (leaderWith sm id old new S).holders_card new 1
  rw [leaderWith_matchCount, hid] at c1 c2
  simp only at g1 g2
  rcases hbad with ⟨hn, hlt⟩ | ⟨hn, hlt⟩
  · rw [if_neg hn] at c1; omega
  · rw [if_neg hn] at c2; omega

/-- The leader is in the old configuration, or it adds itself to one of odd size; and it is in the
new configuration, or it removes itself from one of even size. -/
def LeaderCounts (id : String) (old new : Configuration) : Prop :=
  (id ∈ old.nodes ∨ (id ∈ new.nodes ∧ Odd old.nodes.card)) ∧
    (id ∈ new.nodes ∨ (id ∈ old.nodes ∧ Even old.nodes.card))

section

variable (hshape : (∃ x ∉ old.nodes, new.nodes = insert x old.nodes) ∨
  (∃ x ∈ old.nodes, new.nodes = old.nodes.erase x ∧ new.nodes ≠ ∅))
include hshape

theorem not_commitRule_of_outside (sm : σ) (ho : id ∉ old.nodes) (hn : id ∉ new.nodes) :
    ¬ CommitRule σ id old new := by
  have eo : old.nodes.erase id = old.nodes := erase_eq_of_notMem ho
  have en : new.nodes.erase id = new.nodes := erase_eq_of_notMem hn
  rcases hshape with ⟨x, hx, hnew⟩ | ⟨x, hx, hnew, hne⟩
  · -- half of the old nodes and the added node
    obtain ⟨T, hT, hTc⟩ := exists_subset_card_eq (Nat.div_le_self old.nodes.card 2)
    have hxT : x ∉ T := fun h => hx (hT h)
    have i1 : old.nodes ∩ insert x T = T := by
      rw [inter_insert_of_notMem hx]; exact inter_eq_right.2 hT
    have i2 : new.nodes ∩ insert x T = insert x T := by
      rw [hnew]; exact inter_eq_right.2 (insert_subset_insert x hT)
    have cn : new.nodes.card = old.nodes.card + 1 := by
      rw [hnew, card_insert_of_notMem hx]
    have ci : (insert x T).card = T.card + 1 := card_insert_of_notMem hxT
    refine not_commitRule sm (insert x T) ?_ ?_ (Or.inl ⟨ho, ?_⟩)
    · rw [eo, i1, quorum]; omega
    · rw [en, i2, quorum]; omega
    · rw [eo, i1, quorum]; omega
  · -- half of the old nodes, without the removed node
    have cn : new.nodes.card = old.nodes.card - 1 := by rw [hnew, card_erase_of_mem hx]
    obtain ⟨T, hT, hTc⟩ := exists_subset_card_eq (s := new.nodes) (n := old.nodes.card / 2)
      (by omega)
    have hTo : T ⊆ old.nodes := fun p hp => by
      have := hT hp
      rw [hnew] at this
      exact mem_of_mem_erase this
    refine not_commitRule sm T ?_ ?_ (Or.inl ⟨ho, ?_⟩)
    · rw [eo, inter_eq_right.2 hTo, quorum]; omega
    · rw [en, inter_eq_right.2 hT, quorum]; omega
    · rw [eo, inter_eq_right.2 hTo, quorum]; omega

theorem removed_leader (ho : id ∈ old.nodes) (hn : id ∉ new.nodes) :
    new.nodes = old.nodes.erase id ∧ new.nodes.card + 1 = old.nodes.card ∧ 0 < new.nodes.card := by
  rcases hshape with ⟨x, hx, hnew⟩ | ⟨x, hx, hnew, hne⟩
  · exact absurd (by rw [hnew]; exact mem_insert_of_mem ho) hn
  · have hxid : x = id := by
      by_contra hne'
      exact hn (by rw [hnew]; exact mem_erase.2 ⟨Ne.symm hne', ho⟩)
    subst hxid
    refine ⟨hnew, ?_, card_pos.2 (nonempty_iff_ne_empty.2 hne)⟩
    rw [hnew]
    exact card_erase_add_one ho

theorem added_leader (ho : id ∉ old.nodes) (hn : id ∈ new.nodes) :
    new.nodes.erase id = old.nodes ∧ new.nodes.card = old.nodes.card + 1 := by
  rcases hshape with ⟨x, hx, hnew⟩ | ⟨x, hx, hnew, hne⟩
  · have hxid : id = x := by
      rw [hnew] at hn
      rcases mem_insert.1 hn with h | h
      · exact h
      · exact absurd h ho
    subst hxid
    exact ⟨by rw [hnew, erase_insert hx], by rw [hnew, card_insert_of_notMem hx]⟩
  · rw [hnew] at hn
    exact absurd (mem_of_mem_erase hn) ho

end

/-- Every move of the commit index has a majority of both configurations if and only if the leader
belongs to both, or removes itself from a configuration of even size, or adds itself to one of odd
size. -/
theorem commitRule_iff_leaderCounts {id : String} {old new : Configuration}
    (h : JointFrom σ id old new) : CommitRule σ id old new ↔ LeaderCounts id old new := by
  have hshape := h.shape
  constructor
  · intro hrule
    obtain ⟨n, -⟩ := h
    by_cases ho : id ∈ old.nodes
    · by_cases hn : id ∈ new.nodes
      · exact ⟨Or.inl ho, Or.inl hn⟩
      · refine ⟨Or.inl ho, Or.inr ⟨ho, ?_⟩⟩
        by_contra hodd
        rw [Nat.not_even_iff_odd] at hodd
        obtain ⟨e1, e2, e3⟩ := removed_leader hshape ho hn
        obtain ⟨k, hk⟩ := hodd
        obtain ⟨T, hT, hTc⟩ := exists_subset_card_eq (s := new.nodes) (n := k) (by omega)
        have en : new.nodes.erase id = new.nodes := erase_eq_of_notMem hn
        refine not_commitRule n.sm T ?_ ?_ (Or.inr ⟨hn, ?_⟩) hrule
        · rw [← e1, inter_eq_right.2 hT, quorum]; omega
        · rw [en, inter_eq_right.2 hT, quorum]; omega
        · rw [en, inter_eq_right.2 hT, quorum]; omega
    · by_cases hn : id ∈ new.nodes
      · refine ⟨Or.inr ⟨hn, ?_⟩, Or.inl hn⟩
        by_contra heven
        rw [Nat.not_odd_iff_even] at heven
        obtain ⟨e1, e2⟩ := added_leader hshape ho hn
        obtain ⟨k, hk⟩ := heven
        obtain ⟨T, hT, hTc⟩ := exists_subset_card_eq (s := old.nodes) (n := k) (by omega)
        have eo : old.nodes.erase id = old.nodes := erase_eq_of_notMem ho
        refine not_commitRule n.sm T ?_ ?_ (Or.inl ⟨ho, ?_⟩) hrule
        · rw [eo, inter_eq_right.2 hT, quorum]; omega
        · rw [e1, inter_eq_right.2 hT, quorum]; omega
        · rw [eo, inter_eq_right.2 hT, quorum]; omega
      · exact absurd hrule (not_commitRule_of_outside hshape n.sm ho hn)
  · intro hcond n hid hl hj i hm
    have hmatch := hm.jointMatch hj
    simp only [jointMatch, Bool.and_eq_true, decide_eq_true_eq] at hmatch
    obtain ⟨h1, h2⟩ := hmatch
    have c1 := n.holders_card old i
    have c2 := n.holders_card new i
    rw [hid] at c1 c2
    simp only [DoubleMajority]
    by_cases ho : id ∈ old.nodes
    · rw [if_pos ho] at c1
      by_cases hn : id ∈ new.nodes
      · rw [if_pos hn] at c2
        exact ⟨by omega, by omega⟩
      · -- the followers in the new configuration are all the followers that were counted
        obtain ⟨e1, e2, -⟩ := removed_leader hshape ho hn
        have hcount : n.matchCount new i = n.matchCount old i := by
          unfold matchCount
          rw [hid, ← e1, erase_eq_of_notMem hn]
        obtain ⟨k, hk⟩ : Even old.nodes.card := (hcond.2.resolve_left hn).2
        unfold quorum at h1 h2 ⊢
        exact ⟨by omega, by omega⟩
    · have hn : id ∈ new.nodes := (hcond.1.resolve_left ho).1
      rw [if_pos hn] at c2
      obtain ⟨e1, e2⟩ := added_leader hshape ho hn
      have hcount : n.matchCount new i = n.matchCount old i := by
        unfold matchCount
        rw [hid, e1, erase_eq_of_notMem ho]
      obtain ⟨k, hk⟩ : Odd old.nodes.card := (hcond.1.resolve_left ho).2
      unfold quorum at h1 h2 ⊢
      exact ⟨by omega, by omega⟩

def leaderOfThree : RaftNode Unit :=
  { newRaftNode "a" () ["a", "b", "c"] with state := .leader, currentTerm := 1, running := true }

theorem commitRule_remove_follower : JointFrom Unit "a" ⟨{"a", "b", "c"}⟩ ⟨{"a", "b"}⟩ ∧
      (CommitRule Unit "a" ⟨{"a", "b", "c"}⟩ ⟨{"a", "b"}⟩ ↔
        LeaderCounts "a" ⟨{"a", "b", "c"}⟩ ⟨{"a", "b"}⟩) := by
  have h : JointFrom Unit "a" ⟨{"a", "b", "c"}⟩ ⟨{"a", "b"}⟩ :=
    ⟨leaderOfThree, leaderOfThree.enterJoint ⟨{"a", "b"}⟩, "c", rfl, Or.inr rfl, rfl⟩
  exact ⟨h, commitRule_iff_leaderCounts h⟩

/-- The leader `a` of `a`, `b`, `c` removes itself, and the joint entry is committed once `b` holds
it. -/
theorem commitRule_fails_for_removed_leader :
    ¬ ∀ (id : String) (old new : Configuration), JointFrom Unit id old new →
      CommitRule Unit id old new := by
  intro h
  have hfrom : JointFrom Unit "a" ⟨{"a", "b", "c"}⟩ ⟨{"b", "c"}⟩ :=
    ⟨leaderOfThree, leaderOfThree.enterJoint ⟨{"b", "c"}⟩, "a", rfl, Or.inr rfl, rfl⟩
  set n : RaftNode Unit :=
    { leaderOfThree.enterJoint ⟨{"b", "c"}⟩ with matchIndex := Function.update (fun _ => 0) "b" 1 }
  have hjoint : n.joint = some ⟨⟨{"a", "b", "c"}⟩, ⟨{"b", "c"}⟩⟩ := rfl
  have hmove : n.MovesTo 1 := .joint rfl hjoint (by decide) (by decide)
  have := (h _ _ _ hfrom n rfl rfl rfl 1 hmove).2
  revert this
  decide

end Solocoder.Raft
