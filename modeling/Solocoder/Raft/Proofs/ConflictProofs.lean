import Solocoder.Raft.Proofs.ReplicaProofs

/-!
# Conflicts

A follower that refuses a request sends the term of its entry before the new ones, and the leader
goes back behind its own last entry of that term. This leads backwards when the entries of a term come
from one log.
-/

namespace Solocoder.Raft

open List

variable {σ : Type} {L F n : RaftNode σ} {target : String} {req : AppendEntriesRequest}

/-- An entry of `l` whose term the log `ℓ` still has there or later is also in `ℓ`. -/
def Matching (ℓ l : List LogEntry) : Prop :=
  ∀ (i j : Nat) (e e' : LogEntry), j ≤ i → ℓ[i]? = some e → l[j]? = some e' → e.term = e'.term → ℓ[j]? = some e'

/-- The leader sends to a follower of its own term, and neither log was compacted. -/
structure Syncing (L F : RaftNode σ) (target : String) : Prop where
  leader : L.state = .leader
  term : F.currentTerm = L.currentTerm
  leaderOffset : L.logOffset = 0
  offset : F.logOffset = 0
  aligned : F.Aligned
  nonempty : F.log ≠ []
  matching : Matching L.log F.log
  next : 1 ≤ L.nextIndex target

/-- A request to `target` and its reply, with whether it was accepted. -/
def exchange (target : String) (p : RaftNode σ × RaftNode σ) : (RaftNode σ × RaftNode σ) × Bool :=
  match p.1.sendTo target p.1.currentTerm p.1.commitIndex with
  | .snapshot .. => (p, false)
  | .append req =>
    let r := p.2.handleAppendEntries req
    ((p.1.handleAppendEntriesReply target r.2, r.1), r.2.success)

namespace RaftNode

theorem conflictIndex_bounds (h0 : n.logOffset = 0) {prev : Nat} (hp : 0 < prev) (ct : Nat) :
    1 ≤ n.conflictIndex prev ct ∧ n.conflictIndex prev ct ≤ prev := by
  simp only [conflictIndex, h0]
  split
  · next i hi =>
    have := mem_of_find?_eq_some hi
    rw [mem_reverse, mem_range'_1] at this
    omega
  · omega

theorem prevConflict_some (h0 : n.logOffset = 0) (ha : n.Aligned) (hne : n.log ≠ []) {ct : Int}
    {ci : Nat} (h : n.prevConflict req = some (ct, ci)) :
    1 ≤ ci ∧ ci ≤ req.prevLogIndex ∧ (ct < 0 ∨ ∃ e, n.log[req.prevLogIndex]? = some e ∧
      ct = e.term ∧ e.term ≠ req.prevLogTerm) := by
  have hlast := ha.lastLogIndex_add_one hne
  unfold prevConflict at h
  rw [h0, if_neg (Nat.not_lt_zero _), getLogEntry_of_offset h0] at h
  split_ifs at h with hz hlt
  · cases h
    exact ⟨by omega, by omega, .inl (by decide)⟩
  · rw [getElem?_eq_getElem (by omega)] at h
    simp only at h
    split_ifs at h with ht
    cases h
    obtain ⟨hone, hle⟩ := conflictIndex_bounds h0 (Nat.pos_of_ne_zero hz) n.log[req.prevLogIndex].term
    exact ⟨hone, hle, .inr ⟨_, getElem?_eq_getElem (by omega), rfl, ht⟩⟩

theorem backOff_bounds (reply : AppendEntriesReply) {prev : Nat} (h0 : n.logOffset = 0)
    (hci : 1 ≤ reply.conflictIndex) (hle : reply.conflictIndex ≤ prev)
    (hct : ∀ i e, n.log[i]? = some e → (e.term : Int) = reply.conflictTerm → i < prev) :
    1 ≤ n.backOff reply ∧ n.backOff reply ≤ prev := by
  simp only [backOff]
  have hnext : ∀ next, next ≤ prev → 1 ≤ (if next < 1 then 1 else next) ∧
      (if next < 1 then 1 else next) ≤ prev := by
    intro next h
    split_ifs <;> omega
  apply hnext
  split_ifs
  · exact hle
  · split
    · next i hi =>
      have hfound := find?_some hi
      rw [getLogEntry_of_offset h0] at hfound
      split at hfound
      · next e he => exact hct i e he (of_decide_eq_true hfound)
      · cases hfound
    · exact hle

end RaftNode

open RaftNode

/-- A refused request leaves everything as it was, but for a smaller `nextIndex`. -/
theorem Syncing.step (h : Syncing L F target) : (exchange target (L, F)).2 = true ∨
    Syncing (exchange target (L, F)).1.1 (exchange target (L, F)).1.2 target ∧
      (exchange target (L, F)).1.1.nextIndex target < L.nextIndex target := by
  have hnext := h.next
  obtain ⟨req, hsend, hterm, hprev, hpt⟩ : ∃ req, L.sendTo target L.currentTerm L.commitIndex =
      .append req ∧ req.term = L.currentTerm ∧ req.prevLogIndex + 1 = L.nextIndex target ∧
      req.prevLogTerm = ((L.log[req.prevLogIndex]?).map (·.term)).getD 0 := by
    simp only [sendTo, h.leaderOffset, if_neg (show L.nextIndex target ≠ 0 by omega),
      if_neg (show ¬ L.nextIndex target ≤ 0 by omega), Nat.zero_le, if_true,
      getLogEntry_of_offset h.leaderOffset]
    exact ⟨_, rfl, rfl, by simp only; omega, rfl⟩
  have hft := h.term
  have hlt : ¬ req.term < F.currentTerm := by omega
  have hobs : F.observeTerm req.term = F := if_neg (by omega)
  obtain ⟨m, hm⟩ : ∃ m, F.followLeader req = m := ⟨_, rfl⟩
  obtain ⟨hlog, hoff, -⟩ := logView_eq.1 (hm ▸ followLeader_logView (n := F) req)
  have hmt : m.currentTerm = L.currentTerm := by
    rw [← hm, followLeader]
    split_ifs
    · exact hterm
    · exact h.term
  have ha : m.Aligned := fun k e he => by rw [hoff]; exact h.aligned k e (hlog ▸ he)
  simp only [exchange, hsend, handleAppendEntries, hobs, hm, if_neg hlt]
  cases hc : m.prevConflict req with
  | none => exact .inl rfl
  | some c =>
    obtain ⟨ct, ci⟩ := c
    obtain ⟨hci, hle, hct⟩ := prevConflict_some (hoff.trans h.offset) ha (hlog ▸ h.nonempty) hc
    -- an own entry of the conflict term at or behind `prevLogIndex` would rule out the conflict
    have hown : ∀ i e, L.log[i]? = some e → (e.term : Int) = ct → i < req.prevLogIndex := by
      intro i e he het
      by_contra hi
      rcases hct with hneg | ⟨e', he', rfl, hne⟩
      · omega
      · have hsame := h.matching i _ e e' (not_lt.1 hi) he (hlog ▸ he') (by simpa using het)
        rw [hpt, hsame] at hne
        exact hne rfl
    have hback := backOff_bounds ⟨F.currentTerm, false, 0, ct, ci⟩ h.leaderOffset hci hle hown
    have hL : L.handleAppendEntriesReply target ⟨F.currentTerm, false, 0, ct, ci⟩ = { L with
        nextIndex := Function.update L.nextIndex target
          (L.backOff ⟨F.currentTerm, false, 0, ct, ci⟩) } := by
      rw [handleAppendEntriesReply, if_neg (not_not.2 h.leader), if_neg h.term.not_gt,
        if_neg h.term.not_lt]
      rfl
    right
    rw [hL]
    have hself := Function.update_self target (L.backOff ⟨F.currentTerm, false, 0, ct, ci⟩) L.nextIndex
    exact ⟨⟨h.leader, hmt, h.leaderOffset, hoff.trans h.offset, ha, hlog ▸ h.nonempty,
      hlog ▸ h.matching, hback.1.trans_eq hself.symm⟩, by simp only [hself]; omega⟩

/-- The leader backs off with every conflict, so repeated requests are accepted in the end. -/
theorem conflicts_end (h : Syncing L F target) :
    ((exchange target (L, F)).2 = false → 1 ≤ (exchange target (L, F)).1.1.nextIndex target ∧
      (exchange target (L, F)).1.1.nextIndex target < L.nextIndex target) ∧
    ∃ k, (exchange target ((fun p => (exchange target p).1)^[k] (L, F))).2 = true := by
  constructor
  · intro hf
    rcases h.step with hacc | ⟨h', hlt⟩
    · rw [hf] at hacc
      cases hacc
    · exact ⟨h'.next, hlt⟩
  · obtain ⟨x, hx⟩ : ∃ x, L.nextIndex target = x := ⟨_, rfl⟩
    induction x using Nat.strong_induction_on generalizing L F with
    | _ x ih =>
      rcases h.step with hacc | ⟨h', hlt⟩
      · exact ⟨0, hacc⟩
      · obtain ⟨k, hk⟩ := ih _ (hx ▸ hlt) h' rfl
        exact ⟨k + 1, hk⟩

def logOf (terms : List Nat) : List LogEntry := terms.mapIdx fun i t => ⟨t, i, .normal, []⟩

/-- A leader of term 3 with `nextIndex` `2`, or the follower it sends to. -/
def peer (state : NodeState) (terms : List Nat) : RaftNode Unit :=
  { newRaftNode "a" () ["a", "b"] with
    state := state
    currentTerm := 3
    log := logOf terms
    nextIndex := fun _ => 2 }

theorem conflicts_end_one_entry :
    ∃ k, (exchange "b" ((fun p => (exchange "b" p).1)^[k]
      (peer .leader [0, 2], peer .follower [0, 1]))).2 = true := by
  have h : Syncing (peer .leader [0, 2]) (peer .follower [0, 1]) "b" := by
    refine ⟨rfl, rfl, rfl, rfl, ?_, by simp [peer, logOf], ?_, by decide⟩
    · intro k e he
      simp only [peer, logOf, getElem?_mapIdx, Option.map_eq_some_iff] at he
      obtain ⟨t, -, rfl⟩ := he
      exact (Nat.zero_add k).symm
    · intro i j e e' hij he he' ht
      have hi : i < 2 := (List.getElem?_eq_some_iff.1 he).1
      have hj : j < 2 := by omega
      interval_cases i <;> interval_cases j <;> simp_all [peer, logOf]
      grind
  exact (conflicts_end h).2

/-- The logs agree wherever they have entries of equal index and term, but the leader has an entry of
term 2 behind the one of the follower, and `nextIndex` goes up. -/
theorem conflict_goes_up :
    (∀ i < 2, ((logOf [0, 1, 2])[i]?.map (·.term)) = ((logOf [0, 2])[i]?.map (·.term)) →
      (logOf [0, 1, 2]).take (i + 1) = (logOf [0, 2]).take (i + 1)) ∧
    (exchange "b" (peer .leader [0, 1, 2], peer .follower [0, 2])).2 = false ∧
    (exchange "b" (peer .leader [0, 1, 2], peer .follower [0, 2])).1.1.nextIndex "b" = 3 := by
  decide

end Solocoder.Raft
