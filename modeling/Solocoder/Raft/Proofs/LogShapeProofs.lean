import Solocoder.Lib.LogHistory
import Solocoder.Raft.Calls
import Solocoder.Raft.Proofs.HandlerProofs

/-!
# Positions and indices of the log

`getLogEntry` finds the entry it asks for as long as position `k` holds the entry with index
`logOffset + k`. `HandleInstallSnapshot` leaves an empty log, and the next entry gets index
`logOffset + 1` and position `0`, so the log stays in step as long as nothing is appended to an
empty log.
-/

namespace Solocoder.Raft

open List Option Function RaftNode

namespace RaftNode

variable {σ : Type} {n : RaftNode σ}

def logView (n : RaftNode σ) : List LogEntry × Nat × Nat := (n.log, n.logOffset, n.lastSnapshotIndex)

variable {m : RaftNode σ} {i : Nat} {e : LogEntry} {req : AppendEntriesRequest}

theorem logView_eq {n : RaftNode σ} : m.logView = n.logView ↔
      m.log = n.log ∧ m.logOffset = n.logOffset ∧ m.lastSnapshotIndex = n.lastSnapshotIndex := by
  simp [logView]

@[simp] theorem becomeFollower_logView (t : Nat) : (n.becomeFollower t).logView = n.logView := rfl

@[simp] theorem becomeLeader_logView : n.becomeLeader.logView = n.logView := rfl

@[simp] theorem checkElectionWin_logView : n.checkElectionWin.logView = n.logView := by
  unfold checkElectionWin
  split_ifs <;> simp

@[simp] theorem becomeCandidate_logView : n.becomeCandidate.logView = n.logView := by
  unfold becomeCandidate
  rw [checkElectionWin_logView]
  rfl

@[simp] theorem observeTerm_logView (t : Nat) : (n.observeTerm t).logView = n.logView := by
  unfold observeTerm
  split_ifs <;> simp

@[simp] theorem followLeader_logView (req : AppendEntriesRequest) :
    (n.followLeader req).logView = n.logView := by
  unfold followLeader
  split_ifs <;> rfl

@[simp] theorem followCommit_logView (req : AppendEntriesRequest) :
    (n.followCommit req).logView = n.logView := by
  unfold followCommit
  split_ifs <;> rfl

theorem handleRequestVote_logView (req : RequestVoteRequest) :
    (n.handleRequestVote req).1.logView = n.logView := by
  unfold handleRequestVote
  simp only
  split_ifs
  · simp
  · exact observeTerm_logView req.term
  · simp

theorem handleRequestVoteReply_logView (orig : Nat) (voter : String) (reply : RequestVoteReply) :
    (n.handleRequestVoteReply orig voter reply).logView = n.logView := by
  unfold handleRequestVoteReply
  split_ifs
  · rfl
  · simp
  · rfl
  · rw [checkElectionWin_logView]; rfl
  · simp

theorem handleInstallSnapshotReply_logView (target : String) (reply : InstallSnapshotReply) :
    (n.handleInstallSnapshotReply target reply).logView = n.logView := by
  unfold handleInstallSnapshotReply
  split_ifs <;> rfl

variable (M : StateMachine σ)

theorem applyRounds_logView (k : Nat) :
    ∀ n : RaftNode σ, (applyRounds M k n).1.logView = n.logView := by
  induction k with
  | zero => intro n; rfl
  | succ k ih =>
    intro n
    simp only [applyRounds]
    rw [ih]
    unfold applyNext
    simp only
    split
    · rfl
    · split_ifs <;> rfl

@[simp] theorem updateCommitIndex_logView : n.updateCommitIndex.logView = n.logView := by
  obtain ⟨c, hc⟩ := n.updateCommitIndex_eq
  rw [hc]
  rfl

@[simp] theorem progressNew_logView (jc : JointConfiguration) :
    (n.progressNew jc).logView = n.logView := by
  unfold progressNew
  split
  · rfl
  · split_ifs <;> rfl

/-- The shape of the log of a node: aligned, and empty only behind a snapshot that ends at the
offset. -/
structure Shape (n : RaftNode σ) : Prop where
  aligned : n.Aligned
  empty : n.log = [] → n.lastSnapshotIndex = n.logOffset

theorem Shape.congr (h : n.Shape) (e : m.logView = n.logView) : m.Shape := by
  obtain ⟨e1, e2, e3⟩ := logView_eq.1 e
  refine ⟨fun k x hx => ?_, fun hm => ?_⟩
  · rw [e1] at hx; rw [e2]; exact h.aligned k x hx
  · rw [e2, e3]; exact h.empty (e1 ▸ hm)

theorem Aligned.lastLogIndex_add_one (h : n.Aligned) (hne : n.log ≠ []) :
    n.lastLogIndex + 1 = n.logOffset + n.log.length := by
  have hlen : 0 < n.log.length := length_pos_iff.2 hne
  have hget : n.log.getLast? = some (n.log.getLast hne) := getLast?_eq_some_getLast hne
  have hidx := h (n.log.length - 1) (n.log.getLast hne) (by
    rw [← getLast?_eq_getElem?]; exact hget)
  unfold lastLogIndex
  rw [hget]
  simp only
  omega

theorem Aligned.getLogEntry_index (h : n.Aligned) (he : n.getLogEntry i = some e) :
    e.index = i := by
  unfold getLogEntry at he
  split_ifs at he with hi
  have := h _ _ he
  omega

theorem Aligned.append (h : n.Aligned) (hne : n.log ≠ []) (he : e.index = n.lastLogIndex + 1) :
    (n.appendEntry e).Aligned := by
  have hlast := h.lastLogIndex_add_one hne
  intro k x hx
  rcases Lib.getElem?_concat_cases hx with hx | ⟨rfl, rfl⟩
  · exact h k x hx
  · exact he.trans hlast

theorem Aligned.truncate_append (h : n.Aligned) (hlo : n.logOffset ≤ i)
    (hhi : i < n.logOffset + n.log.length) (he : e.index = i) :
    ((n.truncateLog i).appendEntry e).Aligned ∧
      ((n.truncateLog i).appendEntry e).logOffset = n.logOffset ∧
      ((n.truncateLog i).appendEntry e).log.length = i - n.logOffset + 1 := by
  have htr : n.truncateLog i = { n with log := n.log.take (i - n.logOffset) } := by
    unfold truncateLog
    rw [if_neg (by omega), if_pos (by omega)]
  rw [htr]
  have hlen : (n.log.take (i - n.logOffset)).length = i - n.logOffset := by
    rw [length_take]; omega
  refine ⟨fun k x hx => ?_, rfl, by simp only [appendEntry, length_append, hlen]; rfl⟩
  rcases Lib.getElem?_concat_cases hx with hx | ⟨rfl, rfl⟩
  · rw [getElem?_take] at hx
    split_ifs at hx
    exact h k x hx
  · show x.index = n.logOffset + (n.log.take (i - n.logOffset)).length
    omega

/-- What the append loop keeps: the log is aligned and not empty, and the next index to insert is at
most one past its end. -/
structure LoopInv (n : RaftNode σ) (insertIdx : Nat) : Prop where
  aligned : n.Aligned
  nonempty : n.log ≠ []
  reach : insertIdx ≤ n.logOffset + n.log.length

theorem LoopInv.insertEntry (h : n.LoopInv i) (he : e.index = i) :
    (n.insertEntry i e).LoopInv (i + 1) := by
  have hlast := h.aligned.lastLogIndex_add_one h.nonempty
  have hreach := h.reach
  unfold RaftNode.insertEntry
  by_cases hi : i ≤ n.lastLogIndex
  · rw [if_pos hi]
    -- an index below the offset is skipped, one inside the log is compared
    cases hg : n.getLogEntry i with
    | none =>
      refine ⟨h.aligned, h.nonempty, ?_⟩
      show i + 1 ≤ n.logOffset + n.log.length
      omega
    | some existing =>
      simp only
      split_ifs with ht
      · have hlo : n.logOffset ≤ i := by
          by_contra hlt
          rw [getLogEntry, if_pos (by omega)] at hg
          cases hg
        obtain ⟨h1, h2, h3⟩ := h.aligned.truncate_append hlo (by omega) he
        exact ⟨h1, by simp [appendEntry], by omega⟩
      · exact ⟨h.aligned, h.nonempty, by omega⟩
  · rw [if_neg hi]
    refine ⟨h.aligned.append h.nonempty (by omega), by simp [appendEntry], ?_⟩
    simp only [appendEntry, length_append, length_singleton]
    omega

theorem LoopInv.insertEntries {es : List LogEntry} :
    ∀ {n : RaftNode σ} {i : Nat}, n.LoopInv i → (∀ k e, es[k]? = some e → e.index = i + k) →
      (n.insertEntries i es).Aligned ∧ (n.insertEntries i es).log ≠ [] := by
  induction es with
  | nil => intro n i h _; exact ⟨h.aligned, h.nonempty⟩
  | cons e es ih =>
    intro n i h hes
    have he : e.index = i := by simpa using hes 0 e rfl
    refine ih (h.insertEntry he) (fun k x hx => ?_)
    have := hes (k + 1) x (by simpa using hx)
    omega

theorem insertEntries_skip {es : List LogEntry} :
    ∀ {n : RaftNode σ} {i : Nat}, n.log = [] → i + es.length ≤ n.logOffset + 1 →
      n.insertEntries i es = n := by
  induction es with
  | nil => intro n i _ _; rfl
  | cons e es ih =>
    intro n i hlog hle
    have hlast : n.lastLogIndex = n.logOffset := by simp [lastLogIndex, hlog]
    simp only [length_cons] at hle
    have hstep : n.insertEntry i e = n := by
      unfold insertEntry
      rw [if_pos (by omega)]
      have hg : n.getLogEntry i = none := by simp [getLogEntry, hlog]
      rw [hg]
    rw [insertEntries, hstep]
    exact ih hlog (by omega)

theorem prevConflict_of_empty (h : n.Shape) (hlog : n.log = []) (hacc : n.prevConflict req = none) :
    req.prevLogIndex = 0 := by
  by_contra h0
  have hsnap := h.empty hlog
  unfold prevConflict at hacc
  split_ifs at hacc with h1 h2 h3
  · omega
  · have hg : n.getLogEntry req.prevLogIndex = none := by simp [getLogEntry, hlog]
    rw [hg] at hacc
    cases hacc

theorem prevConflict_reach (h : n.Aligned) (hne : n.log ≠ []) (hacc : n.prevConflict req = none) :
    req.prevLogIndex + 1 ≤ n.logOffset + n.log.length := by
  have hlast := h.lastLogIndex_add_one hne
  unfold prevConflict at hacc
  split_ifs at hacc with h0 h1 h2 h3
  · omega
  · omega
  · omega

theorem handleAppendEntries_shape (h : n.Shape) (hwf : req.Consecutive)
    (hok : n.CallOk (.appendEntries req)) : (n.handleAppendEntries req).1.Shape := by
  set m := (n.observeTerm req.term).followLeader req with hm
  have hview : m.logView = n.logView := by rw [hm]; simp
  have hms : m.Shape := h.congr hview
  obtain ⟨hlog, hoff, -⟩ := logView_eq.1 hview
  unfold handleAppendEntries
  simp only
  split_ifs with hterm
  · exact h.congr (by simp)
  · have hle : n.currentTerm ≤ req.term := by
      unfold observeTerm at hterm
      split_ifs at hterm with hlt
      · omega
      · omega
    cases hacc : m.prevConflict req with
    | some c => exact hms
    | none =>
      refine Shape.congr ?_ (followCommit_logView req)
      by_cases hne : m.log = []
      · -- nothing past the offset: the request leaves the empty log alone
        have h0 := prevConflict_of_empty hms hne hacc
        have hnot := hok (hlog ▸ hne)
        have hlen : req.entries.length ≤ n.logOffset := by
          by_contra hgt
          exact hnot ⟨hle, h0, by omega⟩
        rw [insertEntries_skip hne (by omega)]
        exact hms
      · have hinv : m.LoopInv (req.prevLogIndex + 1) :=
          ⟨hms.aligned, hne, prevConflict_reach hms.aligned hne hacc⟩
        obtain ⟨h1, h2⟩ := hinv.insertEntries hwf
        exact ⟨h1, fun he => absurd he h2⟩

theorem progressJoint_shape (h : n.Shape) (jc : JointConfiguration) :
    (n.progressJoint jc).Shape := by
  unfold progressJoint
  split
  · exact h
  · rename_i i hfind
    split_ifs
    · -- a joint entry was found, so the log is not empty
      have hne : n.log ≠ [] := by
        intro hlog
        have := find?_some hfind
        simp [hasType, getLogEntry, hlog] at this
      have hal : (({ n with commitIndex := i } : RaftNode σ).appendEntry
          { term := n.currentTerm, index := n.lastLogIndex + 1, type := .configNew,
            command := [] }).Aligned :=
        Aligned.append (n := { n with commitIndex := i }) h.aligned hne rfl
      exact ⟨hal, fun he => absurd he (by simp [appendEntry])⟩
    · exact h

theorem handleAppendEntriesReply_shape (h : n.Shape) (target : String)
    (reply : AppendEntriesReply) : (n.handleAppendEntriesReply target reply).Shape := by
  unfold handleAppendEntriesReply
  split_ifs
  · exact h
  · exact h.congr (by simp)
  · exact h
  · set m := updateCommitIndex ({ n with
        matchIndex := update n.matchIndex target reply.matchIndex
        nextIndex := update n.nextIndex target (reply.matchIndex + 1) } : RaftNode σ)
    have hms : m.Shape := h.congr (by rw [updateCommitIndex_logView]; rfl)
    unfold checkConfigProgress
    split
    · exact hms
    · split_ifs
      · exact hms
      · exact (progressJoint_shape hms _).congr (progressNew_logView _)
  · exact h.congr rfl

theorem handleInstallSnapshot_shape (h : n.Shape)
    (req : InstallSnapshotRequest) : (n.handleInstallSnapshot M req).1.Shape := by
  unfold handleInstallSnapshot
  simp only
  split_ifs
  · exact h.congr (by simp)
  · exact h.congr (by simp)
  · split
    · exact h.congr (observeTerm_logView req.term)
    · exact ⟨fun k e hk => by simp at hk, fun _ => rfl⟩

/-- What a node keeps when `n` becomes `n'` on a snapshot that ends at `last`. A snapshot that ends
before `commitIndex` leaves the state machine alone. -/
structure KeepsCommitted (n n' : RaftNode σ) (last : Nat) : Prop where
  applied : n'.lastApplied ≤ n'.commitIndex
  committed : n'.commitIndex ≤ n'.lastLogIndex
  entries : ∀ e ∈ n.log, last < e.index → e.index ≤ n.commitIndex → e ∈ n'.log
  sm : last < n.commitIndex → n'.sm = n.sm

/-- Only `lastSnapshotIndex` guards the log: a snapshot that ends between it and `commitIndex`
empties the log, unless the state machine refuses it. -/
theorem handleInstallSnapshot_keepsCommitted_iff (req : InstallSnapshotRequest)
    (ha : n.lastApplied ≤ n.commitIndex) (hc : n.commitIndex ≤ n.lastLogIndex)
    (ht : n.currentTerm ≤ req.term) :
    KeepsCommitted n (n.handleInstallSnapshot M req).1 req.lastIncludedIndex ↔
      req.lastIncludedIndex ≤ n.lastSnapshotIndex ∨ n.commitIndex ≤ req.lastIncludedIndex ∨
        ∃ err, M.applySnapshot n.sm
          ⟨req.lastIncludedIndex, req.lastIncludedTerm, req.config, req.data⟩ = (n.sm, some err) := by
  obtain ⟨m, hm⟩ : ∃ m, n.observeTerm req.term = m := ⟨_, rfl⟩
  obtain ⟨hlog, hoff, hsnap⟩ := logView_eq.1 (hm ▸ observeTerm_logView (n := n) req.term)
  have hobs : ¬ req.term < m.currentTerm ∧ m.commitIndex = n.commitIndex ∧
      m.lastApplied = n.lastApplied ∧ m.sm = n.sm := by
    unfold observeTerm at hm
    split_ifs at hm <;> subst m
    · exact ⟨Nat.lt_irrefl _, rfl, rfl, rfl⟩
    · exact ⟨Nat.not_lt.2 ht, rfl, rfl, rfl⟩
  obtain ⟨hmt, hci, hla, hsm⟩ := hobs
  have hma : m.lastApplied ≤ m.commitIndex := by omega
  have hmc : m.commitIndex ≤ m.lastLogIndex := by
    rw [hci, lastLogIndex, hlog, hoff]
    exact hc
  simp only [handleInstallSnapshot, hm, if_neg hmt, hsnap, hsm]
  by_cases hstale : req.lastIncludedIndex ≤ n.lastSnapshotIndex
  · rw [if_pos hstale]
    refine iff_of_true ⟨hma, hmc, ?_, fun _ => hsm⟩ (.inl hstale)
    intro e he _ _
    rwa [hlog]
  rw [if_neg hstale]
  cases hr : M.applySnapshot n.sm
    ⟨req.lastIncludedIndex, req.lastIncludedTerm, req.config, req.data⟩ with
  | mk sm err =>
  cases err with
  | some err =>
    constructor
    · intro h
      by_cases hlt : req.lastIncludedIndex < n.commitIndex
      · exact .inr (.inr ⟨err, by rw [show sm = n.sm from h.sm hlt]⟩)
      · exact .inr (.inl (by omega))
    · intro h
      refine ⟨hma, hmc, ?_, ?_⟩
      · intro e he _ _
        exact hlog ▸ he
      · intro hlt
        rcases h with h | h | ⟨e, h⟩
        · exact absurd h hstale
        · omega
        · exact congrArg Prod.fst h
  | none =>
    constructor
    · intro h
      have hle : max m.commitIndex req.lastIncludedIndex ≤ req.lastIncludedIndex := h.committed
      exact .inr (.inl (by omega))
    · intro h
      have hle : n.commitIndex ≤ req.lastIncludedIndex := by
        rcases h with h | h | ⟨e, h⟩
        · exact absurd h hstale
        · exact h
        · cases congrArg Prod.snd h
      refine ⟨max_le_max_right _ hma, (max_eq_right (hci ▸ hle)).le, ?_, ?_⟩
      · intro e _ h1 h2
        omega
      · intro hlt
        omega

/-- A follower that has committed three entries. -/
def committedThree : RaftNode Unit :=
  { newRaftNode "b" () ["a", "b"] with
    log := [sentinel, ⟨0, 1, .normal, []⟩, ⟨0, 2, .normal, []⟩, ⟨0, 3, .normal, []⟩]
    commitIndex := 3
    lastApplied := 3 }

theorem handleInstallSnapshot_keepsCommitted_three : KeepsCommitted committedThree
      (committedThree.handleInstallSnapshot .idle ⟨0, "a", 3, 0, none, []⟩).1 3 :=
  (handleInstallSnapshot_keepsCommitted_iff .idle ⟨0, "a", 3, 0, none, []⟩ (by decide) (by decide)
    (by decide)).2 (.inr (.inl (by decide)))

theorem handleInstallSnapshot_rolls_back : ¬ KeepsCommitted committedThree
      (committedThree.handleInstallSnapshot .idle ⟨0, "a", 1, 0, none, []⟩).1 1 := by
  intro h
  exact absurd h.committed (by decide)

section

variable (h : n.Shape)
include h

theorem compactLog_shape {index : Nat} {n' : RaftNode σ}
    (hc : n.compactLog index = .ok n') : n'.Shape := by
  unfold compactLog at hc
  split_ifs at hc with h1 h2
  · cases hc; exact h
  · cases hg : n.getLogEntry index with
    | none => rw [hg] at hc; cases hc
    | some e =>
      rw [hg] at hc
      simp only [Except.ok.injEq] at hc
      subst hc
      refine ⟨fun k x hx => ?_, fun _ => rfl⟩
      simp only [getElem?_drop] at hx
      have := h.aligned _ _ hx
      simp only
      omega

theorem appendEntry_shape (hne : n.log ≠ []) (he : e.index = n.lastLogIndex + 1)
    (hm : m.logView = (n.appendEntry e).logView) : m.Shape := by
  have hs : (n.appendEntry e).Shape :=
    ⟨h.aligned.append hne he, fun hnil => absurd hnil (by simp [appendEntry])⟩
  exact hs.congr hm

theorem propose_shape {command : List UInt8} (hok : n.CallOk (.propose command)) :
    ((n.propose command).toOption.getD n).Shape := by
  unfold propose
  split_ifs with h1 h2 h3 h4
  · exact h
  · exact h
  · exact h
  · exact h
  · have hne : n.log ≠ [] := fun hlog =>
      hok hlog ⟨by omega, not_not.1 h2, by simpa using h3, by simpa using h4⟩
    exact appendEntry_shape h hne rfl rfl

theorem enterJoint_shape (hne : n.log ≠ []) (c : Configuration) : (n.enterJoint c).Shape := by
  have hidx : (LogEntry.mk n.currentTerm (n.lastLogIndex + 1) .configJoint []).index =
      n.lastLogIndex + 1 := rfl
  exact appendEntry_shape h hne hidx rfl

theorem addNode_shape {x : String} (hok : n.CallOk (.addNode x)) :
    ((n.addNode x).toOption.getD n).Shape := by
  unfold addNode
  split_ifs with h1 h2 h3
  · exact h
  · exact h
  · exact h
  · have hne : n.log ≠ [] := fun hlog =>
      hok hlog ⟨not_not.1 h1, by simpa using h2, by simpa [Configuration.contains] using h3⟩
    exact enterJoint_shape h hne _

theorem removeNode_shape {x : String} (hok : n.CallOk (.removeNode x)) :
    ((n.removeNode x).toOption.getD n).Shape := by
  unfold removeNode
  split_ifs with h1 h2 h3 h4
  · exact h
  · exact h
  · exact h
  · exact h
  · have hne : n.log ≠ [] := fun hlog =>
      hok hlog ⟨not_not.1 h1, by simpa using h2, by simpa [Configuration.contains] using h3, h4⟩
    exact enterJoint_shape h hne _

theorem call_shape {c : Call} (hwf : c.WellFormed) (hok : n.CallOk c) : (n.call M c).Shape := by
  cases c with
  | start => exact h.congr rfl
  | timeout =>
    unfold call
    split_ifs
    · exact h
    · exact h.congr becomeCandidate_logView
  | requestVote req => exact h.congr (handleRequestVote_logView req)
  | voteReply orig voter reply => exact h.congr (handleRequestVoteReply_logView orig voter reply)
  | appendEntries req => exact handleAppendEntries_shape h hwf hok
  | appendReply target reply => exact handleAppendEntriesReply_shape h target reply
  | installSnapshot req => exact handleInstallSnapshot_shape M h req
  | snapshotReply target reply => exact h.congr (handleInstallSnapshotReply_logView target reply)
  | propose command => exact propose_shape h hok
  | addNode x => exact addNode_shape h hok
  | removeNode x => exact removeNode_shape h hok
  | compactLog index =>
    unfold call
    simp only
    cases hc : n.compactLog index with
    | error e => exact h
    | ok n' => exact compactLog_shape h hc
  | applyCommitted => exact h.congr (applyRounds_logView M _ n)

end

theorem mem_applyRounds (k : Nat) : ∀ (n : RaftNode σ) (i : Nat) (e : LogEntry),
      (i, e) ∈ (applyRounds M k n).2 ↔
        n.lastApplied < i ∧ i ≤ n.lastApplied + k ∧ n.getLogEntry i = some e := by
  induction k with
  | zero =>
    simp only [applyRounds, not_mem_nil, Nat.add_zero, false_iff]
    omega
  | succ k ih =>
    intro n i e
    have hla : (n.applyNext M).1.lastApplied = n.lastApplied + 1 := by
      unfold applyNext
      simp only
      split
      · rfl
      · split_ifs <;> rfl
    have hget : ∀ j, (n.applyNext M).1.getLogEntry j = n.getLogEntry j := by
      intro j
      have hview : (n.applyNext M).1.logView = n.logView := applyRounds_logView M 1 n
      obtain ⟨e1, e2, -⟩ := logView_eq.1 hview
      simp [getLogEntry, e1, e2]
    have hhead : (n.applyNext M).2 = n.getLogEntry (n.lastApplied + 1) := by
      unfold applyNext
      simp only
      have hg : ({ n with lastApplied := n.lastApplied + 1 } : RaftNode σ).getLogEntry
          (n.lastApplied + 1) = n.getLogEntry (n.lastApplied + 1) := rfl
      rw [hg]
      split
      · rename_i hn; rw [hn]
      · rename_i x hx; rw [hx]; split_ifs <;> rfl
    simp only [applyRounds, mem_append, mem_toList, map_eq_some_iff,
      Prod.mk.injEq, ih, hla, hget, hhead]
    constructor
    · rintro (⟨x, hx, rfl, rfl⟩ | ⟨h1, h2, h3⟩)
      · exact ⟨by omega, by omega, hx⟩
      · exact ⟨by omega, by omega, h3⟩
    · rintro ⟨h1, h2, h3⟩
      by_cases hi : i = n.lastApplied + 1
      · exact Or.inl ⟨e, hi ▸ h3, hi.symm, rfl⟩
      · exact Or.inr ⟨by omega, by omega, h3⟩

theorem mem_applyCommitted (n : RaftNode σ) (i : Nat) (e : LogEntry) :
    (i, e) ∈ (n.applyCommitted M).2 ↔
      n.lastApplied < i ∧ i ≤ n.commitIndex ∧ n.getLogEntry i = some e := by
  unfold applyCommitted
  rw [mem_applyRounds]
  constructor
  · rintro ⟨h1, h2, h3⟩; exact ⟨h1, by omega, h3⟩
  · rintro ⟨h1, h2, h3⟩; exact ⟨h1, by omega, h3⟩

end RaftNode

variable {σ : Type}

theorem newRaftNode_shape (id : String) (sm : σ) (ids : List String) :
    (newRaftNode id sm ids).Shape := by
  refine ⟨fun k e hk => ?_, fun h => absurd h (by simp [newRaftNode])⟩
  cases k with
  | zero =>
    simp only [newRaftNode, getElem?_cons_zero, Option.some.injEq] at hk
    rw [← hk]; rfl
  | succ k => simp [newRaftNode] at hk

theorem CallRun.shape {M : StateMachine σ} {n0 n : RaftNode σ} (h0 : n0.Shape)
    (h : CallRun M n0 CallOk n) : n.Shape := by
  induction h with
  | init => exact h0
  | call _ hwf hok ih => exact call_shape M ih hwf hok

/-- The entries `1 .. k` of term `1`, as a leader that has not compacted its log sends them. -/
def firstEntries (k : Nat) : List LogEntry :=
  (List.range k).map fun i => { term := 1, index := i + 1, type := .normal, command := [] }

/-- An `AppendEntries` request of term `1` that carries the whole log of the leader. -/
def wholeLogRequest (k : Nat) : AppendEntriesRequest where
  term := 1
  leaderID := "b"
  prevLogIndex := 0
  prevLogTerm := 0
  entries := firstEntries k
  leaderCommit := 0

theorem wholeLogRequest_consecutive (k : Nat) : (wholeLogRequest k).Consecutive := by
  intro i e he
  simp only [wholeLogRequest, firstEntries, getElem?_map, map_eq_some_iff] at he
  obtain ⟨j, hj, rfl⟩ := he
  obtain ⟨hlt, rfl⟩ := List.getElem?_eq_some_iff.1 hj
  simp [wholeLogRequest]
  omega

/-- A snapshot that ends at index `5`. -/
def snapshotAtFive : InstallSnapshotRequest where
  term := 1
  leaderID := "b"
  lastIncludedIndex := 5
  lastIncludedTerm := 1
  config := none
  data := []

end Solocoder.Raft
