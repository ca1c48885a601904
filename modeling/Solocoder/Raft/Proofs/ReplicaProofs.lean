import Solocoder.Raft.Proofs.MoveProofs

/-!
# Log matching

The logs of a cluster with a fixed membership and without snapshots, as a history. Every
`AppendEntries` request under way is a slice of a log that was sent in the name of its term, which
need not be the log its sender had while it led.

As long as no term has two leaders, two logs with an entry of the same term at the same index agree
up to it.
-/

namespace Solocoder.Raft

open Lib List LogHistory Cluster RaftNode

variable {σ : Type}

/-! ## Logs without snapshots -/

/-- A log as it grows from the sentinel: every entry knows its position, and only the sentinel has
term `0`. -/
structure WellIndexed (l : List LogEntry) : Prop where
  head : l[0]? = some sentinel
  index : ∀ {k} {e : LogEntry}, l[k]? = some e → e.index = k
  term : ∀ {k} {e : LogEntry}, l[k]? = some e → e.term = 0 → k = 0

theorem WellIndexed.length_pos {l : List LogEntry} (h : WellIndexed l) : 0 < l.length :=
  (List.getElem?_eq_some_iff.1 h.head).1

theorem WellIndexed.append {l : List LogEntry} (h : WellIndexed l) {e : LogEntry}
    (he : e.index = l.length) (ht : 0 < e.term) : WellIndexed (l ++ [e]) := by
  refine ⟨?_, fun hx => ?_, fun hx h0 => ?_⟩
  · rw [getElem?_append_left h.length_pos, h.head]
  · rcases getElem?_concat_cases hx with hx | ⟨rfl, rfl⟩
    · exact h.index hx
    · exact he
  · rcases getElem?_concat_cases hx with hx | ⟨rfl, rfl⟩
    · exact h.term hx h0
    · omega

theorem WellIndexed.take {l : List LogEntry} (h : WellIndexed l) {k : Nat} (hk : 0 < k) :
    WellIndexed (l.take k) where
  head := by rw [getElem?_take_of_lt hk, h.head]
  index := fun hx => h.index (getElem?_mono ( take_prefix _ _) hx)
  term := fun hx => h.term (getElem?_mono ( take_prefix _ _) hx)

theorem wellIndexed_sentinel : WellIndexed [sentinel] := by
  have hget : ∀ {k e}, [sentinel][k]? = some e → k = 0 ∧ e = sentinel := fun he =>
    (getElem?_concat_cases (l := []) he).resolve_left (by simp)
  refine ⟨rfl, fun he => ?_, fun he _ => (hget he).1⟩
  obtain ⟨rfl, rfl⟩ := hget he
  rfl

/-- `req` carries the part of `ℓ` behind `prevLogIndex`, and the term found there. -/
def Slice (ℓ : List LogEntry) (req : AppendEntriesRequest) : Prop :=
  req.prevLogTerm = ((ℓ[req.prevLogIndex]?).map (·.term)).getD 0 ∧
    req.entries = ℓ.drop (req.prevLogIndex + 1)

namespace RaftNode

variable {n : RaftNode σ}

theorem getLogEntry_of_offset (h0 : n.logOffset = 0) (i : Nat) : n.getLogEntry i = n.log[i]? := by
  unfold getLogEntry
  rw [h0]
  simp

theorem lastLogIndex_add_one (h0 : n.logOffset = 0) (hw : WellIndexed n.log) :
    n.lastLogIndex + 1 = n.log.length := by
  have ha : n.Aligned := fun k e he => by rw [h0, Nat.zero_add]; exact hw.index he
  have hne : n.log ≠ [] := ne_nil_of_length_pos hw.length_pos
  have := ha.lastLogIndex_add_one hne
  omega

variable {req : AppendEntriesRequest}

theorem sendTo_slice (h0 : n.logOffset = 0) (hw : WellIndexed n.log) {t : String} {T c : Nat} (hs : n.sendTo t T c = .append req) :
    req.term = T ∧ req.leaderCommit = c ∧ Slice n.log req := by
  have hlast := lastLogIndex_add_one h0 hw
  unfold sendTo at hs
  simp only [h0] at hs
  set nextIdx := if n.nextIndex t = 0 then n.lastLogIndex + 1 else n.nextIndex t with hnext
  have hpos : 0 < nextIdx := by
    rw [hnext]
    split_ifs with hz <;> omega
  rw [if_neg (by omega)] at hs
  cases hs
  refine ⟨rfl, rfl, ?_, ?_⟩
  · simp only [Nat.zero_le, if_true, getLogEntry_of_offset h0]
  · show (if nextIdx ≤ n.lastLogIndex then _ else _) = n.log.drop (nextIdx - 1 + 1)
    have hsub : nextIdx - 1 + 1 = nextIdx := by omega
    rw [hsub]
    split_ifs with hle
    · rfl
    · rw [drop_eq_nil_of_le (by omega)]

/-- An accepted request has the term before its entries that the log has. Only the sentinel and a
missing entry have term `0`. -/
theorem prevConflict_slice (h0 : n.logOffset = 0) (hw : WellIndexed n.log) {ℓ : List LogEntry}
    (hℓ : WellIndexed ℓ) (hs : Slice ℓ req) (hacc : n.prevConflict req = none) :
    ∃ e e' : LogEntry, n.log[req.prevLogIndex]? = some e ∧ ℓ[req.prevLogIndex]? = some e' ∧
      e.term = e'.term := by
  by_cases hz : req.prevLogIndex = 0
  · rw [hz]
    exact ⟨sentinel, sentinel, hw.head, hℓ.head, rfl⟩
  · unfold prevConflict at hacc
    rw [h0, if_neg (Nat.not_lt_zero _)] at hacc
    split_ifs at hacc with hlt
    rw [getLogEntry_of_offset h0] at hacc
    cases hget : n.log[req.prevLogIndex]? with
    | none => rw [hget] at hacc; cases hacc
    | some e =>
      rw [hget] at hacc
      simp only at hacc
      split_ifs at hacc with hterm
      have hne : e.term ≠ 0 := fun h => hz (hw.term hget h)
      cases hℓget : ℓ[req.prevLogIndex]? with
      | none =>
        rw [hs.1, hℓget] at hterm
        exact absurd hterm hne
      | some e' =>
        refine ⟨e, e', rfl, rfl, ?_⟩
        rw [hterm, hs.1, hℓget]
        rfl

/-- A round of the append loop finds its entry, or puts it behind the part of the log before it. -/
theorem insertEntry_cases (h0 : n.logOffset = 0) (hw : WellIndexed n.log) {i : Nat} {e : LogEntry}
    (hle : i ≤ n.log.length) (hsame : ∀ x, n.log[i]? = some x → x.term = e.term → x = e) :
    n.log[i]? = some e ∧ n.insertEntry i e = n ∨
      n.log[i]? ≠ some e ∧ n.insertEntry i e = { n with log := n.log.take i ++ [e] } := by
  have hlast := lastLogIndex_add_one h0 hw
  rcases hle.lt_or_eq with hin | rfl
  · have hget := getElem?_eq_getElem hin
    have hstep : n.insertEntry i e =
        if n.log[i].term ≠ e.term then (n.truncateLog i).appendEntry e else n := by
      unfold insertEntry
      rw [if_pos (by omega), getLogEntry_of_offset h0, hget]
    by_cases hterm : n.log[i].term = e.term
    · refine .inl ⟨by rw [hget, hsame _ hget hterm], ?_⟩
      rw [hstep, if_neg (not_not.2 hterm)]
    · refine .inr ⟨fun h => hterm (by rw [Option.some.inj (hget.symm.trans h)]), ?_⟩
      rw [hstep, if_pos hterm, truncateLog, h0, if_neg (Nat.not_lt_zero _), Nat.sub_zero, if_pos hin]
      rfl
  · refine .inr ⟨by simp, ?_⟩
    unfold insertEntry
    rw [if_neg (by omega), take_length]
    rfl

/-- The append loop keeps a log that extends `ℓ` and otherwise ends with `ℓ` itself. -/
theorem insertEntries_log {ℓ es : List LogEntry} (hℓ : WellIndexed ℓ) :
    ∀ {n : RaftNode σ} {i : Nat}, n.logOffset = 0 → WellIndexed n.log → 0 < i → i ≤ n.log.length →
      n.log.take i = ℓ.take i → es = ℓ.drop i →
      (∀ (k : Nat) (e e' : LogEntry), n.log[k]? = some e → ℓ[k]? = some e' → e.term = e'.term →
        e = e') →
      (n.insertEntries i es).log = (if ℓ <+: n.log then n.log else ℓ) ∧
        (n.insertEntries i es).logOffset = 0 := by
  -- at every index the log agrees with `ℓ` so far; it is still the old log, or a part of `ℓ`
  induction es with
  | nil =>
    intro n i h0 _ hi hle htake hes _
    have hlen : ℓ.length ≤ i := drop_eq_nil_iff.1 hes.symm
    have hp : ℓ <+: n.log := by
      rw [take_of_length_le hlen] at htake
      rw [← htake]
      exact take_prefix _ _
    rw [if_pos hp]
    exact ⟨rfl, h0⟩
  | cons e es ih =>
    intro n i h0 hw hi hle htake hes hsame
    have hlt : i < ℓ.length := by
      by_contra hge
      rw [drop_eq_nil_of_le (by omega)] at hes
      cases hes
    rw [drop_eq_getElem_cons hlt] at hes
    obtain ⟨rfl, hes'⟩ := cons.inj hes
    have he := getElem?_eq_getElem hlt
    rw [insertEntries]
    rcases insertEntry_cases h0 hw hle fun x hx => hsame i x _ hx he with ⟨hx, hn⟩ | ⟨hx, hn⟩
    · rw [hn]
      refine ih h0 hw (Nat.succ_pos i) (List.getElem?_eq_some_iff.1 hx).1 ?_ hes' hsame
      rw [take_add_one, take_add_one, htake, hx, he]
    · -- the log is now a part of `ℓ`, which the rest of the loop completes
      have hlog : (n.insertEntry i ℓ[i]).log = ℓ.take (i + 1) := by
        rw [hn, take_add_one, he, ← htake]
        rfl
      have hpart : (n.insertEntry i ℓ[i]).log <+: ℓ := hlog ▸ take_prefix _ _
      obtain ⟨h1, h2⟩ := ih (n := n.insertEntry i ℓ[i]) (by rw [hn]; exact h0)
        (hlog ▸ hℓ.take (Nat.succ_pos i)) (Nat.succ_pos i) (by rw [hlog, length_take]; omega)
        (by rw [hlog, take_take, min_self]) hes'
        fun k x x' hx hx' _ => Option.some.inj ((getElem?_mono hpart hx).symm.trans hx')
      rw [if_neg fun hp => hx (getElem?_mono hp he)]
      refine ⟨h1.trans ?_, h2⟩
      split_ifs with hp
      · exact hpart.eq_of_length (le_antisymm hpart.length_le hp.length_le)
      · rfl

end RaftNode

/-! ## The cluster and its history -/

abbrev entryTerm : LogEntry → ℕ := LogEntry.term

/-- The node `i` is in the state that the history says. -/
structure NodeRel (ids : List String) (h : LogHistory String LogEntry) (i : String)
    (n : RaftNode σ) : Prop where
  id : n.id = i
  config : n.config = Configuration.new ids
  joint : n.joint = none
  offset : n.logOffset = 0
  term : n.currentTerm = h.term i
  log : n.log = h.log i
  leader : n.state = .leader ↔ h.won (h.term i) = some i
  active : n.state ≠ .follower → i ∈ ids ∧ 0 < h.term i

/-- What is under way, as far as it concerns the logs. -/
def Pending.LogOk (h : LogHistory String LogEntry) : Pending → Prop
  | .append i t T _ => h.won T = some i ∧ i ≠ t
  | .appendRequest i t req =>
    h.won req.term = some i ∧ i ≠ t ∧ ∃ ℓ, (req.term, ℓ) ∈ h.sent ∧ Slice ℓ req
  | _ => True

/-- The state of the cluster as a history of replicated logs. -/
structure LogRel (ids : List String) (s : Cluster σ) (h : LogHistory String LogEntry) : Prop where
  inv : LogInv entryTerm h
  shape : ∀ {l}, l ∈ h.logs → WellIndexed l
  node : ∀ i, NodeRel ids h i (s.node i)
  pending : ∀ {p}, p ∈ s.pending → p.LogOk h

variable {ids : List String} {s : Cluster σ} {h h' : LogHistory String LogEntry}

theorem Pending.LogOk.mono {p : Pending} (hp : p.LogOk h)
    (hwon : ∀ {T i}, h.won T = some i → h'.won T = some i) (hsent : h.sent ⊆ h'.sent) :
    p.LogOk h' := by
  cases p with
  | append i t T c => exact ⟨hwon hp.1, hp.2⟩
  | appendRequest i t req =>
    obtain ⟨h1, h2, ℓ, h3, h4⟩ := hp
    exact ⟨hwon h1, h2, ℓ, hsent h3, h4⟩
  | _ => trivial

theorem logRel_init (ids : List String) (sm : String → σ) :
    LogRel ids (init ids sm) (init [sentinel]) where
  inv := LogInv.init fun e he => by rw [mem_singleton.1 he]; rfl
  shape := fun {l} hl => by
    obtain rfl : l = [sentinel] := hl
    exact wellIndexed_sentinel
  node := fun i =>
    { id := rfl, config := rfl, joint := rfl, offset := rfl, term := rfl, log := rfl
      leader := ⟨nofun, nofun⟩
      active := fun ha => absurd rfl ha }
  pending := nofun

namespace NodeRel

variable {i : String} {n n' : RaftNode σ}

theorem congr (hn : NodeRel ids h i n) (hc : n'.configView = n.configView)
    (hl : n'.logView = n.logView) (ht : n'.currentTerm = n.currentTerm)
    (hs : n'.state = .leader ↔ n.state = .leader)
    (ha : n'.state ≠ .follower → n.state ≠ .follower) : NodeRel ids h i n' := by
  obtain ⟨c1, c2, c3⟩ := configView_eq hc
  obtain ⟨l1, l2, -⟩ := logView_eq.1 hl
  exact
    { id := c1.trans hn.id
      config := c2.trans hn.config
      joint := c3.trans hn.joint
      offset := l2.trans hn.offset
      term := ht.trans hn.term
      log := l1.trans hn.log
      leader := hs.trans hn.leader
      active := fun hst => hn.active (ha hst) }

theorem frame (hn : NodeRel ids h i n) (ht : h'.term i = h.term i) (hl : h'.log i = h.log i)
    (hw : ∀ T, h'.won T = some i ↔ h.won T = some i) : NodeRel ids h' i n :=
  { hn with
    term := by rw [ht, hn.term]
    log := by rw [hl, hn.log]
    leader := by rw [ht, hw, hn.leader]
    active := by rw [ht]; exact hn.active }

theorem currentNodes (hn : NodeRel ids h i n) : n.currentNodes = ids.toFinset := by
  unfold RaftNode.currentNodes
  rw [hn.joint, hn.config]
  rfl

end NodeRel

namespace LogRel

/-! ### Frames -/

theorem less (hr : LogRel ids s h) {s' : Cluster σ} (hn : s'.node = s.node)
    (hp : s'.pending ⊆ s.pending) : LogRel ids s' h where
  inv := hr.inv
  shape := hr.shape
  node := fun i => by rw [hn]; exact hr.node i
  pending := fun hq => hr.pending (hp hq)

theorem post (hr : LogRel ids s h) {ps : Multiset Pending} (hps : ∀ p ∈ ps, p.LogOk h) :
    LogRel ids (s.post ps) h where
  inv := hr.inv
  shape := hr.shape
  node := hr.node
  pending := fun {p} hp => by
    rcases Multiset.mem_add.1 hp with hp | hp
    · exact hr.pending hp
    · exact hps p hp

variable {i t : String} {n : RaftNode σ} {T : Nat} {req : AppendEntriesRequest}
  (hr : LogRel ids s h)
include hr

theorem setNode (hinv : LogInv entryTerm h')
    (hshape : ∀ {l}, l ∈ h'.logs → WellIndexed l) (hn : NodeRel ids h' i n)
    (hterm : ∀ {j}, j ≠ i → h'.term j = h.term j) (hlog : ∀ {j}, j ≠ i → h'.log j = h.log j)
    (hwon : ∀ {j}, j ≠ i → ∀ T, h'.won T = some j ↔ h.won T = some j)
    (hmono : ∀ {T j}, h.won T = some j → h'.won T = some j) (hsent : h.sent ⊆ h'.sent) :
    LogRel ids (s.setNode i n) h' where
  inv := hinv
  shape := hshape
  node := fun j => by
    by_cases hj : j = i
    · subst hj; rw [setNode_self]; exact hn
    · rw [setNode_of_ne hj]
      exact (hr.node j).frame (hterm hj) (hlog hj) (hwon hj)
  pending := fun hp => (hr.pending hp).mono hmono hsent

theorem quiet (hc : n.configView = (s.node i).configView)
    (hl : n.logView = (s.node i).logView) (ht : n.currentTerm = (s.node i).currentTerm)
    (hs : n.state = .leader ↔ (s.node i).state = .leader)
    (ha : n.state ≠ .follower → (s.node i).state ≠ .follower) : LogRel ids (s.setNode i n) h :=
  hr.setNode hr.inv hr.shape ((hr.node i).congr hc hl ht hs ha) (fun _ => rfl) (fun _ => rfl)
    (fun _ _ => Iff.rfl) id subset_rfl

theorem core (hcore : n.coreView = (s.node i).coreView) : LogRel ids (s.setNode i n) h := by
  obtain ⟨hv, hc, hl, -, -⟩ := coreView_eq hcore
  obtain ⟨-, hst, ht, -, -⟩ := voteView_eq hv
  exact hr.quiet hc hl ht (by rw [hst]) (by rw [hst]; exact id)

theorem stepDown (hT : (s.node i).currentTerm = T) (hc : (s.node i).state = .candidate) :
    LogRel ids (s.setNode i ((s.node i).becomeFollower T)) h := by
  refine hr.quiet rfl rfl hT.symm ?_ (fun hf => absurd rfl hf)
  rw [hc]
  exact ⟨nofun, nofun⟩

theorem post_one {p : Pending} (hp : p.LogOk h) : LogRel ids (s.post {p}) h :=
  hr.post fun q hq => by rw [Multiset.mem_singleton.1 hq]; exact hp

theorem refusal {p : Pending} (hp : p.Refusal) : LogRel ids (s.post {p}) h := by
  refine hr.post_one ?_
  cases p with
  | voteReply c o v r => trivial
  | appendReply i t r => trivial
  | _ => exact hp.elim

theorem wellIndexed (i : String) : WellIndexed (s.node i).log := by
  rw [(hr.node i).log]
  exact hr.shape (hr.inv.log_mem i)

/-! ### Terms -/

theorem advance (hc : n.configView = (s.node i).configView)
    (hl : n.logView = (s.node i).logView) (ht : (s.node i).currentTerm < n.currentTerm)
    (hs : n.state ≠ .leader) (hm : n.state ≠ .follower → i ∈ ids) :
    LogRel ids (s.setNode i n) (h.advance i n.currentTerm) := by
  have hold := hr.node i
  have hlt : h.term i < n.currentTerm := hold.term ▸ ht
  obtain ⟨c1, c2, c3⟩ := configView_eq hc
  obtain ⟨l1, l2, -⟩ := logView_eq.1 hl
  have hterm : (h.advance i n.currentTerm).term i = n.currentTerm := by simp [LogHistory.advance]
  refine hr.setNode (hr.inv.advance hlt.le) hr.shape
    { id := c1.trans hold.id
      config := c2.trans hold.config
      joint := c3.trans hold.joint
      offset := l2.trans hold.offset
      term := hterm.symm
      log := l1.trans hold.log
      leader := ?_
      active := fun ha => ⟨hm ha, by omega⟩ } (fun hj => ?_) (fun _ => rfl) (fun _ _ => Iff.rfl) id
      subset_rfl
  · rw [hterm]
    refine ⟨fun hlead => absurd hlead hs, fun hw => ?_⟩
    have : n.currentTerm ≤ h.term i := hr.inv.won_term hw
    omega
  · simp [LogHistory.advance, hj]

theorem follow (hT : (s.node i).currentTerm < T) :
    LogRel ids (s.setNode i ((s.node i).becomeFollower T)) (h.advance i T) :=
  hr.advance (n := (s.node i).becomeFollower T) rfl rfl hT nofun
    (fun hf => absurd rfl hf)

theorem campaign (hi : i ∈ ids) :
    LogRel ids (s.setNode i (s.node i).campaign) (h.advance i (h.term i + 1)) := by
  have := hr.advance (n := (s.node i).campaign) (i := i) rfl rfl (Nat.lt_succ_self _)
    nofun (fun _ => hi)
  rwa [show (s.node i).campaign.currentTerm = h.term i + 1 from
    congrArg (· + 1) (hr.node i).term] at this

theorem win (hc : (s.node i).state = .candidate) (hnone : h.won (h.term i) = none) :
    LogRel ids (s.setNode i (s.node i).becomeLeader) (h.win i) := by
  have hold := hr.node i
  have hact : i ∈ ids ∧ 0 < h.term i := hold.active (by rw [hc]; nofun)
  refine hr.setNode (hr.inv.win hact.2 hnone) hr.shape
    { hold with
      leader := ⟨fun _ => LogHistory.won_win_self, fun _ => rfl⟩
      active := fun _ => hact }
    (fun _ => rfl) (fun _ => rfl) (fun {j} hj T => ?_) (fun {T j} hw => ?_) subset_rfl
  · by_cases hT : T = h.term i
    · subst hT
      simp [LogHistory.win, hnone, Ne.symm hj]
    · simp [LogHistory.win, hT]
  · have hT : T ≠ h.term i := fun e => by rw [e, hnone] at hw; cases hw
    exact (LogHistory.won_win_of_ne hT).trans hw

theorem not_won_of_candidate (hc : (s.node i).state = .candidate) : h.won (h.term i) ≠ some i := by
  intro hw
  rw [(hr.node i).leader.2 hw] at hc
  cases hc

/-! ### Logs -/

theorem propose {e : LogEntry} (hl : (s.node i).state = .leader)
    (hT : e.term = (s.node i).currentTerm) (he : e.index = (s.node i).lastLogIndex + 1) :
    LogRel ids (s.setNode i ((s.node i).appendEntry e)) (h.propose i e) := by
  have hold := hr.node i
  have hw : h.won (h.term i) = some i := hold.leader.1 hl
  have hidx := lastLogIndex_add_one hold.offset (hr.wellIndexed i)
  have hterm := hT.trans hold.term
  refine hr.setNode (hr.inv.propose hw hterm) ?_
    { hold with
      log := by
        show (s.node i).log ++ [_] = _
        simp [LogHistory.propose, hold.log] }
    (fun _ => rfl) (fun hj => ?_) (fun _ _ => Iff.rfl) id subset_rfl
  · rintro l (rfl | hl)
    · rw [← hold.log]
      exact (hr.wellIndexed i).append (he.trans hidx) (hterm ▸ hr.inv.won_pos hw)
    · exact hr.shape hl
  · simp [LogHistory.propose, hj]

theorem heartbeat (hl : (s.node i).state = .leader) :
    LogRel ids (s.post (appends (s.node i))) h := by
  have hold := hr.node i
  refine hr.post fun p hp => ?_
  obtain ⟨t, hne, rfl⟩ := mem_appends hp
  rw [hold.id] at hne ⊢
  refine ⟨?_, Ne.symm hne⟩
  rw [hold.term]
  exact hold.leader.1 hl

theorem send {c : Nat} (hp : Pending.append i t T c ∈ s.pending)
    (hs : (s.node i).sendTo t T c = .append req) :
    LogRel ids (s.post {.appendRequest i t req}) (h.send i T) := by
  have hold := hr.node i
  obtain ⟨hw, hne⟩ := hr.pending hp
  obtain ⟨hT, -, hslice⟩ := sendTo_slice hold.offset (hr.wellIndexed i) hs
  have hr' : LogRel ids s (h.send i T) :=
    { inv := hr.inv.send hw
      shape := hr.shape
      node := fun j => (hr.node j).frame rfl rfl fun _ => Iff.rfl
      pending := fun hq => (hr.pending hq).mono id (Set.subset_insert _ _) }
  refine hr'.post_one ⟨?_, hne, h.log i, ?_, ?_⟩
  · rw [hT]; exact hw
  · rw [hT]; exact Set.mem_insert _ _
  · rw [← hold.log]; exact hslice

/-- After an accepted request the log is the one that was sent, or an extension of it. -/
theorem accept_log {ℓ : List LogEntry} (hsent : (req.term, ℓ) ∈ h.sent)
    (hslice : Slice ℓ req) (hprev : (s.node t).prevConflict req = none) :
    ((s.node t).insertEntries (req.prevLogIndex + 1) req.entries).log =
        (if ℓ <+: h.log t then h.log t else ℓ) ∧
      ((s.node t).insertEntries (req.prevLogIndex + 1) req.entries).logOffset = 0 ∧
      req.prevLogIndex + req.entries.length + 1 = ℓ.length := by
  have hold := hr.node t
  have hℓmem := hr.inv.sent_mem hsent
  have hℓ := hr.shape hℓmem
  have hlmem : (s.node t).log ∈ h.logs := by rw [hold.log]; exact hr.inv.log_mem t
  have hlog := hr.shape hlmem
  obtain ⟨e, e', hget, hget', hterm⟩ :=
    prevConflict_slice hold.offset hlog hℓ hslice hprev
  have hlt : req.prevLogIndex < (s.node t).log.length := (List.getElem?_eq_some_iff.1 hget).1
  have hlt' : req.prevLogIndex < ℓ.length := (List.getElem?_eq_some_iff.1 hget').1
  have hsame : ∀ (k : Nat) (x x' : LogEntry), (s.node t).log[k]? = some x → ℓ[k]? = some x' → x.term = x'.term →
      x = x' := by
    intro k x x' hx hx' hxx
    have htake := hr.inv.log_matching hlmem hℓmem hx hx' hxx
    have hk := congrArg (fun l : List LogEntry => l[k]?) htake
    simp only [getElem?_take_of_lt (Nat.lt_succ_self k), hx, hx'] at hk
    exact Option.some.inj hk
  obtain ⟨h1, h2⟩ := insertEntries_log hℓ hold.offset hlog (Nat.succ_pos _) hlt
    (hr.inv.log_matching hlmem hℓmem hget hget' hterm) hslice.2 hsame
  rw [hold.log] at h1
  refine ⟨h1, h2, ?_⟩
  rw [hslice.2, length_drop]
  omega

theorem insertEntries {ℓ : List LogEntry} (hw : h.won req.term = some i)
    (hne : i ≠ t) (hT : (s.node t).currentTerm = req.term) (hsent : (req.term, ℓ) ∈ h.sent)
    (hslice : Slice ℓ req) (hprev : (s.node t).prevConflict req = none) :
    LogRel ids (s.setNode t ((s.node t).insertEntries (req.prevLogIndex + 1) req.entries))
      (h.accept t ℓ) := by
  have hold := hr.node t
  obtain ⟨h1, h2, -⟩ := hr.accept_log hsent hslice hprev
  obtain ⟨l, o, he⟩ := (s.node t).insertEntries_eq (req.prevLogIndex + 1) req.entries
  have hnot : h.won (h.term t) ≠ some t := by
    rw [← hold.term, hT, hw]
    exact fun e => hne (Option.some.inj e)
  refine hr.setNode (hr.inv.accept (hr.inv.sent_mem hsent) hnot) hr.shape
    (?_ : NodeRel ids (h.accept t ℓ) t _)
    (fun _ => rfl) (fun hj => ?_) (fun _ _ => Iff.rfl) id subset_rfl
  · rw [he] at h1 h2 ⊢
    exact { hold with
      offset := h2
      log := h1.trans (by simp [accept]) }
  · simp [accept, hj]

theorem followCommit (t : String) (req : AppendEntriesRequest) :
    LogRel ids (s.setNode t ((s.node t).followCommit req)) h := by
  obtain ⟨c, hc⟩ := (s.node t).followCommit_eq req
  rw [hc]
  exact hr.quiet rfl rfl rfl Iff.rfl id

/-- Every move is a sequence of events of the history, which never changes who has won. -/
theorem move {strict : Prop} {s' : Cluster σ} (hm : Move strict ids s s') :
    ∃ h', LogRel ids s' h' ∧ h'.won = h.won := by
  cases hm with
  | quiet i n hcore _ => exact ⟨h, hr.core hcore, rfl⟩
  | follow i T hT => exact ⟨_, hr.follow hT, rfl⟩
  | stepDown i t req hp hT hc =>
    refine ⟨h, hr.stepDown hT hc, rfl⟩
  | campaign i hi _ => exact ⟨_, hr.campaign hi, rfl⟩
  | election i hi =>
    exact ⟨h, hr.post_one trivial, rfl⟩
  | request i hp =>
    refine ⟨h, hr.post fun p hp => ?_, rfl⟩
    obtain ⟨t, -, rfl⟩ := mem_requests hp
    trivial
  | grant c t req hp hT hcan hup hl =>
    refine ⟨h, post_one ?_ trivial, rfl⟩
    exact hr.quiet rfl rfl rfl Iff.rfl id
  | refuse p hp => exact ⟨h, hr.refusal hp, rfl⟩
  | count c orig v reply hp hc hg ho => exact ⟨h, hr.quiet rfl rfl rfl Iff.rfl id, rfl⟩
  | heartbeat i hl => exact ⟨h, hr.heartbeat hl, rfl⟩
  | propose i command hl => exact ⟨_, hr.propose hl rfl rfl, rfl⟩
  | send i t T c req hp hs => exact ⟨_, hr.send hp hs, rfl⟩
  | accept i t req reply hp hT hc hprev _ _ =>
    obtain ⟨hw, hne, ℓ, hsent, hslice⟩ := hr.pending hp
    have hr' := (hr.insertEntries hw hne hT hsent hslice hprev).followCommit t req
    rw [setNode_setNode, setNode_self] at hr'
    exact ⟨_, hr'.post_one trivial, rfl⟩
  | record i t reply hp hl hT hs => exact ⟨h, hr.quiet rfl rfl rfl Iff.rfl id, rfl⟩
  | commit i k hl hk hcan => exact ⟨h, hr.quiet rfl rfl rfl Iff.rfl id, rfl⟩
  | apply i n hcore _ => exact ⟨h, hr.core hcore, rfl⟩

end LogRel

/-! ## Runs -/

/-- `u` is a state of the run. -/
def Visited (hist : List (Cluster σ × Action)) (s u : Cluster σ) : Prop := u = s ∨ ∃ a, (u, a) ∈ hist

/-- No term has two leaders in the run. -/
def OneLeader (hist : List (Cluster σ × Action)) (s : Cluster σ) : Prop :=
  ∀ u u', Visited hist s u → Visited hist s u' → ∀ i j, (u.node i).state = .leader →
    (u'.node j).state = .leader → (u.node i).currentTerm = (u'.node j).currentTerm → i = j

/-- Two nodes that hold entries of the same index and term hold the same entries up to that
index. -/
def LogsMatch (s : Cluster σ) : Prop :=
  ∀ i j, ∀ e ∈ (s.node i).log, ∀ e' ∈ (s.node j).log, e.index = e'.index → e.term = e'.term →
    ∀ m ≤ e.index, ∃ x, x.index = m ∧ (s.node i).getLogEntry m = some x ∧
      (s.node j).getLogEntry m = some x

variable {hist : List (Cluster σ × Action)} {s : Cluster σ} {M : StateMachine σ} {ids : List String}
  {sm : String → σ}

theorem Visited.cons {s' u : Cluster σ} (h : Visited hist s u) (a : Action) :
    Visited ((s, a) :: hist) s' u := by
  rcases h with rfl | ⟨b, hb⟩
  · exact Or.inr ⟨a, mem_cons_self ..⟩
  · exact Or.inr ⟨b, mem_cons_of_mem _ hb⟩

theorem OneLeader.tail {s' : Cluster σ} {a : Action} (h : OneLeader ((s, a) :: hist) s') :
    OneLeader hist s :=
  fun u u' hu hu' => h u u' (hu.cons a) (hu'.cons a)

/-- The history of a run in which no term has two leaders. -/
theorem LogRel.of_run (hrun : AnyRun M ids sm hist s) (hone : OneLeader hist s) :
    ∃ h, LogRel ids s h ∧ ∀ {T w}, h.won T = some w →
      ∃ u, Visited hist s u ∧ (u.node w).state = .leader ∧ (u.node w).currentTerm = T := by
  induction hrun with
  | init => exact ⟨_, logRel_init ids sm, nofun⟩
  | @step hist s s' a _ _ hs ih =>
    obtain ⟨h0, hr0, hseen0⟩ := ih hone.tail
    have hi : MoveInv False ids s'.node fun c : Cluster σ =>
        ∃ h, LogRel ids c h ∧ ∀ {T w}, h.won T = some w →
          ∃ u, Visited ((s, a) :: hist) s' u ∧ (u.node w).state = .leader ∧
            (u.node w).currentTerm = T :=
      { joint := fun ⟨h, hr, _⟩ i => (hr.node i).joint
        move := fun ⟨h, hr, hseen⟩ hm => by
          obtain ⟨h', hr', hwon⟩ := hr.move hm
          exact ⟨h', hr', fun hw => hseen (hwon ▸ hw)⟩
        win := ?_
        less := fun ⟨h, hr, hseen⟩ hn hp => ⟨h, hr.less hn hp, hseen⟩ }
    · refine hi.step ⟨h0, hr0, fun hw => ?_⟩ False.elim hs
      obtain ⟨u, hu, hrest⟩ := hseen0 hw
      exact ⟨u, hu.cons a, hrest⟩
    · rintro c c' ⟨h, hr, hseen⟩ ⟨i, hc, hq, rfl⟩ hnode
      -- the new leader is one in the state after the step
      have hlead : (s'.node i).state = .leader ∧ (s'.node i).currentTerm = h.term i := by
        rw [← hnode, setNode_self]
        exact ⟨rfl, (hr.node i).term⟩
      have hnone : h.won (h.term i) = none := by
        cases hw : h.won (h.term i) with
        | none => rfl
        | some w =>
          obtain ⟨u, hu, hl, ht⟩ := hseen hw
          have := hone u s' hu (Or.inl rfl) w i hl hlead.1 (ht.trans hlead.2.symm)
          subst this
          exact absurd hw (hr.not_won_of_candidate hc)
      refine ⟨_, hr.win hc hnone, fun {T w} hw => ?_⟩
      rcases LogHistory.won_win_cases hw with ⟨rfl, rfl⟩ | ⟨-, hw⟩
      · exact ⟨s', Or.inl rfl, hlead⟩
      · exact hseen hw

/-- If no two nodes are ever leader in the same term, two logs with an entry of the same index and
term are identical up to it. -/
theorem logsMatch_of_oneLeader (M : StateMachine σ) (ids : List String) (sm : String → σ)
    {hist : List (Cluster σ × Action)} {s : Cluster σ} (hrun : AnyRun M ids sm hist s)
    (hone : OneLeader hist s) : LogsMatch s := by
  obtain ⟨h, hr, -⟩ := LogRel.of_run hrun hone
  intro i j e he e' he' hidx hterm m hm
  obtain ⟨k, hk⟩ := getElem?_of_mem he
  obtain ⟨k', hk'⟩ := getElem?_of_mem he'
  -- the position of an entry is its index
  obtain rfl : k = e.index := ((hr.wellIndexed i).index hk).symm
  obtain rfl : k' = e.index := hidx ▸ ((hr.wellIndexed j).index hk').symm
  have htake : (s.node i).log.take (e.index + 1) = (s.node j).log.take (e.index + 1) := by
    rw [(hr.node i).log] at hk ⊢
    rw [(hr.node j).log] at hk' ⊢
    exact hr.inv.log_matching (hr.inv.log_mem i) (hr.inv.log_mem j) hk hk' hterm
  have hget : (s.node i).log[m]? = (s.node j).log[m]? := by
    have := congrArg (fun l : List LogEntry => l[m]?) htake
    simpa only [getElem?_take_of_lt (Nat.lt_succ_of_le hm)] using this
  have hlt : m < (s.node i).log.length := by
    have := (List.getElem?_eq_some_iff.1 hk).1
    omega
  have hx : (s.node i).log[m]? = some (s.node i).log[m] := getElem?_eq_getElem hlt
  refine ⟨(s.node i).log[m], (hr.wellIndexed i).index hx, ?_, ?_⟩
  · rw [getLogEntry_of_offset (hr.node i).offset, hx]
  · rw [getLogEntry_of_offset (hr.node j).offset, ← hget, hx]

variable {ok : Cluster σ → Action → Prop}

/-- Every state of a run is reached by a run, and before every step of a run its condition held. -/
theorem Run.visited {u : Cluster σ} (h : Run M ids sm ok hist s) (hu : Visited hist s u) :
    (∃ hist', hist' <:+ hist ∧ Run M ids sm ok hist' u) ∧ (u = s ∨ ∃ a, ok u a) := by
  induction h with
  | init =>
    rcases hu with rfl | ⟨a, ha⟩
    · exact ⟨⟨[], suffix_rfl, .init⟩, Or.inl rfl⟩
    · cases ha
  | @step hist s s' a hrun hok hs ih =>
    rcases hu with rfl | ⟨b, hb⟩
    · exact ⟨⟨_, suffix_rfl, hrun.step hok hs⟩, Or.inl rfl⟩
    · obtain ⟨⟨hist', hsuf, hrun'⟩, hor⟩ : (∃ hist', hist' <:+ hist ∧ Run M ids sm ok hist' u) ∧
          (u = s ∨ ∃ a, ok u a) := by
        rcases mem_cons.1 hb with hb | hb
        · cases hb; exact ⟨⟨hist, suffix_rfl, hrun⟩, Or.inl rfl⟩
        · exact ih (Or.inr ⟨b, hb⟩)
      refine ⟨⟨hist', hsuf.trans (suffix_cons _ _), hrun'⟩, Or.inr ?_⟩
      rcases hor with rfl | hor
      · exact ⟨a, hok⟩
      · exact hor

theorem Run.any (h : Run M ids sm ok hist s) : AnyRun M ids sm hist s := by
  induction h with
  | init => exact .init
  | step _ _ hs ih => exact ih.step trivial hs

/-- In a cluster of two, `a` is elected, takes a command and sends it to `b`. -/
def oneEntry : List Action :=
  let vote : RequestVoteRequest :=
    { term := 1, candidateID := "a", lastLogIndex := 0, lastLogTerm := 0 }
  let e : LogEntry := { term := 1, index := 1, type := .normal, command := [7] }
  let req : AppendEntriesRequest :=
    { term := 1, leaderID := "a", prevLogIndex := 0, prevLogTerm := 0, entries := [e],
      leaderCommit := 0 }
  [.timeout "a", .deliver (.election "a"), .deliver (.voteRequest "a" "b" vote),
    .deliver (.voteReply "a" 1 "b" { term := 1, voteGranted := true }), .propose "a" [7],
    .heartbeat "a", .deliver (.append "a" "b" 1 0), .deliver (.appendRequest "a" "b" req)]

theorem logsMatch_after_one_entry : ∃ (hist : List (Cluster Unit × Action)) (s : Cluster Unit),
      AnyRun .idle ["a", "b"] (fun _ => ()) hist s ∧ OneLeader hist s ∧
      (s.node "a").log.length = 2 ∧ (s.node "b").log.length = 2 ∧ LogsMatch s := by
  obtain ⟨hist, s, hrun, hacts, hb, ha, hlen⟩ := Run.of_runActions .idle ["a", "b"] (fun _ => ())
    (fun s _ => (s.node "b").state ≠ .leader) oneEntry
    (fun s => (s.node "b").state ≠ .leader ∧ (s.node "a").log.length = 2 ∧
      (s.node "b").log.length = 2) (by decide)
  have hactor : hist.map (fun x => x.2.actor) = oneEntry.reverse.map Action.actor := by
    rw [← hacts, map_map]
    rfl
  have hlead : ∀ u, Visited hist s u → ∀ i, (u.node i).state = .leader → i = "a" := by
    intro u hu i hl
    obtain ⟨⟨hist', hsuf, hrun'⟩, hor⟩ := hrun.visited hu
    have hne : i ≠ "b" := by
      rintro rfl
      rcases hor with rfl | ⟨-, hok⟩
      · exact hb hl
      · exact hok hl
    have hmem := (hsuf.map fun x => x.2.actor).subset (hrun'.leader_acted hl)
    rw [hactor] at hmem
    have : i = "a" ∨ i = "b" := by
      simp [oneEntry, Action.actor, Pending.actor] at hmem
      tauto
    tauto
  have hone : OneLeader hist s := fun u u' hu hu' i j hi hj _ =>
    (hlead u hu i hi).trans (hlead u' hu' j hj).symm
  exact ⟨hist, s, hrun.any, hone, ha, hlen, logsMatch_of_oneLeader .idle _ _ hrun.any hone⟩

end Solocoder.Raft
