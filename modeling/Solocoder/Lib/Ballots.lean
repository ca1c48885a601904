import Solocoder.Lib.Majority
import Solocoder.Lib.LogHistory

/-!
# Ballots over a history of replicated logs

Terms are won by a majority of votes, and a prefix of the log of a winner is chosen once a majority
has acknowledged it in that term. A position is *choosable* as long as each node of some majority
has acknowledged it or has not left the term.

Every event keeps what safety rests on: what is still choosable in a term is part of the log of
every winner of a later term. A node may give several votes in one term, as long as nobody has been
elected by one of them.
-/

namespace Solocoder.Lib

open List Function

variable {N E : Type}

/-- The votes, campaigns, elections and acknowledgements so far. -/
structure Ballots (N E : Type) where
  /-- Voter, candidate and term. -/
  vote : Set (N × N × ℕ)
  /-- The log a node campaigns with. -/
  camp : N → ℕ → Option (List E)
  /-- The majority that elected the winner of a term. -/
  electors : ℕ → Finset N
  /-- Node, term, and the position up to which it holds the log of the winner of the term. -/
  ack : Set (N × ℕ × ℕ)
  /-- Node and a position up to which it knows its log to be chosen. -/
  com : Set (N × ℕ)
  /-- Term and a position said in the name of that term to be chosen. -/
  hint : Set (ℕ × ℕ)

section Definitions

variable (members : Finset N) (τ : E → ℕ) (h : LogHistory N E) (b : Ballots N E) (T i : ℕ)

/-- The first `i + 1` entries of the log of the winner of `T`. -/
def pre : List E := (h.lead T).take (i + 1)

/-- `r` acknowledged position `i` in term `T`, or is the winner and holds it. -/
def Acked (r : N) (T i : ℕ) : Prop :=
  (∃ j, i ≤ j ∧ (r, T, j) ∈ b.ack) ∨ (h.won T = some r ∧ i < (h.lead T).length)

/-- Position `i` of the log of the winner of `T` holds an entry of term `T`. -/
def Own : Prop := (∃ c, h.won T = some c) ∧ ∃ e, (h.lead T)[i]? = some e ∧ τ e = T

/-- A majority acknowledged position `i` in term `T`, or still can. -/
def Choosable : Prop :=
  Own τ h T i ∧ ∃ Q, Majority members Q ∧ ∀ r ∈ Q, Acked h b r T i ∨ h.term r ≤ T

/-- A majority acknowledged position `i` in term `T`. -/
def Chosen : Prop := Own τ h T i ∧ ∃ Q, Majority members Q ∧ ∀ r ∈ Q, Acked h b r T i

/-- A majority has not voted for `c` in term `T`, and will not. -/
def Blocked (c : N) (T : ℕ) : Prop :=
  ∃ B, Majority members B ∧ ∀ v ∈ B, (v, c, T) ∉ b.vote ∧
    (T < h.term v ∨ ∃ w, h.won T = some w ∧ w ≠ c ∧ v ∈ b.electors T)

/-- The term of the last entry. -/
def lastTerm (l : List E) : ℕ := (l.getLast?.map τ).getD 0

/-- `l` is at least as up to date as `l'`. -/
def UpToDate (l l' : List E) : Prop :=
  lastTerm τ l' < lastTerm τ l ∨ (lastTerm τ l = lastTerm τ l' ∧ l'.length ≤ l.length)

/-- What holds of every history and its ballots. -/
structure BallotInv : Prop where
  base : LogInv τ h
  sorted : ∀ {l}, l ∈ h.logs → l.Pairwise fun x y => τ x ≤ τ y
  lead_le : ∀ {T c}, h.won T = some c → ∀ {e}, e ∈ h.lead T → τ e ≤ T
  vote_term : ∀ {v c T}, (v, c, T) ∈ b.vote → T ≤ h.term v ∧ T ≤ h.term c
  electors : ∀ {T c}, h.won T = some c →
    Majority members (b.electors T) ∧ ∀ v ∈ b.electors T, (v, c, T) ∈ b.vote
  electors_unique : ∀ {T c v c'}, h.won T = some c → v ∈ b.electors T → (v, c', T) ∈ b.vote → c' = c
  vote_unique : ∀ {T v c c'}, h.won T = none → (v, c, T) ∈ b.vote → (v, c', T) ∈ b.vote → c = c'
  camp_term : ∀ {c T l}, b.camp c T = some l → T ≤ h.term c ∧ l ∈ h.logs
  camp_old : ∀ {c T l}, b.camp c T = some l → (∀ e ∈ l, τ e < T) ∨ Blocked members h b c T
  ack_lead : ∀ {r T j}, (r, T, j) ∈ b.ack →
    T ≤ h.term r ∧ (∃ s, h.won T = some s) ∧ j < (h.lead T).length
  /-- What is choosable is part of the log of every later winner. -/
  key : ∀ {T T' i c}, T < T' → h.won T' = some c → Choosable members τ h b T i →
    pre h T i <+: h.lead T'
  hold : ∀ {T i r}, Choosable members τ h b T i → Acked h b r T i → pre h T i <+: h.log r
  hold_won : ∀ {T T' i r}, h.won T' = some r → T < T' → Choosable members τ h b T i →
    pre h T i <+: h.log r
  /-- What is sent in the name of a term holds what is choosable up to that term, or is part of the
  log of its winner. -/
  msg : ∀ {T T' i l}, (T', l) ∈ h.sent → T ≤ T' → Choosable members τ h b T i →
    pre h T i <+: l ∨ (T = T' ∧ l <+: h.lead T')
  /-- A voter that acknowledged what is choosable only votes for a log that holds it. -/
  vote_safe : ∀ {v c T' l T i}, (v, c, T') ∈ b.vote → b.camp c T' = some l → T < T' →
    Choosable members τ h b T i → Acked h b v T i → pre h T i <+: l
  com : ∀ {n k}, (n, k) ∈ b.com →
    ∃ T i, T ≤ h.term n ∧ Chosen members τ h b T i ∧ k ≤ i ∧ (h.lead T).take (k + 1) <+: h.log n
  hint : ∀ {T c}, (T, c) ∈ b.hint → ∃ T₀ i, T₀ ≤ T ∧ Chosen members τ h b T₀ i ∧ c ≤ i

end Definitions

namespace Ballots

/-- Nothing happened yet. -/
def init : Ballots N E where
  vote := ∅
  camp := fun _ _ => none
  electors := fun _ => ∅
  ack := ∅
  com := ∅
  hint := ∅

variable [DecidableEq N] (b : Ballots N E)

/-- `c` starts a campaign in term `T` with the log `l`, and votes for itself. -/
def campaign (c : N) (T : ℕ) (l : List E) : Ballots N E :=
  { b with
    vote := insert (c, c, T) b.vote
    camp := update b.camp c (update (b.camp c) T (some l)) }

/-- `c` gives up its campaign in term `T`. -/
def withdraw (c : N) (T : ℕ) : Ballots N E :=
  { b with camp := update b.camp c (update (b.camp c) T none) }

/-- `v` votes for `c` in term `T`. -/
def grant (v c : N) (T : ℕ) : Ballots N E :=
  { b with vote := insert (v, c, T) b.vote }

/-- `Q` elects the winner of term `T`. -/
def elect (T : ℕ) (Q : Finset N) : Ballots N E :=
  { b with electors := update b.electors T Q }

/-- `r` acknowledges the log of the winner of `T` up to position `j`. -/
def acknowledge (r : N) (T j : ℕ) : Ballots N E :=
  { b with ack := insert (r, T, j) b.ack }

/-- `n` learns that its log is chosen up to position `k`. -/
def learn (n : N) (k : ℕ) : Ballots N E := { b with com := insert (n, k) b.com }

/-- It is said in the name of `T` that position `c` is chosen. -/
def tell (T c : ℕ) : Ballots N E := { b with hint := insert (T, c) b.hint }

variable {b}

theorem camp_of_withdraw {c c' : N} {T T' : ℕ} {l : List E}
    (h : (b.withdraw c T).camp c' T' = some l) : b.camp c' T' = some l := by
  by_cases hc : c' = c
  · subst hc
    by_cases hT : T' = T
    · subst hT; simp [withdraw] at h
    · simpa [withdraw, hT] using h
  · simpa [withdraw, hc] using h

end Ballots

variable {members : Finset N} {τ : E → ℕ} {h h' : LogHistory N E} {b b' : Ballots N E} {T i : ℕ}

theorem Own.lt (ho : Own τ h T i) : i < (h.lead T).length := by
  obtain ⟨-, e, he, -⟩ := ho
  exact (List.getElem?_eq_some_iff.1 he).1

theorem pre_length (hi : i < (h.lead T).length) : (pre h T i).length = i + 1 := by
  simp only [pre, length_take]
  omega

theorem pre_prefix_lead (T i : ℕ) : pre h T i <+: h.lead T := take_prefix _ _

theorem pre_mono {T i j : ℕ} (hij : i ≤ j) : pre h T i <+: pre h T j :=
  take_prefix_take_left (by omega)

theorem take_eq_take {l l' : List E} (hp : l <+: l') {k : ℕ} (hk : k ≤ l.length) :
    l'.take k = l.take k := by
  obtain ⟨r, rfl⟩ := hp
  rw [take_append_of_le_length hk]

theorem getElem?_of_take {l p : List E} {j k : ℕ} (hp : p.take (j + 1) <+: l) (hkj : k ≤ j)
    (hj : j < p.length) : l[k]? = p[k]? := by
  have hk : (p.take (j + 1))[k]? = p[k]? := getElem?_take_of_lt (by omega)
  have hs : p[k]? = some p[k] := getElem?_eq_getElem (by omega)
  rw [hs] at hk ⊢
  exact getElem?_mono hp hk

theorem Chosen.choosable (hc : Chosen members τ h b T i) : Choosable members τ h b T i := by
  obtain ⟨ho, Q, hQ, hall⟩ := hc
  exact ⟨ho, Q, hQ, fun r hr => Or.inl (hall r hr)⟩

theorem Choosable.back (hc : Choosable members τ h' b' T i) (hown : Own τ h' T i → Own τ h T i)
    (hack : ∀ r, Acked h' b' r T i ∨ h'.term r ≤ T → Acked h b r T i ∨ h.term r ≤ T) :
    Choosable members τ h b T i := by
  obtain ⟨ho, Q, hQ, hall⟩ := hc
  exact ⟨hown ho, Q, hQ, fun r hr => hack r (hall r hr)⟩

theorem Chosen.mono (hc : Chosen members τ h b T i)
    (hwon : ∀ c, h.won T = some c → h'.won T = some c) (hlead : h.lead T <+: h'.lead T)
    (hack : b.ack ⊆ b'.ack) : Chosen members τ h' b' T i := by
  obtain ⟨⟨⟨c, hw⟩, e, he, hτ⟩, Q, hQ, hall⟩ := hc
  refine ⟨⟨⟨c, hwon c hw⟩, e, getElem?_mono hlead he, hτ⟩, Q, hQ, fun r hr => ?_⟩
  rcases hall r hr with ⟨j, hj, hm⟩ | ⟨hr', hlt⟩
  · exact Or.inl ⟨j, hj, hack hm⟩
  · exact Or.inr ⟨hwon r hr', hlt.trans_le hlead.length_le⟩

namespace BallotInv

variable (hi : BallotInv members τ h b)
include hi

theorem acked_term {r : N} {T i : ℕ} (ha : Acked h b r T i) : T ≤ h.term r := by
  rcases ha with ⟨j, -, hm⟩ | ⟨hw, -⟩
  · exact (hi.ack_lead hm).1
  · exact hi.base.won_term hw

variable [DecidableEq N]

/-- A majority that could choose before a won term has a node that acknowledged and moved on. -/
theorem exists_acked {T T' : ℕ} {c : N} (hT : T < T') (hw : h.won T' = some c) {Q : Finset N}
    (hQ : Majority members Q) {P : N → Prop} (hall : ∀ r ∈ Q, P r ∨ h.term r ≤ T) :
    ∃ v, v ∈ b.electors T' ∧ T' ≤ h.term v ∧ P v := by
  obtain ⟨hE, hvote⟩ := hi.electors hw
  obtain ⟨v, hvQ, hvE⟩ := hQ.inter hE
  have hterm : T' ≤ h.term v := (hi.vote_term (hvote v hvE)).1
  rcases hall v hvQ with hp | hle
  · exact ⟨v, hvE, hterm, hp⟩
  · omega

theorem winner_unique {T : ℕ} {c w : N} {Q : Finset N} (hQ : Majority members Q)
    (hv : ∀ v ∈ Q, (v, c, T) ∈ b.vote) (hw : h.won T = some w) : c = w := by
  obtain ⟨hE, -⟩ := hi.electors hw
  obtain ⟨v, hvQ, hvE⟩ := hQ.inter hE
  exact hi.electors_unique hw hvE (hv v hvQ)

omit [DecidableEq N] in
theorem com_agree {n m : N} {a c k : ℕ} (hn : (n, a) ∈ b.com) (hm : (m, c) ∈ b.com) (hka : k ≤ a)
    (hkc : k ≤ c) : (h.log n)[k]? = (h.log m)[k]? := by
  obtain ⟨T, i, -, hch, hai, hpn⟩ := hi.com hn
  obtain ⟨T', i', -, hch', hci, hpm⟩ := hi.com hm
  have hlt : i < (h.lead T).length := hch.1.lt
  have hlt' : i' < (h.lead T').length := hch'.1.lt
  -- both entries are those of the logs of the winners
  have e1 : (h.log n)[k]? = (h.lead T)[k]? := getElem?_of_take hpn hka (by omega)
  have e2 : (h.log m)[k]? = (h.lead T')[k]? := getElem?_of_take hpm hkc (by omega)
  rw [e1, e2]
  rcases Nat.lt_trichotomy T T' with hTT | rfl | hTT
  · obtain ⟨w, hw⟩ := hch'.1.1
    exact (getElem?_of_take (hi.key hTT hw hch.choosable) (by omega) hlt).symm
  · rfl
  · obtain ⟨w, hw⟩ := hch.1.1
    exact getElem?_of_take (hi.key hTT hw hch'.choosable) (by omega) hlt'

end BallotInv

theorem BallotInv.init {l0 : List E} (h0 : ∀ e ∈ l0, τ e = 0) :
    BallotInv members τ (LogHistory.init l0 : LogHistory N E) Ballots.init where
  base := LogInv.init h0
  sorted := fun {l} hl => by
    obtain rfl : l = l0 := hl
    exact pairwise_of_forall_mem_list fun x hx y hy => by rw [h0 x hx, h0 y hy]
  lead_le := nofun
  vote_term := fun hv => hv.elim
  electors := nofun
  electors_unique := nofun
  vote_unique := fun _ hv => hv.elim
  camp_term := nofun
  camp_old := nofun
  ack_lead := fun ha => ha.elim
  key := fun _ hw => by cases hw
  hold := fun hc => by obtain ⟨⟨⟨c, hw⟩, -⟩, -⟩ := hc; cases hw
  hold_won := nofun
  msg := fun hl => hl.elim
  vote_safe := fun hv => hv.elim
  com := fun hc => hc.elim
  hint := fun hc => hc.elim

end Solocoder.Lib
