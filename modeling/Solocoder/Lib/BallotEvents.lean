import Solocoder.Lib.Ballots

/-!
# The events of ballots over a history of logs

Each event of a history and its ballots, with the guard under which it keeps `BallotInv`.
-/

namespace Solocoder.Lib

open List Ballots
open LogHistory (won_win_self won_win_of_ne won_win_cases lead_win_self lead_win_of_ne)

variable {N E : Type} {members : Finset N} {τ : E → ℕ}
  {h h' : LogHistory N E} {b : Ballots N E}

/-! ## Comparing logs -/

variable {l : List E}

theorem le_lastTerm (hs : l.Pairwise fun x y => τ x ≤ τ y) {e : E} (he : e ∈ l) :
    τ e ≤ lastTerm τ l := by
  have hne : l ≠ [] := ne_nil_of_mem he
  obtain ⟨i, hi, rfl⟩ := getElem_of_mem he
  have hlast : l.getLast? = some (l[l.length - 1]) := by
    rw [getLast?_eq_getElem?, getElem?_eq_getElem]
  unfold lastTerm
  rw [hlast]
  simp only [Option.map_some, Option.getD_some]
  rcases Nat.lt_or_ge i (l.length - 1) with hlt | hge
  · exact pairwise_iff_getElem.1 hs i (l.length - 1) hi (by omega) hlt
  · obtain rfl : i = l.length - 1 := by omega
    exact le_rfl

/-- A log that ends in an entry of a positive term is part of the log of the winner of that
term. -/
theorem LogInv.prefix_lead (hb : LogInv τ h) (hl : l ∈ h.logs) (hpos : 0 < lastTerm τ l) :
    ∃ y, y ∈ l ∧ τ y = lastTerm τ l ∧ (∃ s, h.won (lastTerm τ l) = some s) ∧
      l <+: h.lead (lastTerm τ l) := by
  cases hlast : l.getLast? with
  | none => simp [lastTerm, hlast] at hpos
  | some y =>
    have hy : τ y = lastTerm τ l := by simp [lastTerm, hlast]
    have hmem : y ∈ l := mem_of_getLast? hlast
    have hlen : 0 < l.length := length_pos_of_mem hmem
    rw [getLast?_eq_getElem?] at hlast
    have hm := hb.matching hl hlast
    rw [hy, take_of_length_le (by omega)] at hm
    refine ⟨y, hmem, hy, ?_, hm⟩
    rcases hb.entry_won hl hmem with h0 | hs
    · omega
    · rwa [hy] at hs

/-- A log that is at least as up to date as one that holds what is choosable holds it as well. -/
theorem BallotInv.carry (hi : BallotInv members τ h b) {l' : List E} (hl : l ∈ h.logs)
    (hl' : l' ∈ h.logs) {T i : ℕ} (hc : Choosable members τ h b T i) (hp : pre h T i <+: l')
    (hup : UpToDate τ l l') : pre h T i <+: l := by
  obtain ⟨⟨c, hw⟩, e, he, hτ⟩ := hc.1
  have hlt : i < (h.lead T).length := hc.1.lt
  have hT : 0 < T := hi.base.won_pos hw
  have hpi : (pre h T i)[i]? = some e := by rw [pre, getElem?_take_of_lt (by omega), he]
  have hmem : e ∈ l' := mem_of_getElem? (getElem?_mono hp hpi)
  have hge : T ≤ lastTerm τ l' := hτ ▸ le_lastTerm (hi.sorted hl') hmem
  rcases hup with hgt | ⟨heq, hlen⟩
  · -- the last entry comes from a later winner, whose log holds what is choosable
    obtain ⟨y, hy, hyτ, ⟨s, hs⟩, hpl⟩ := hi.base.prefix_lead hl (by omega)
    have hk := hi.key (by omega) hs hc
    rcases Nat.lt_or_ge l.length (i + 1) with hshort | hlong
    · have hlp : l <+: pre h T i :=
        prefix_of_prefix_length_le hpl hk (by rw [pre_length hlt]; omega)
      have hyl : y ∈ h.lead T := ((hlp.trans (pre_prefix_lead T i)).subset) hy
      have := hi.lead_le hw hyl
      omega
    · exact prefix_of_prefix_length_le hk hpl (by rw [pre_length hlt]; omega)
  · -- both logs end in the same term and are parts of the log of its winner
    obtain ⟨-, -, -, -, hpl⟩ := hi.base.prefix_lead hl (by omega)
    obtain ⟨-, -, -, -, hpl'⟩ := hi.base.prefix_lead hl' (by omega)
    rw [← heq] at hpl'
    exact hp.trans (prefix_of_prefix_length_le hpl' hpl hlen)

namespace BallotInv

/-! ## Terms and votes -/

variable [DecidableEq N] {T i k : ℕ} {c r : N} {l : List E} {Q : Finset N}

section

variable (hi : BallotInv members τ h b)
include hi

theorem advance {n : N} (hle : h.term n ≤ T) : BallotInv members τ (h.advance n T) b := by
  have hmono : ∀ r, h.term r ≤ (h.advance n T).term r := by
    intro r
    by_cases hr : r = n
    · subst hr; simpa [LogHistory.advance] using hle
    · simp [LogHistory.advance, hr]
  have hback : ∀ {T1 i}, Choosable members τ (h.advance n T) b T1 i →
      Choosable members τ h b T1 i := fun hc => hc.back id fun r => Or.imp id (hmono r).trans
  refine
    { base := hi.base.advance hle
      sorted := hi.sorted
      lead_le := hi.lead_le
      vote_term := fun hv => ⟨(hi.vote_term hv).1.trans (hmono _), (hi.vote_term hv).2.trans (hmono _)⟩
      electors := hi.electors
      electors_unique := hi.electors_unique
      vote_unique := hi.vote_unique
      camp_term := fun hc => ⟨(hi.camp_term hc).1.trans (hmono _), (hi.camp_term hc).2⟩
      camp_old := ?_
      ack_lead := fun ha => ⟨(hi.ack_lead ha).1.trans (hmono _), (hi.ack_lead ha).2⟩
      key := fun hT hw hc => hi.key hT hw (hback hc)
      hold := fun hc ha => hi.hold (hback hc) ha
      hold_won := fun hw hT hc => hi.hold_won hw hT (hback hc)
      msg := fun hl hT hc => hi.msg hl hT (hback hc)
      vote_safe := fun hv hcp hT hc ha => hi.vote_safe hv hcp hT (hback hc) ha
      com := ?_
      hint := hi.hint }
  · intro c T' l hcp
    refine (hi.camp_old hcp).imp id ?_
    rintro ⟨B, hB, hall⟩
    refine ⟨B, hB, fun v hv => ⟨(hall v hv).1, ?_⟩⟩
    exact (hall v hv).2.imp (fun hlt => hlt.trans_le (hmono v)) id
  · intro m k hm
    obtain ⟨T1, i, h1, h2⟩ := hi.com hm
    exact ⟨T1, i, h1.trans (hmono m), h2⟩

theorem withdraw (c : N) (T : ℕ) : BallotInv members τ h (b.withdraw c T) :=
  { hi with
    camp_term := fun hcp => hi.camp_term (camp_of_withdraw hcp)
    camp_old := fun hcp => hi.camp_old (camp_of_withdraw hcp)
    vote_safe := fun hv hcp => hi.vote_safe hv (camp_of_withdraw hcp) }

omit [DecidableEq N] in
/-- `v` votes in its term: for whom it voted before, if nobody has won the term, or for the winner,
if it is one of its electors; and only for a log that is at least as up to date as its own. -/
theorem grant {v : N} (hc : h.term v ≤ h.term c)
    (hfree : h.won (h.term v) = none → ∀ c', (v, c', h.term v) ∈ b.vote → c' = c)
    (helect : ∀ w, h.won (h.term v) = some w → v ∈ b.electors (h.term v) → c = w)
    (hup : ∀ l, b.camp c (h.term v) = some l → UpToDate τ l (h.log v)) :
    BallotInv members τ h (b.grant v c (h.term v)) := by
  refine
    { hi with
      vote_term := ?_
      electors := ?_
      electors_unique := ?_
      vote_unique := ?_
      camp_old := ?_
      vote_safe := ?_ }
  · rintro v' c' T' (hv | hv)
    · cases hv; exact ⟨le_rfl, hc⟩
    · exact hi.vote_term hv
  · intro T' w hw
    exact ⟨(hi.electors hw).1, fun v' hv => Or.inr ((hi.electors hw).2 v' hv)⟩
  · rintro T' w v' c' hw hv (hvote | hvote)
    · cases hvote; exact helect w hw hv
    · exact hi.electors_unique hw hv hvote
  · rintro T' v' c1 c2 hn (h1 | h1) (h2 | h2)
    · cases h1; cases h2; rfl
    · cases h1; exact (hfree hn c2 h2).symm
    · cases h2; exact hfree hn c1 h1
    · exact hi.vote_unique hn h1 h2
  · intro c' T' l hcp
    refine (hi.camp_old hcp).imp id ?_
    rintro ⟨B, hB, hall⟩
    refine ⟨B, hB, fun v' hv => ⟨fun hm => ?_, (hall v' hv).2⟩⟩
    rcases hm with hm | hm
    · cases hm
      rcases (hall v hv).2 with hlt | ⟨w, hw, hne, hel⟩
      · omega
      · exact hne (helect w hw hel).symm
    · exact (hall v' hv).1 hm
  · rintro v' c' T' l T1 i (hv | hv) hcp hT hch hac
    · cases hv
      exact hi.carry (hi.camp_term hcp).2 (hi.base.log_mem v) hch (hi.hold hch hac) (hup l hcp)
    · exact hi.vote_safe hv hcp hT hch hac

theorem campaign (hlt : h.term c < T) :
    BallotInv members τ (h.advance c T) (b.campaign c T (h.log c)) := by
  have ha := hi.advance hlt.le
  have hterm : (h.advance c T).term c = T := by simp [LogHistory.advance]
  -- nobody has voted for `c` in the new term, and `c` has not voted in it
  have hnovote : ∀ v, (v, c, T) ∉ b.vote := fun v hv => by have := (hi.vote_term hv).2; omega
  have hnovote' : ∀ c', (c, c', T) ∉ b.vote := fun c' hv => by have := (hi.vote_term hv).1; omega
  have hcamp : ∀ {c' T' l}, (b.campaign c T (h.log c)).camp c' T' = some l →
      (c' = c ∧ T' = T ∧ l = h.log c) ∨ b.camp c' T' = some l := by
    intro c' T' l hcp
    by_cases hc : c' = c
    · subst hc
      by_cases hT : T' = T
      · subst hT
        simp only [campaign, Function.update_self, Option.some.injEq] at hcp
        exact Or.inl ⟨rfl, rfl, hcp.symm⟩
      · exact Or.inr (by simpa [campaign, hT] using hcp)
    · exact Or.inr (by simpa [Ballots.campaign, hc] using hcp)
  have hnominated : BallotInv members τ (h.advance c T)
      { b with camp := (b.campaign c T (h.log c)).camp } := by
    refine { ha with camp_term := ?_, camp_old := ?_, vote_safe := ?_ }
    · intro c' T' l hcp
      rcases hcamp hcp with ⟨rfl, rfl, rfl⟩ | hcp
      · exact ⟨hterm.ge, hi.base.log_mem c'⟩
      · exact ha.camp_term hcp
    · intro c' T' l hcp
      rcases hcamp hcp with ⟨rfl, rfl, rfl⟩ | hcp
      · by_cases hold : ∀ e ∈ h.log c', τ e < T'
        · exact Or.inl hold
        · -- an entry of this term or a later one: the electors of its term will not vote for `c'`
          right
          push Not at hold
          obtain ⟨e, he, hge⟩ := hold
          obtain ⟨w, hw⟩ : ∃ w, h.won (τ e) = some w := by
            rcases hi.base.entry_won (hi.base.log_mem c') he with h0 | hs
            · omega
            · exact hs
          obtain ⟨hE, hvote⟩ := hi.electors hw
          refine ⟨b.electors (τ e), hE, fun v hv => ⟨hnovote v, ?_⟩⟩
          have htv : τ e ≤ h.term v := (hi.vote_term (hvote v hv)).1
          have hvc : v ≠ c' := fun e' => by subst e'; omega
          have htv' : (h.advance c' T').term v = h.term v := by simp [LogHistory.advance, hvc]
          rcases Nat.lt_or_ge T' (h.term v) with hlt' | hge'
          · exact Or.inl (by rw [htv']; exact hlt')
          · have hT' : τ e = T' := by omega
            rw [hT'] at hw hv
            refine Or.inr ⟨w, hw, fun e' => ?_, hv⟩
            have := hi.base.won_term hw
            subst e'
            omega
      · exact ha.camp_old hcp
    · intro v c' T' l T1 i hv hcp hT hc hac
      rcases hcamp hcp with ⟨rfl, rfl, rfl⟩ | hcp
      · exact absurd hv (hnovote v)
      · exact ha.vote_safe hv hcp hT hc hac
  -- the candidate votes for itself
  have hgrant := hnominated.grant (v := c) (c := c) le_rfl
  rw [hterm] at hgrant
  refine hgrant (fun _ c' hv => absurd hv (hnovote' c'))
    (fun w hw hv => absurd ((hi.electors hw).2 c hv) (hnovote' w)) fun l hl => ?_
  rcases hcamp hl with ⟨-, -, rfl⟩ | hcp
  · exact Or.inr ⟨rfl, le_rfl⟩
  · have := (hi.camp_term hcp).1
    omega

end

/-! ## Winning a term -/

theorem camp_lt (hi : BallotInv members τ h b) (hcamp : b.camp c T = some l)
    (hQ : Majority members Q) (hv : ∀ v ∈ Q, (v, c, T) ∈ b.vote) : ∀ e ∈ l, τ e < T := by
  rcases hi.camp_old hcamp with hlt | ⟨B, hB, hall⟩
  · exact hlt
  · obtain ⟨v, h1, h2⟩ := hQ.inter hB
    exact absurd (hv v h1) (hall v h2).1

theorem camp_key (hi : BallotInv members τ h b) (hcamp : b.camp c T = some l)
    (hQ : Majority members Q) (hv : ∀ v ∈ Q, (v, c, T) ∈ b.vote) {T1 : ℕ} (hT : T1 < T)
    (hc : Choosable members τ h b T1 i) : pre h T1 i <+: l := by
  obtain ⟨Q1, hQ1, hall⟩ := hc.2
  obtain ⟨v, h1, h2⟩ := hQ.inter hQ1
  have hterm : T ≤ h.term v := (hi.vote_term (hv v h1)).1
  rcases hall v h2 with hac | hle
  · exact hi.vote_safe (hv v h1) hcamp hT hc hac
  · omega

/-- The logs of `h'` extend those of `h`. What has become choosable belongs to the term of `c`, and
nobody but `c` has acknowledged it. -/
structure Growth (members : Finset N) (τ : E → ℕ) (h h' : LogHistory N E) (b : Ballots N E)
    (c : N) : Prop where
  term : h'.term = h.term
  won : ∀ {T w}, h.won T = some w → h'.won T = some w ∧ h.lead T <+: h'.lead T
  log : ∀ n, h.log n <+: h'.log n
  back : ∀ {T i}, Choosable members τ h' b T i →
    (Choosable members τ h b T i ∧ pre h' T i = pre h T i ∧
      ∀ {r}, Acked h' b r T i → Acked h b r T i) ∨
    (T = h.term c ∧ pre h' T i <+: h'.log c ∧ (∀ {w}, h.won T = some w → w = c) ∧
      ∀ {r}, Acked h' b r T i → r = c)

namespace Growth

variable (hg : Growth members τ h h' b c) (hi : BallotInv members τ h b)
include hg hi

/-- Before a won term only what was choosable is so still. -/
theorem before {T' : ℕ} {w : N} (hT : T < T') (hw : h.won T' = some w)
    (hc : Choosable members τ h' b T i) :
    Choosable members τ h b T i ∧ pre h' T i = pre h T i := by
  rcases hg.back hc with ⟨hold, hpre, -⟩ | ⟨rfl, -, -, hack⟩
  · exact ⟨hold, hpre⟩
  · obtain ⟨-, Q1, hQ1, hall⟩ := hc
    rw [hg.term] at hall
    obtain ⟨v, -, hterm, hac⟩ := hi.exists_acked hT hw hQ1 hall
    rw [hack hac] at hterm
    omega

theorem key {T' : ℕ} {w : N} (hT : T < T') (hw : h.won T' = some w)
    (hc : Choosable members τ h' b T i) : pre h' T i <+: h'.lead T' ∧ pre h' T i <+: h'.log w := by
  obtain ⟨hc, hpre⟩ := hg.before hi hT hw hc
  rw [hpre]
  exact ⟨(hi.key hT hw hc).trans (hg.won hw).2, (hi.hold_won hw hT hc).trans (hg.log w)⟩

theorem msg {T' : ℕ} (hl : (T', l) ∈ h.sent) (hT : T ≤ T') (hc : Choosable members τ h' b T i) :
    pre h' T i <+: l ∨ (T = T' ∧ l <+: h'.lead T') := by
  obtain ⟨s, hs⟩ := hi.base.sent_won hl
  have hold : Choosable members τ h b T i ∧ pre h' T i = pre h T i →
      pre h' T i <+: l ∨ (T = T' ∧ l <+: h'.lead T') := by
    rintro ⟨hc, hpre⟩
    rw [hpre]
    exact (hi.msg hl hT hc).imp id fun hp => ⟨hp.1, hp.2.trans (hg.won hs).2⟩
  rcases hT.lt_or_eq with hlt | rfl
  · exact hold (hg.before hi hlt hs hc)
  · rcases hg.back hc with ⟨hc, hpre, -⟩ | ⟨rfl, -, hwon, -⟩
    · exact hold ⟨hc, hpre⟩
    · exact Or.inr ⟨rfl, (hi.base.sent_fresh hl hs (by rw [hwon hs])).trans (hg.won hs).2⟩

omit [DecidableEq N]

theorem hold (hc : Choosable members τ h' b T i) (ha : Acked h' b r T i) :
    pre h' T i <+: h'.log r := by
  rcases hg.back hc with ⟨hc, hpre, hack⟩ | ⟨-, hp, -, hack⟩
  · rw [hpre]; exact (hi.hold hc (hack ha)).trans (hg.log r)
  · rw [hack ha]; exact hp

theorem vote_safe {v c' : N} {T' : ℕ} (hv : (v, c', T') ∈ b.vote) (hcp : b.camp c' T' = some l)
    (hT : T < T') (hc : Choosable members τ h' b T i) (ha : Acked h' b v T i) :
    pre h' T i <+: l := by
  rcases hg.back hc with ⟨hc, hpre, hack⟩ | ⟨rfl, -, -, hack⟩
  · rw [hpre]; exact hi.vote_safe hv hcp hT hc (hack ha)
  · have := (hi.vote_term hv).1
    rw [hack ha] at this
    omega

omit hi in
theorem chosen (hch : Chosen members τ h b T i) : Chosen members τ h' b T i := by
  obtain ⟨w, hw⟩ := hch.1.1
  exact hch.mono (fun _ hc => (hg.won hc).1) (hg.won hw).2 (fun _ => id)

theorem com {n : N} (hn : (n, k) ∈ b.com) : ∃ T i, T ≤ h'.term n ∧ Chosen members τ h' b T i ∧
    k ≤ i ∧ (h'.lead T).take (k + 1) <+: h'.log n := by
  obtain ⟨T, i, h1, h2, h3, h4⟩ := hi.com hn
  obtain ⟨w, hw⟩ := h2.1.1
  have hlt := h2.1.lt
  refine ⟨T, i, by rw [hg.term]; exact h1, hg.chosen h2, h3, ?_⟩
  rw [take_eq_take (hg.won hw).2 (by omega)]
  exact h4.trans (hg.log n)

theorem hint (hk : (T, k) ∈ b.hint) : ∃ T₀ i, T₀ ≤ T ∧ Chosen members τ h' b T₀ i ∧ k ≤ i := by
  obtain ⟨T0, i, h1, h2, h3⟩ := hi.hint hk
  exact ⟨T0, i, h1, hg.chosen h2, h3⟩

theorem ack_lead {j : ℕ} (hm : (r, T, j) ∈ b.ack) :
    T ≤ h'.term r ∧ (∃ s, h'.won T = some s) ∧ j < (h'.lead T).length := by
  obtain ⟨h1, ⟨s, hs⟩, h3⟩ := hi.ack_lead hm
  exact ⟨by rw [hg.term]; exact h1, ⟨s, (hg.won hs).1⟩, h3.trans_le (hg.won hs).2.length_le⟩

end Growth

variable (hi : BallotInv members τ h b)
include hi

theorem win (hcamp : b.camp c (h.term c) = some (h.log c)) (hQ : Majority members Q)
    (hv : ∀ v ∈ Q, (v, c, h.term c) ∈ b.vote) (hpos : 0 < h.term c)
    (hnone : h.won (h.term c) = none) : BallotInv members τ (h.win c) (b.elect (h.term c) Q) := by
  have hltc := hi.camp_lt hcamp hQ hv
  have hel : ∀ {T}, T ≠ h.term c → (b.elect (h.term c) Q).electors T = b.electors T := by
    intro T hT; simp [elect, hT]
  have helc : (b.elect (h.term c) Q).electors (h.term c) = Q := by simp [elect]
  have hne : ∀ {T w}, h.won T = some w → T ≠ h.term c := by
    intro T w hw e; rw [e, hnone] at hw; cases hw
  have hpre : ∀ {T i}, T ≠ h.term c → pre (h.win c) T i = pre h T i := by
    intro T i hT; simp only [pre, lead_win_of_ne hT]
  have hg : Growth members τ h (h.win c) b c := by
    refine ⟨rfl, fun hw => ?_, fun _ => prefix_rfl, fun {T i} hc => ?_⟩
    · rw [won_win_of_ne (hne hw), lead_win_of_ne (hne hw)]
      exact ⟨hw, prefix_rfl⟩
    · by_cases hT : T = h.term c
      · -- in the new term only the winner has acknowledged anything
        subst hT
        refine Or.inr ⟨rfl, ?_, fun hw => absurd rfl (hne hw), ?_⟩
        · have : pre (h.win c) (h.term c) i <+: (h.win c).lead (h.term c) := pre_prefix_lead _ _
          rwa [lead_win_self] at this
        · rintro r (⟨j, -, hm⟩ | ⟨hw, -⟩)
          · obtain ⟨s, hs⟩ := (hi.ack_lead hm).2.1
            exact absurd rfl (hne hs)
          · exact Option.some.inj (hw.symm.trans won_win_self)
      · have hack : ∀ {r}, Acked (h.win c) b r T i → Acked h b r T i :=
          Or.imp id fun h => ⟨won_win_of_ne hT ▸ h.1, lead_win_of_ne hT ▸ h.2⟩
        refine Or.inl ⟨hc.back (fun ho => ?_) fun r => Or.imp hack id, hpre hT, hack⟩
        simpa only [Own, won_win_of_ne hT, lead_win_of_ne hT] using ho
  have hnew : ∀ {T i}, T < h.term c → Choosable members τ (h.win c) b T i →
      pre (h.win c) T i <+: h.log c := by
    intro T i hT hc
    obtain ⟨hc, -⟩ := (hg.back hc).resolve_right fun hr => hT.ne hr.1
    rw [hpre hT.ne]
    exact hi.camp_key hcamp hQ hv hT hc
  refine
    { base := hi.base.win hpos hnone
      sorted := hi.sorted
      lead_le := ?_
      vote_term := hi.vote_term
      electors := ?_
      electors_unique := ?_
      vote_unique := ?_
      camp_term := hi.camp_term
      camp_old := ?_
      ack_lead := hg.ack_lead hi
      key := ?_
      hold := hg.hold hi
      hold_won := ?_
      msg := hg.msg hi
      vote_safe := hg.vote_safe hi
      com := hg.com hi
      hint := hg.hint hi }
  · intro T w hw e he
    rcases won_win_cases hw with ⟨rfl, rfl⟩ | ⟨hT, hw⟩
    · rw [lead_win_self] at he; exact (hltc e he).le
    · rw [lead_win_of_ne hT] at he; exact hi.lead_le hw he
  · intro T w hw
    rcases won_win_cases hw with ⟨rfl, rfl⟩ | ⟨hT, hw⟩
    · rw [helc]; exact ⟨hQ, hv⟩
    · rw [hel hT]; exact hi.electors hw
  · intro T w v c' hw hvm hvote
    rcases won_win_cases hw with ⟨rfl, rfl⟩ | ⟨hT, hw⟩
    · rw [helc] at hvm; exact hi.vote_unique hnone hvote (hv v hvm)
    · rw [hel hT] at hvm; exact hi.electors_unique hw hvm hvote
  · intro T v c1 c2 hn h1 h2
    have hT : T ≠ h.term c := fun e => by rw [e, won_win_self] at hn; cases hn
    rw [won_win_of_ne hT] at hn
    exact hi.vote_unique hn h1 h2
  · intro c' T l hcp
    refine (hi.camp_old hcp).imp id ?_
    rintro ⟨B, hB, hall⟩
    refine ⟨B, hB, fun v hv' => ⟨(hall v hv').1, (hall v hv').2.imp id ?_⟩⟩
    rintro ⟨w, hw, hwc, hve⟩
    have hT := hne hw
    exact ⟨w, by rw [won_win_of_ne hT]; exact hw, hwc, by rw [hel hT]; exact hve⟩
  · intro T T' i w hTT hw hc
    rcases won_win_cases hw with ⟨rfl, rfl⟩ | ⟨-, hw⟩
    · rw [lead_win_self]; exact hnew hTT hc
    · exact (hg.key hi hTT hw hc).1
  · intro T T' i r hw hTT hc
    rcases won_win_cases hw with ⟨rfl, rfl⟩ | ⟨-, hw⟩
    · exact hnew hTT hc
    · exact (hg.key hi hTT hw hc).2

/-! ## Logs -/

theorem propose {e : E} (hw : h.won (h.term c) = some c) (he : τ e = h.term c) :
    BallotInv members τ (h.propose c e) b := by
  have hlog : h.log c = h.lead (h.term c) := hi.base.won_log hw rfl
  obtain ⟨hleadc, hlead, hgrow⟩ := hi.base.lead_propose e hw
  have hg : Growth members τ h (h.propose c e) b c := by
    refine ⟨rfl, fun hw => ⟨hw, hgrow _⟩, fun n => ?_, fun {T i} hc => ?_⟩
    · by_cases hn : n = c
      · subst hn; simp [LogHistory.propose]
      · simp [LogHistory.propose, hn]
    · by_cases hlt : i < (h.lead T).length
      · have hack : ∀ {r}, Acked (h.propose c e) b r T i → Acked h b r T i :=
          Or.imp id fun hwin => ⟨hwin.1, hlt⟩
        refine Or.inl ⟨hc.back (fun ho => ?_) fun r => Or.imp hack id,
          take_eq_take (hgrow _) hlt, hack⟩
        obtain ⟨hex, x, hx, hτ⟩ := ho
        refine ⟨hex, x, ?_, hτ⟩
        rw [getElem?_eq_getElem hlt]
        have := getElem?_mono (hgrow T) (getElem?_eq_getElem hlt)
        rw [hx] at this
        exact this.symm
      · -- the new entry is acknowledged by nobody but the winner
        obtain rfl : T = h.term c := by
          by_contra hT
          have := hc.1.lt
          rw [hlead hT] at this
          exact hlt this
        refine Or.inr ⟨rfl, ?_, fun hw' => Option.some.inj (hw'.symm.trans hw), ?_⟩
        · have : pre (h.propose c e) (h.term c) i <+: (h.propose c e).lead (h.term c) :=
            pre_prefix_lead _ _
          rw [hleadc] at this
          simpa [LogHistory.propose] using this
        · rintro r (⟨j, hj, hm⟩ | ⟨hw', -⟩)
          · have := (hi.ack_lead hm).2.2; omega
          · exact Option.some.inj (hw'.symm.trans hw)
  refine
    { base := hi.base.propose hw he
      sorted := ?_
      lead_le := ?_
      vote_term := hi.vote_term
      electors := hi.electors
      electors_unique := hi.electors_unique
      vote_unique := hi.vote_unique
      camp_term := fun hcp => ⟨(hi.camp_term hcp).1, Or.inr (hi.camp_term hcp).2⟩
      camp_old := hi.camp_old
      ack_lead := hg.ack_lead hi
      key := fun hT hw' hc => (hg.key hi hT hw' hc).1
      hold := hg.hold hi
      hold_won := fun hw' hT hc => (hg.key hi hT hw' hc).2
      msg := hg.msg hi
      vote_safe := hg.vote_safe hi
      com := hg.com hi
      hint := hg.hint hi }
  · rintro l (rfl | hl)
    · refine pairwise_append.2 ⟨hi.sorted (hi.base.log_mem c), pairwise_singleton _ _, ?_⟩
      intro x hx y hy
      rw [mem_singleton.1 hy, he]
      exact hi.lead_le hw (hlog ▸ hx)
    · exact hi.sorted hl
  · intro T w hw' x hx
    by_cases hT : T = h.term c
    · subst hT
      rw [hleadc] at hx
      rcases mem_append.1 hx with hx | hx
      · exact hi.lead_le hw (hlog ▸ hx)
      · rw [mem_singleton.1 hx, he]
    · rw [hlead hT] at hx; exact hi.lead_le hw' hx

omit [DecidableEq N] in
theorem send {s : N} (hw : h.won T = some s) : BallotInv members τ (h.send s T) b := by
  refine { hi with base := hi.base.send hw, msg := ?_ }
  rintro T1 T' i l (hl | hl) hTT hc
  · cases hl
    left
    rcases hTT.lt_or_eq with hlt | rfl
    · exact hi.hold_won hw hlt hc
    · exact hi.hold hc (Or.inr ⟨hw, hc.1.lt⟩)
  · exact hi.msg hl hTT hc

omit [DecidableEq N] hi in
theorem accept_keeps [DecidableEq E] {l1 p : List E} (hp : p <+: l1)
    (hl : p <+: l ∨ ∃ q, l <+: q ∧ p <+: q) : p <+: if l <+: l1 then l1 else l := by
  split_ifs with hif
  · exact hp
  · rcases hl with hl | ⟨q, hlq, hpq⟩
    · exact hl
    · rcases Nat.le_total p.length l.length with hle | hle
      · exact prefix_of_prefix_length_le hpq hlq hle
      · exact absurd ((prefix_of_prefix_length_le hlq hpq hle).trans hp) hif

omit [DecidableEq N] in
theorem chosen_sent (hl : (h.term r, l) ∈ h.sent) (hT : T ≤ h.term r)
    (hc : Chosen members τ h b T i) (hk : k ≤ i) :
    (h.lead T).take (k + 1) <+: l ∨ ∃ q, l <+: q ∧ (h.lead T).take (k + 1) <+: q := by
  have hpre : (h.lead T).take (k + 1) <+: pre h T i := take_prefix_take_left (by omega)
  refine (hi.msg hl hT hc.choosable).imp hpre.trans ?_
  rintro ⟨rfl, hpl⟩
  exact ⟨_, hpl, take_prefix _ _⟩

theorem accept [DecidableEq E] (hl : (h.term r, l) ∈ h.sent) (hr : h.won (h.term r) ≠ some r) :
    BallotInv members τ (h.accept r l) b := by
  have hlogr : (h.accept r l).log r = if l <+: h.log r then h.log r else l := by
    simp [LogHistory.accept]
  have hlog : ∀ {n}, n ≠ r → (h.accept r l).log n = h.log n := by
    intro n hn; simp [LogHistory.accept, hn]
  have hkeep : ∀ {T i}, T ≤ h.term r → Choosable members τ h b T i → pre h T i <+: h.log r →
      pre h T i <+: (h.accept r l).log r := by
    intro T i hT hc hp
    rw [hlogr]
    refine accept_keeps hp ((hi.msg hl hT hc).imp id ?_)
    rintro ⟨rfl, hpl⟩
    exact ⟨_, hpl, pre_prefix_lead _ _⟩
  refine
    { hi with
      base := hi.base.accept (hi.base.sent_mem hl) hr
      hold := ?_
      hold_won := ?_
      com := ?_ }
  · intro T i n hc ha
    by_cases hn : n = r
    · subst hn; exact hkeep (hi.acked_term ha) hc (hi.hold hc ha)
    · rw [hlog hn]; exact hi.hold hc ha
  · intro T T' i n hw hTT hc
    by_cases hn : n = r
    · subst hn
      have := hi.base.won_term hw
      exact hkeep (by omega) hc (hi.hold_won hw hTT hc)
    · rw [hlog hn]; exact hi.hold_won hw hTT hc
  · intro n k hn
    obtain ⟨T, i, h1, h2, h3, h4⟩ := hi.com hn
    refine ⟨T, i, h1, h2, h3, ?_⟩
    by_cases hnr : n = r
    · subst hnr
      rw [hlogr]
      exact accept_keeps h4 (hi.chosen_sent hl h1 h2 h3)
    · rw [hlog hnr]; exact h4

omit [DecidableEq N] in
theorem acknowledge {j : ℕ} (hw : ∃ s, h.won (h.term r) = some s)
    (hj : j < (h.lead (h.term r)).length) (hp : pre h (h.term r) j <+: h.log r) :
    BallotInv members τ h (b.acknowledge r (h.term r) j) := by
  have hack : ∀ {r' T i}, Acked h (b.acknowledge r (h.term r) j) r' T i →
      Acked h b r' T i ∨ (r' = r ∧ T = h.term r ∧ i ≤ j) := by
    rintro r' T i (⟨k, hk, hm | hm⟩ | hwin)
    · cases hm; exact Or.inr ⟨rfl, rfl, hk⟩
    · exact Or.inl (Or.inl ⟨k, hk, hm⟩)
    · exact Or.inl (Or.inr hwin)
  have hback : ∀ {T i}, Choosable members τ h (b.acknowledge r (h.term r) j) T i →
      Choosable members τ h b T i := by
    intro T i hc
    refine hc.back id fun r' hr' => ?_
    rcases hr' with ha | hle
    · rcases hack ha with ha | ⟨rfl, rfl, -⟩
      · exact Or.inl ha
      · exact Or.inr le_rfl
    · exact Or.inr hle
  have hchosen : ∀ {T i}, Chosen members τ h b T i →
      Chosen members τ h (b.acknowledge r (h.term r) j) T i :=
    fun hch => hch.mono (fun _ => id) (prefix_refl _) (fun _ => Or.inr)
  refine
    { hi with
      ack_lead := ?_
      key := fun hT hw' hc => hi.key hT hw' (hback hc)
      hold := ?_
      hold_won := fun hw' hT hc => hi.hold_won hw' hT (hback hc)
      msg := fun hl hT hc => hi.msg hl hT (hback hc)
      vote_safe := ?_
      com := ?_
      hint := ?_ }
  · rintro r' T k (hm | hm)
    · cases hm; exact ⟨le_rfl, hw, hj⟩
    · exact hi.ack_lead hm
  · intro T i r' hc ha
    rcases hack ha with ha | ⟨rfl, rfl, hij⟩
    · exact hi.hold (hback hc) ha
    · exact (pre_mono hij).trans hp
  · intro v c T' l T i hv hcp hT hc ha
    rcases hack ha with ha | ⟨rfl, rfl, -⟩
    · exact hi.vote_safe hv hcp hT (hback hc) ha
    · have := (hi.vote_term hv).1; omega
  · intro n k hn
    obtain ⟨T, i, h1, h2, h3⟩ := hi.com hn
    exact ⟨T, i, h1, hchosen h2, h3⟩
  · intro T a ha
    obtain ⟨T0, i, h1, h2, h3⟩ := hi.hint ha
    exact ⟨T0, i, h1, hchosen h2, h3⟩

/-! ## Knowing what is chosen -/

omit [DecidableEq N]

theorem learn {n : N}
    (hk : ∃ T i, T ≤ h.term n ∧ Chosen members τ h b T i ∧ k ≤ i ∧ (h.lead T).take (k + 1) <+: h.log
      n) : BallotInv members τ h (b.learn n k) := by
  refine { hi with com := ?_ }
  rintro m j (hm | hm)
  · cases hm; exact hk
  · exact hi.com hm

theorem tell {c : ℕ} (hk : ∃ T0 i, T0 ≤ T ∧ Chosen members τ h b T0 i ∧ c ≤ i) :
    BallotInv members τ h (b.tell T c) := by
  refine { hi with hint := ?_ }
  rintro T' c' (hm | hm)
  · cases hm; exact hk
  · exact hi.hint hm

/-- A node that took over a log sent in the name of its term learns what that term says to be
chosen. -/
theorem follow_hint {c : ℕ} (hl : (h.term r, l) ∈ h.sent)
    (hh : (h.term r, c) ∈ b.hint) (hkc : k ≤ c) (hkl : k < l.length) (hp : l <+: h.log r) :
    ∃ T i, T ≤ h.term r ∧ Chosen members τ h b T i ∧ k ≤ i ∧ (h.lead T).take (k + 1) <+: h.log r := by
  obtain ⟨T0, i, h1, h2, h3⟩ := hi.hint hh
  refine ⟨T0, i, h1, h2, by omega, ?_⟩
  rcases hi.msg hl h1 h2.choosable with hpl | ⟨rfl, hpl⟩
  · have hk : (h.lead T0).take (k + 1) <+: pre h T0 i := take_prefix_take_left (by omega)
    exact hk.trans (hpl.trans hp)
  · rw [take_eq_take hpl (by omega)]
    exact ( take_prefix _ _).trans hp

/-- A majority of acknowledgements of an entry of its own term tells the winner that it is chosen.
-/
theorem commit {e : E} (hw : h.won (h.term c) = some c)
    (he : (h.log c)[i]? = some e) (hτ : τ e = h.term c) (hQ : Majority members Q)
    (hall : ∀ r ∈ Q, r = c ∨ ∃ j, i ≤ j ∧ (r, h.term c, j) ∈ b.ack) :
    ∃ T j, T ≤ h.term c ∧ Chosen members τ h b T j ∧ i ≤ j ∧ (h.lead T).take (i + 1) <+: h.log c := by
  have hlog : h.log c = h.lead (h.term c) := hi.base.won_log hw rfl
  rw [hlog] at he
  refine ⟨h.term c, i, le_rfl, ⟨⟨⟨c, hw⟩, e, he, hτ⟩, Q, hQ, fun r hr => ?_⟩, le_rfl, ?_⟩
  · rcases hall r hr with rfl | hj
    · exact Or.inr ⟨hw, (List.getElem?_eq_some_iff.1 he).1⟩
    · exact Or.inl hj
  · rw [hlog]; exact take_prefix _ _

end BallotInv

end Solocoder.Lib
