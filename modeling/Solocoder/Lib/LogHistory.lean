import Mathlib.Tactic

/-!
# Histories of replicated logs

A history records every log that was ever held, who won each term, how far the log of the winner
grew while it led, and which logs were sent out in the name of a term.

If every term has one winner, and only the winner creates entries of its term, at the end of its
log, then two logs with an entry of the same term at the same position agree up to it.
-/

namespace Solocoder.Lib

open List Function

variable {N E : Type}

theorem getElem?_concat_cases {l : List E} {e x : E} {k : ℕ} (h : (l ++ [e])[k]? = some x) :
    l[k]? = some x ∨ k = l.length ∧ x = e := by
  rcases Nat.lt_trichotomy k l.length with hlt | rfl | hgt
  · rw [getElem?_append_left hlt] at h
    exact .inl h
  · rw [getElem?_concat_length, Option.some.injEq] at h
    exact .inr ⟨rfl, h.symm⟩
  · rw [getElem?_eq_none (by simpa using hgt)] at h
    cases h

theorem getElem?_mono {l l' : List E} (hp : l <+: l') {k : ℕ} {e : E} (hk : l[k]? = some e) :
    l'[k]? = some e := by
  obtain ⟨r, rfl⟩ := hp
  rw [getElem?_append_left (List.getElem?_eq_some_iff.1 hk).1, hk]

/-- What the nodes hold, and what happened so far. -/
structure LogHistory (N E : Type) where
  term : N → ℕ
  log : N → List E
  /-- Every log a node ever held. -/
  logs : Set (List E)
  /-- The winner of a term. -/
  won : ℕ → Option N
  /-- The log of the winner of a term, as far as it grew while it led. -/
  lead : ℕ → List E
  /-- The logs sent out in the name of a term. -/
  sent : Set (ℕ × List E)

/-- What holds of every history: `τ` is the term of an entry. -/
structure LogInv (τ : E → ℕ) (h : LogHistory N E) : Prop where
  log_mem : ∀ n, h.log n ∈ h.logs
  sent_mem : ∀ {T l}, (T, l) ∈ h.sent → l ∈ h.logs
  sent_won : ∀ {T l}, (T, l) ∈ h.sent → ∃ s, h.won T = some s
  /-- Up to an entry of a term, a log is the log of the winner of that term. -/
  matching : ∀ {l}, l ∈ h.logs → ∀ {i e}, l[i]? = some e → l.take (i + 1) <+: h.lead (τ e)
  entry_won : ∀ {l}, l ∈ h.logs → ∀ {e}, e ∈ l → τ e = 0 ∨ ∃ s, h.won (τ e) = some s
  won_pos : ∀ {T c}, h.won T = some c → 0 < T
  won_term : ∀ {T c}, h.won T = some c → T ≤ h.term c
  won_log : ∀ {T c}, h.won T = some c → h.term c = T → h.log c = h.lead T
  lead_mem : ∀ {T c}, h.won T = some c → h.lead T ∈ h.logs
  /-- What was sent in the name of a term whose winner has not left it. -/
  sent_fresh : ∀ {T l s}, (T, l) ∈ h.sent → h.won T = some s → h.term s = T → l <+: h.lead T

namespace LogHistory

/-- Every node holds `l₀`, whose entries have term `0`. -/
def init (l₀ : List E) : LogHistory N E where
  term := fun _ => 0
  log := fun _ => l₀
  logs := {l₀}
  won := fun _ => none
  lead := fun _ => l₀
  sent := ∅

variable [DecidableEq N] (h : LogHistory N E)

/-- A node moves to a later term. -/
def advance (n : N) (T : ℕ) : LogHistory N E :=
  { h with term := update h.term n T }

/-- A node wins its term. -/
def win (c : N) : LogHistory N E :=
  { h with
    won := update h.won (h.term c) (some c)
    lead := update h.lead (h.term c) (h.log c) }

/-- The winner of a term creates an entry. -/
def propose (c : N) (e : E) : LogHistory N E :=
  { h with
    log := update h.log c (h.log c ++ [e])
    logs := insert (h.log c ++ [e]) h.logs
    lead := update h.lead (h.term c) (h.log c ++ [e]) }

/-- The current log of `s` is sent out in the name of `T`. -/
def send (s : N) (T : ℕ) : LogHistory N E :=
  { h with sent := insert (T, h.log s) h.sent }

/-- A node takes over a log, unless its own log extends it. -/
def accept [DecidableEq E] (r : N) (l : List E) : LogHistory N E :=
  { h with log := update h.log r (if l <+: h.log r then h.log r else l) }

section Win

variable {h} {c : N} {T : ℕ}

omit [DecidableEq N]

theorem won_win_self : (h.win c).won (h.term c) = some c := update_self ..

theorem won_win_of_ne (hT : T ≠ h.term c) : (h.win c).won T = h.won T := update_of_ne hT ..

theorem lead_win_self : (h.win c).lead (h.term c) = h.log c := update_self ..

theorem lead_win_of_ne (hT : T ≠ h.term c) : (h.win c).lead T = h.lead T := update_of_ne hT ..

theorem won_win_cases {s : N} (hw : (h.win c).won T = some s) :
    (T = h.term c ∧ s = c) ∨ (T ≠ h.term c ∧ h.won T = some s) := by
  by_cases hT : T = h.term c
  · subst hT
    exact Or.inl ⟨rfl, Option.some.inj (hw.symm.trans won_win_self)⟩
  · exact Or.inr ⟨hT, won_win_of_ne hT ▸ hw⟩

end Win

end LogHistory

namespace LogInv

variable {τ : E → ℕ} {h : LogHistory N E}

open LogHistory

protected theorem init {l₀ : List E} (h0 : ∀ e ∈ l₀, τ e = 0) :
    LogInv τ (LogHistory.init l₀ : LogHistory N E) where
  log_mem := fun _ => rfl
  sent_mem := fun hl => hl.elim
  sent_won := fun hl => hl.elim
  matching := fun {l} hl i e _ => by
    obtain rfl : l = l₀ := hl
    exact take_prefix _ _
  entry_won := fun {l} hl e he => by
    obtain rfl : l = l₀ := hl
    exact Or.inl (h0 e he)
  won_pos := nofun
  won_term := nofun
  won_log := nofun
  lead_mem := nofun
  sent_fresh := fun hl => hl.elim

theorem log_matching (hi : LogInv τ h) {l1 l2 : List E} (h1 : l1 ∈ h.logs) (h2 : l2 ∈ h.logs)
    {i : ℕ} {e1 e2 : E} (g1 : l1[i]? = some e1) (g2 : l2[i]? = some e2) (hτ : τ e1 = τ e2) :
    l1.take (i + 1) = l2.take (i + 1) := by
  have p1 := hi.matching h1 g1
  have p2 := hi.matching h2 g2
  rw [hτ] at p1
  have len1 : i < l1.length := (List.getElem?_eq_some_iff.1 g1).1
  have len2 : i < l2.length := (List.getElem?_eq_some_iff.1 g2).1
  refine (prefix_of_prefix_length_le p1 p2 ?_).eq_of_length ?_
  · simp only [length_take]; omega
  · simp only [length_take]; omega

variable [DecidableEq N] (hi : LogInv τ h)
include hi

protected theorem advance {n : N} {T : ℕ} (hle : h.term n ≤ T) :
    LogInv τ (h.advance n T) := by
  -- a winner whose term is still its own did not move
  have hkeep : ∀ {T' c}, h.won T' = some c → (h.advance n T).term c = T' → h.term c = T' := by
    intro T' c hw ht
    by_cases hc : c = n
    · subst hc
      simp only [advance, update_self] at ht
      have := hi.won_term hw
      omega
    · simpa [advance, hc] using ht
  refine { hi with won_term := ?_, won_log := ?_, sent_fresh := ?_ }
  · intro T' c hw
    have := hi.won_term hw
    by_cases hc : c = n
    · subst hc; simp only [advance, update_self]; omega
    · simpa [advance, hc] using this
  · intro T' c hw ht; exact hi.won_log hw (hkeep hw ht)
  · intro T' l s hl hw ht; exact hi.sent_fresh hl hw (hkeep hw ht)

omit [DecidableEq N] in
protected theorem win {c : N} (hpos : 0 < h.term c) (hnone : h.won (h.term c) = none) :
    LogInv τ (h.win c) := by
  have hex : ∀ {T}, (∃ s, h.won T = some s) → ∃ s, (h.win c).won T = some s := by
    rintro T ⟨s, hs⟩
    have hT : T ≠ h.term c := fun e => by rw [e, hnone] at hs; cases hs
    exact ⟨s, (won_win_of_ne hT).trans hs⟩
  refine
    { log_mem := hi.log_mem
      sent_mem := hi.sent_mem
      sent_won := fun hl => hex (hi.sent_won hl)
      matching := ?_
      entry_won := fun hl e he => (hi.entry_won hl he).imp id hex
      won_pos := ?_
      won_term := ?_
      won_log := ?_
      lead_mem := ?_
      sent_fresh := ?_ }
  · intro l hl i e he
    -- no entry of the new term exists yet
    have hT : τ e ≠ h.term c := by
      intro e'
      rcases hi.entry_won hl (mem_of_getElem? he) with h0 | ⟨s, hs⟩
      · omega
      · rw [e', hnone] at hs; cases hs
    rw [lead_win_of_ne hT]
    exact hi.matching hl he
  · intro T s hw
    rcases won_win_cases hw with ⟨rfl, -⟩ | ⟨-, hw⟩
    · exact hpos
    · exact hi.won_pos hw
  · intro T s hw
    rcases won_win_cases hw with ⟨rfl, rfl⟩ | ⟨-, hw⟩
    · exact le_rfl
    · exact hi.won_term hw
  · intro T s hw ht
    rcases won_win_cases hw with ⟨rfl, rfl⟩ | ⟨hT, hw⟩
    · exact (lead_win_self (h := h)).symm
    · rw [lead_win_of_ne hT]; exact hi.won_log hw ht
  · intro T s hw
    rcases won_win_cases hw with ⟨rfl, rfl⟩ | ⟨hT, hw⟩
    · rw [lead_win_self]; exact hi.log_mem s
    · rw [lead_win_of_ne hT]; exact hi.lead_mem hw
  · intro T l s hl hw ht
    rcases won_win_cases hw with ⟨rfl, rfl⟩ | ⟨hT, hw⟩
    · obtain ⟨s', hs'⟩ := hi.sent_won hl
      rw [hnone] at hs'; cases hs'
    · rw [lead_win_of_ne hT]; exact hi.sent_fresh hl hw ht

theorem lead_propose {c : N} (e : E) (hw : h.won (h.term c) = some c) :
    (h.propose c e).lead (h.term c) = h.log c ++ [e] ∧
      (∀ {T}, T ≠ h.term c → (h.propose c e).lead T = h.lead T) ∧
      ∀ T, h.lead T <+: (h.propose c e).lead T := by
  refine ⟨by simp [propose], fun hT => by simp [propose, hT], fun T => ?_⟩
  by_cases hT : T = h.term c
  · subst hT
    simp [propose, hi.won_log hw rfl]
  · simp [propose, hT]

protected theorem propose {c : N} {e : E} (hw : h.won (h.term c) = some c)
    (he : τ e = h.term c) : LogInv τ (h.propose c e) := by
  obtain ⟨hleadc, hlead, hgrow⟩ := hi.lead_propose e hw
  refine
    { log_mem := ?_
      sent_mem := fun hl => Or.inr (hi.sent_mem hl)
      sent_won := hi.sent_won
      matching := ?_
      entry_won := ?_
      won_pos := hi.won_pos
      won_term := hi.won_term
      won_log := ?_
      lead_mem := ?_
      sent_fresh := fun hl hw' ht => (hi.sent_fresh hl hw' ht).trans (hgrow _) }
  · intro n
    by_cases hn : n = c
    · subst hn; left; simp [propose]
    · right; simpa [propose, hn] using hi.log_mem n
  · rintro l (rfl | hl) i x hx
    · rcases getElem?_concat_cases hx with hx | ⟨rfl, rfl⟩
      · rw [take_append_of_le_length (List.getElem?_eq_some_iff.1 hx).1]
        exact (hi.matching (hi.log_mem c) hx).trans (hgrow _)
      · -- the new entry itself
        rw [he, hleadc]
        exact take_prefix _ _
    · exact (hi.matching hl hx).trans (hgrow _)
  · rintro l (rfl | hl) x hx
    · rcases mem_append.1 hx with hx | hx
      · exact hi.entry_won (hi.log_mem c) hx
      · right
        rw [mem_singleton.1 hx, he]
        exact ⟨c, hw⟩
    · exact hi.entry_won hl hx
  · intro T s hs ht
    by_cases hc : s = c
    · subst hc
      obtain rfl : h.term s = T := ht
      rw [hleadc]
      simp [propose]
    · have hT : T ≠ h.term c := by
        intro e'
        subst e'
        exact hc (Option.some.inj (hs.symm.trans hw))
      rw [hlead hT]
      simpa [propose, hc] using hi.won_log hs ht
  · intro T s hs
    by_cases hT : T = h.term c
    · subst hT; rw [hleadc]; exact Or.inl rfl
    · rw [hlead hT]; exact Or.inr (hi.lead_mem hs)

omit [DecidableEq N] in
protected theorem send {s : N} {T : ℕ} (hw : h.won T = some s) :
    LogInv τ (h.send s T) := by
  refine { hi with sent_mem := ?_, sent_won := ?_, sent_fresh := ?_ }
  · rintro T' l (hl | hl)
    · cases hl; exact hi.log_mem s
    · exact hi.sent_mem hl
  · rintro T' l (hl | hl)
    · cases hl; exact ⟨s, hw⟩
    · exact hi.sent_won hl
  · rintro T' l s' (hl | hl) hw' ht
    · cases hl
      obtain rfl : s = s' := Option.some.inj (hw.symm.trans hw')
      show h.log s <+: h.lead T
      rw [hi.won_log hw ht]
    · exact hi.sent_fresh hl hw' ht

protected theorem accept [DecidableEq E] {r : N} {l : List E} (hl : l ∈ h.logs)
    (hr : h.won (h.term r) ≠ some r) : LogInv τ (h.accept r l) := by
  refine { hi with log_mem := ?_, won_log := ?_ }
  · intro n
    by_cases hn : n = r
    · subst hn
      simp only [accept, update_self]
      split_ifs
      · exact hi.log_mem n
      · exact hl
    · simpa [accept, hn] using hi.log_mem n
  · intro T c hw ht
    by_cases hc : c = r
    · subst hc
      obtain rfl : h.term c = T := ht
      exact absurd hw hr
    · simpa [accept, hc] using hi.won_log hw ht

end LogInv

end Solocoder.Lib
