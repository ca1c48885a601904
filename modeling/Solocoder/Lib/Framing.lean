/-!
# Records in a stream

A reader finds a record, symbols that start no record, or a reason to stop. Records written one
after the other are found again, and skipped symbols do not hide the records behind them.
-/

namespace Solocoder.Lib

open List

/-- What a reader finds at the front of a stream: a record of `n` symbols, `n` symbols to skip, or
that it cannot go on. -/
inductive Turn (α ω ε : Type) where
  | item (a : α) (n : Nat)
  | skip (w : ω) (n : Nat)
  | stop (e : ε)
  deriving DecidableEq

variable {α β ω ε : Type} (next : List β → Turn α ω ε)

/-- At most `fuel` turns of the reader. -/
def turnsUpTo : Nat → List β → List (Turn α ω ε)
  | 0, _ => []
  | fuel + 1, bs =>
    match next bs with
    | .item a n => .item a n :: turnsUpTo fuel (bs.drop n)
    | .skip w n => .skip w n :: turnsUpTo fuel (bs.drop n)
    | .stop e => [.stop e]

/-- The turns of the reader on a stream, up to the one that stops. -/
def turns (bs : List β) : List (Turn α ω ε) := turnsUpTo next (bs.length + 1) bs

/-- No turn goes on without moving forward, and none goes beyond the end of the stream. -/
structure Progress : Prop where
  item {bs a n} : next bs = .item a n → 0 < n ∧ n ≤ bs.length
  skip {bs w n} : next bs = .skip w n → 0 < n ∧ n ≤ bs.length

variable {next} {bs : List β}

theorem mem_turnsUpTo {fuel : Nat} {t : Turn α ω ε} (h : t ∈ turnsUpTo next fuel bs) :
    ∃ bs', next bs' = t := by
  induction fuel generalizing bs with
  | zero => cases h
  | succ fuel ih =>
    rw [turnsUpTo] at h
    split at h
    · next heq =>
      rcases mem_cons.1 h with rfl | h
      · exact ⟨bs, heq⟩
      · exact ih h
    · next heq =>
      rcases mem_cons.1 h with rfl | h
      · exact ⟨bs, heq⟩
      · exact ih h
    · next heq => exact ⟨bs, heq.trans (mem_singleton.1 h).symm⟩

variable (hp : Progress next)
include hp

theorem turnsUpTo_eq_of_lt {k l : Nat} (hk : bs.length < k)
    (hl : bs.length < l) : turnsUpTo next k bs = turnsUpTo next l bs := by
  induction k generalizing l bs with
  | zero => omega
  | succ k ih =>
    obtain ⟨l, rfl⟩ : ∃ l', l = l' + 1 := ⟨l - 1, by omega⟩
    rw [turnsUpTo, turnsUpTo]
    split
    · next a n h =>
      have := hp.item h
      rw [ih (l := l) (by simp; omega) (by simp; omega)]
    · next w n h =>
      have := hp.skip h
      rw [ih (l := l) (by simp; omega) (by simp; omega)]
    · rfl

theorem turns_of_item {a : α} {n : Nat}
    (h : next bs = .item a n) : turns next bs = .item a n :: turns next (bs.drop n) := by
  have := hp.item h
  rw [turns, turnsUpTo, h]
  show _ :: _ = _ :: _
  rw [turns, turnsUpTo_eq_of_lt hp (l := (bs.drop n).length + 1) (by simp; omega) (by omega)]

theorem turns_of_skip {w : ω} {n : Nat}
    (h : next bs = .skip w n) : turns next bs = .skip w n :: turns next (bs.drop n) := by
  have := hp.skip h
  rw [turns, turnsUpTo, h]
  show _ :: _ = _ :: _
  rw [turns, turnsUpTo_eq_of_lt hp (l := (bs.drop n).length + 1) (by simp; omega) (by omega)]

omit hp in
theorem turns_of_stop {e : ε} (h : next bs = .stop e) : turns next bs = [.stop e] := by
  rw [turns, turnsUpTo, h]

theorem turns_flatMap {enc : α → List β} {as : List α} {rest : List β}
    (h : ∀ a ∈ as, ∀ tail, next (enc a ++ tail) = .item a (enc a).length) :
    turns next (as.flatMap enc ++ rest) =
      (as.map fun a => .item a (enc a).length) ++ turns next rest := by
  induction as with
  | nil => rfl
  | cons a as ih =>
    rw [flatMap_cons, append_assoc, turns_of_item hp (h a (mem_cons_self ..) _), drop_left,
      ih fun x hx => h x (mem_cons_of_mem a hx)]
    rfl

theorem turns_skipped {p q : List β} (h : ∀ i < p.length, ∃ w, next ((p ++ q).drop i) = .skip w 1) :
    ∃ ws : List ω, turns next (p ++ q) = (ws.map fun w => .skip w 1) ++ turns next q := by
  induction p with
  | nil => exact ⟨[], rfl⟩
  | cons b p ih =>
    obtain ⟨w, hw⟩ := h 0 (by simp)
    obtain ⟨ws, hws⟩ := ih fun i hi => h (i + 1) (by simpa using hi)
    refine ⟨w :: ws, ?_⟩
    rw [drop_zero] at hw
    rw [turns_of_skip hp hw]
    show _ :: turns next (p ++ q) = _
    rw [hws]
    rfl

theorem turns_stopped {p q : List β} {e : ε} {j : Nat} (hj : j ≤ p.length)
    (h : ∀ i < j, ∃ w, next ((p ++ q).drop i) = .skip w 1)
    (hstop : next ((p ++ q).drop j) = .stop e) :
    ∃ ws : List ω, turns next (p ++ q) = (ws.map fun w => .skip w 1) ++ [.stop e] := by
  have hcut : p ++ q = p.take j ++ (p ++ q).drop j := by
    rw [drop_append_of_le_length hj, ← append_assoc, take_append_drop]
  have hlen : (p.take j).length = j := length_take_of_le hj
  obtain ⟨ws, hws⟩ := turns_skipped hp (p := p.take j) (q := (p ++ q).drop j) fun i hi => by
    rw [← hcut]
    exact h i (by omega)
  refine ⟨ws, ?_⟩
  rw [hcut, hws, turns_of_stop hstop]

end Solocoder.Lib
