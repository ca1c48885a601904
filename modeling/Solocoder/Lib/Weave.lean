import Mathlib.Algebra.Order.Ring.Int
import Mathlib.Data.Prod.Lex
import Solocoder.Lib.Separators

/-!
# Lists with separators between them

`weave` puts a list of lists in one line, with a separator between each two, as the keys of a level
of a search tree lie between those of the level above. An entry with the key of a separator stands
behind it.
-/

namespace Solocoder.Lib

open List

variable {α β : Type}

/-- Each list behind its separator. -/
def rights : List α → List (List α) → List α
  | s :: ss, k :: ks => s :: (k ++ rights ss ks)
  | _, _ => []

/-- Each list before its separator. -/
def lefts : List (List α) → List α → List α
  | k :: ks, s :: ss => k ++ s :: lefts ks ss
  | _, _ => []

/-- The lists in one line, with the separators between them. -/
def weave : List (List α) → List α → List α
  | [], _ => []
  | k :: ks, ss => k ++ rights ss ks

@[simp] theorem rights_nil (K : List (List α)) : rights [] K = [] := by
  cases K <;> rfl

@[simp] theorem rights_cons (s : α) (S : List α) (k : List α) (K : List (List α)) :
    rights (s :: S) (k :: K) = s :: (k ++ rights S K) := rfl

@[simp] theorem lefts_nil (S : List α) : lefts [] S = [] := rfl

@[simp] theorem lefts_cons (k : List α) (K : List (List α)) (s : α) (S : List α) :
    lefts (k :: K) (s :: S) = k ++ s :: lefts K S := rfl

@[simp] theorem weave_cons (k : List α) (K : List (List α)) (S : List α) :
    weave (k :: K) S = k ++ rights S K := rfl

/-- Two lists of the same length are built up in step. -/
@[elab_as_elim]
theorem inStep {ι κ : Type} {motive : (K : List ι) → (S : List κ) → S.length = K.length → Prop}
    (nil : motive [] [] rfl) (cons : ∀ k K s S (h : S.length = K.length), motive K S h →
      motive (k :: K) (s :: S) (congrArg Nat.succ h)) : ∀ K S h, motive K S h
  | [], [], _ => nil
  | k :: K, s :: S, h => cons k K s S (Nat.succ.inj h) (inStep nil cons K S _)

theorem weave_split {KA : List (List α)} {SA : List α} (hA : SA.length = KA.length) (k : List α)
    (KB : List (List α)) (SB : List α) :
    weave (KA ++ k :: KB) (SA ++ SB) = lefts KA SA ++ (k ++ rights SB KB) := by
  induction KA, SA, hA using inStep with
  | nil => rfl
  | cons x KA s SA h ih =>
    have hstep : rights (s :: (SA ++ SB)) (KA ++ k :: KB) =
        s :: weave (KA ++ k :: KB) (SA ++ SB) := by
      cases KA <;> rfl
    simp [hstep, ih]

theorem rights_append {SA : List α} {KA : List (List α)} (hA : SA.length = KA.length)
    (SB : List α) (KB : List (List α)) :
    rights (SA ++ SB) (KA ++ KB) = rights SA KA ++ rights SB KB := by
  induction KA, SA, hA using inStep with
  | nil => simp
  | cons x KA s SA h ih => simp [ih]

variable {S : List α} {K : List (List α)}

/-- Lines in a line: the lists of every node `p` stand between its separators `g p`, and the nodes
between the separators `S`. -/
theorem rights_flatMap {ι : Type} {f : ι → List (List α)} {g : ι → List α} {L : List ι}
    (hS : S.length = L.length) (h : ∀ p ∈ L, (f p).length = (g p).length + 1) :
    rights (rights S (L.map g)) (L.flatMap f) = rights S (L.map fun p => weave (f p) (g p)) := by
  induction L, S, hS using inStep with
  | nil => rfl
  | cons p L s S hS ih =>
    have hp := h p (mem_cons_self ..)
    obtain ⟨c, C, hc⟩ := exists_cons_of_length_pos (by simp [hp] : 0 < (f p).length)
    rw [hc, length_cons, Nat.add_right_cancel_iff] at hp
    have ih := ih fun q hq => h q (mem_cons_of_mem p hq)
    simp [hc, rights_append hp.symm, ih]

theorem weave_flatMap {ι : Type} {f : ι → List (List α)} {g : ι → List α} {L : List ι}
    (hS : L.length = S.length + 1) (h : ∀ p ∈ L, (f p).length = (g p).length + 1) :
    weave (L.flatMap f) (weave (L.map g) S) = weave (L.map fun p => weave (f p) (g p)) S := by
  obtain ⟨p, L, rfl⟩ := exists_cons_of_length_pos (by simp [hS] : 0 < L.length)
  have hp := h p (mem_cons_self ..)
  obtain ⟨c, C, hc⟩ := exists_cons_of_length_pos (by simp [hp] : 0 < (f p).length)
  rw [hc, length_cons, Nat.add_right_cancel_iff] at hp
  have hrest := rights_flatMap (S := S) (by simpa using hS.symm)
    fun q hq => h q (mem_cons_of_mem p hq)
  simp [hc, rights_append hp.symm, hrest]

theorem map_rights (f : α → β) (S : List α) (K : List (List α)) :
    (rights S K).map f = rights (S.map f) (K.map (map f)) := by
  induction K generalizing S with
  | nil => cases S <;> rfl
  | cons k K ih => cases S <;> simp [ih]

theorem map_weave (f : α → β) (K : List (List α)) (S : List α) :
    (weave K S).map f = weave (K.map (map f)) (S.map f) := by
  cases K with
  | nil => rfl
  | cons k K => simp [map_rights]

section

variable (h : S.length = K.length)
include h

theorem sublist_lefts : S.Sublist (lefts K S) := by
  induction K, S, h using inStep with
  | nil => exact Sublist.refl _
  | cons k K s S h ih => exact (ih.cons_cons s).trans (sublist_append_right _ _)

theorem sublist_rights : S.Sublist (rights S K) := by
  induction K, S, h using inStep with
  | nil => exact Sublist.refl _
  | cons k K s S h ih => exact (ih.trans (sublist_append_right k _)).cons_cons s

theorem flatten_sublist_rights : K.flatten.Sublist (rights S K) := by
  induction K, S, h using inStep with
  | nil => simp
  | cons k K s S h ih => exact ((Sublist.refl k).append ih).trans (sublist_cons_self s _)

theorem flatten_sublist_lefts : K.flatten.Sublist (lefts K S) := by
  induction K, S, h using inStep with
  | nil => simp
  | cons k K s S h ih => exact (Sublist.refl k).append (ih.trans (sublist_cons_self s _))

theorem length_lefts : (lefts K S).length = (K.map fun k => k.length + 1).sum := by
  induction K, S, h using inStep with
  | nil => rfl
  | cons k K s S h ih =>
    simp only [lefts_cons, length_append, length_cons, map_cons, sum_cons]
    omega

theorem length_rights : (rights S K).length = (K.map fun k => k.length + 1).sum := by
  induction K, S, h using inStep with
  | nil => rfl
  | cons k K s S h ih =>
    simp only [rights_cons, length_append, length_cons, map_cons, sum_cons]
    omega

end

theorem sublist_weave (h : K.length = S.length + 1) : S.Sublist (weave K S) := by
  cases K with
  | nil => simp at h
  | cons k K =>
    exact (sublist_rights (by simpa using h.symm)).trans (sublist_append_right _ _)

theorem flatten_sublist_weave (h : K.length = S.length + 1) : K.flatten.Sublist (weave K S) := by
  cases K with
  | nil => simp
  | cons k K => exact (Sublist.refl k).append (flatten_sublist_rights (by simpa using h.symm))

/-- Every element of a list is related to the separators on its right, and those on its left to
it. -/
theorem rel_of_pairwise_weave {R : α → α → Prop} {k : List α} {i j : Nat} {s x : α}
    (hp : (weave K S).Pairwise R) (hlen : K.length = S.length + 1) (hk : K[j]? = some k)
    (hs : S[i]? = some s) (hx : x ∈ k) : (j ≤ i → R x s) ∧ (i < j → R s x) := by
  obtain ⟨hj, hk⟩ := List.getElem?_eq_some_iff.1 hk
  have hK : K = K.take j ++ k :: K.drop (j + 1) := by
    rw [← hk]
    simp
  have hA : (S.take j).length = (K.take j).length := by
    rw [length_take, length_take]
    omega
  have hB : (S.drop j).length = (K.drop (j + 1)).length := by
    rw [length_drop, length_drop]
    omega
  rw [hK, ← take_append_drop j S, weave_split hA] at hp
  obtain ⟨-, hr, hl⟩ := pairwise_append.1 hp
  constructor
  · intro hij
    have hmem : s ∈ S.drop j := by
      refine mem_of_getElem? (i := i - j) ?_
      rw [getElem?_drop, Nat.add_sub_cancel' hij]
      exact hs
    exact (pairwise_append.1 hr).2.2 x hx s ((sublist_rights hB).subset hmem)
  · intro hij
    have hmem : s ∈ S.take j := by
      refine mem_of_getElem? (i := i) ?_
      rw [getElem?_take_of_lt hij]
      exact hs
    exact hl s ((sublist_lefts hA).subset hmem) x (mem_append_left _ hx)

theorem length_weave (h : K.length = S.length + 1) :
    (weave K S).length + 1 = (K.map fun k => k.length + 1).sum := by
  cases K with
  | nil => simp at h
  | cons k K =>
    have hr : (rights S K).length = (K.map fun k => k.length + 1).sum :=
      length_rights (by simpa using h.symm)
    simp only [weave_cons, length_append, map_cons, sum_cons]
    omega

theorem flatMap_split {f : α → List β} {L : List α} {A : List β} {x : β} {B : List β}
    (h : L.flatMap f = A ++ x :: B) :
    ∃ A' r B' a b, L = A' ++ r :: B' ∧ f r = a ++ x :: b ∧ A = A'.flatMap f ++ a ∧
      B = b ++ B'.flatMap f := by
  induction L generalizing A with
  | nil => simp at h
  | cons r L ih =>
    rw [flatMap_cons] at h
    rcases append_eq_append_iff.1 h with ⟨c, hA, hL⟩ | ⟨c, hr, hB⟩
    · obtain ⟨A', r', B', a, b, rfl, h2, h3, h4⟩ := ih hL
      exact ⟨r :: A', r', B', a, b, rfl, h2, by rw [hA, h3]; simp, h4⟩
    · cases c with
      | nil =>
        rw [append_nil] at hr
        rw [nil_append] at hB
        obtain ⟨A', r', B', a, b, rfl, h2, h3, h4⟩ := ih (A := []) hB.symm
        exact ⟨r :: A', r', B', a, b, rfl, h2, by rw [flatMap_cons, append_assoc, ← h3, hr]; simp, h4⟩
      | cons y c =>
        obtain ⟨rfl, rfl⟩ := cons.inj hB
        exact ⟨[], r, L, A, c, rfl, hr, by simp, rfl⟩

section Sorted

variable [LinearOrder α] {P : α → Prop}

/-- In a sorted line, what stands before a separator shares every property that goes downwards. -/
theorem lefts_forall (hP : ∀ x y, x < y → P y → P x) {K : List (List α)} {S : List α}
    (hs : (lefts K S).Pairwise (· < ·)) (h : ∀ s ∈ S, P s) : ∀ x ∈ lefts K S, P x := by
  induction K generalizing S with
  | nil => simp
  | cons k K ih =>
    cases S with
    | nil => simp [lefts]
    | cons s S =>
      rw [lefts_cons] at hs ⊢
      obtain ⟨-, hs2, hs3⟩ := pairwise_append.1 hs
      obtain ⟨hs, hS⟩ := forall_mem_cons.1 h
      refine forall_mem_append.2 ⟨fun x hx => hP x s (hs3 x hx s mem_cons_self) hs, ?_⟩
      exact forall_mem_cons.2 ⟨hs, ih (pairwise_cons.1 hs2).2 hS⟩

theorem rights_forall (hP : ∀ x y, x < y → P x → P y) {S : List α} {K : List (List α)}
    (hs : (rights S K).Pairwise (· < ·)) (h : ∀ s ∈ S, P s) : ∀ x ∈ rights S K, P x := by
  induction K generalizing S with
  | nil => cases S <;> simp [rights]
  | cons k K ih =>
    cases S with
    | nil => simp [rights]
    | cons s S =>
      rw [rights_cons] at hs ⊢
      obtain ⟨hs1, hs2⟩ := pairwise_cons.1 hs
      obtain ⟨hs, hS⟩ := forall_mem_cons.1 h
      refine forall_mem_cons.2 ⟨hs, forall_mem_append.2 ⟨fun x hx => ?_, ?_⟩⟩
      · exact hP s x (hs1 x (mem_append_left _ hx)) hs
      · exact ih (pairwise_append.1 hs2).2.1 hS

theorem pairwise_insert {X Y : List α} {a : α} (h : (X ++ Y).Pairwise (· < ·))
    (hX : ∀ x ∈ X, x < a) (hY : ∀ y ∈ Y, a < y) : (X ++ a :: Y).Pairwise (· < ·) := by
  obtain ⟨h1, h2, h3⟩ := pairwise_append.1 h
  refine pairwise_append.2 ⟨h1, pairwise_cons.2 ⟨hY, h2⟩, fun x hx => ?_⟩
  exact forall_mem_cons.2 ⟨hX x hx, h3 x hx⟩

end Sorted

section Order

variable {K : Type} [LinearOrder K]

/-- An entry with key `k`. -/
def mark (k : K) : K ×ₗ Bool := toLex (k, true)

/-- A separator `k`. -/
def sep (k : K) : K ×ₗ Bool := toLex (k, false)

variable {x y : K}

@[simp] theorem mark_lt_mark : mark x < mark y ↔ x < y := by
  simp [mark, Prod.Lex.toLex_lt_toLex]

@[simp] theorem mark_lt_sep : mark x < sep y ↔ x < y := by
  simp [mark, sep, Prod.Lex.toLex_lt_toLex]

@[simp] theorem sep_lt_mark : sep x < mark y ↔ x ≤ y := by
  simp [mark, sep, Prod.Lex.toLex_lt_toLex, le_iff_lt_or_eq]

@[simp] theorem sep_lt_sep : sep x < sep y ↔ x < y := by
  simp [sep, Prod.Lex.toLex_lt_toLex]

theorem pairwise_map_mark {l : List K} : (l.map mark).Pairwise (· < ·) ↔ l.Pairwise (· < ·) := by
  simp [pairwise_map]

theorem pairwise_map_sep {l : List K} : (l.map sep).Pairwise (· < ·) ↔ l.Pairwise (· < ·) := by
  simp [pairwise_map]

theorem pairwise_separate {X Y : List (K ×ₗ Bool)} {kl kr : List K} {mk : K} (hne : kl ≠ [])
    (hs : (X ++ ((kl ++ mk :: kr).map mark ++ Y)).Pairwise (· < ·)) :
    (X ++ (kl.map mark ++ sep mk :: ((mk :: kr).map mark ++ Y))).Pairwise (· < ·) := by
  have hs' : ((X ++ kl.map mark) ++ ((mk :: kr).map mark ++ Y)).Pairwise (· < ·) := by
    simpa only [map_append, append_assoc] using hs
  obtain ⟨h1, h2, h3⟩ := pairwise_append.1 hs'
  -- the last entry before it is smaller than it, and larger than everything else before it
  obtain ⟨k', z, rfl⟩ : ∃ k' z, kl = k' ++ [z] := by
    rcases eq_nil_or_concat kl with h | ⟨k', z, h⟩
    · exact absurd h hne
    · exact ⟨k', z, by simpa using h⟩
  have hz : mark z < sep mk := by
    have := h3 (mark z) (by simp) (mark mk) (by simp)
    exact mark_lt_sep.2 (mark_lt_mark.1 this)
  rw [← append_assoc]
  refine pairwise_insert hs' ?_ ?_
  · rw [map_append, ← append_assoc] at h1 ⊢
    refine forall_mem_append.2 ⟨fun x hx => ?_, forall_mem_singleton.2 hz⟩
    exact ((pairwise_append.1 h1).2.2 x hx (mark z) (by simp)).trans hz
  · have hmk : sep mk < mark mk := sep_lt_mark.2 le_rfl
    exact forall_mem_cons.2 ⟨hmk, fun y hy => hmk.trans ((pairwise_cons.1 h2).1 y hy)⟩

end Order

end Solocoder.Lib
