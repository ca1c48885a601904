import Solocoder.DiffPatch.Diff
import Solocoder.Lib.Frontier

/-!
# Proofs: the edit script of `myersDiff`

The array `v` holds the furthest-reaching points of the edit graph (`Holds`). The search ends in the
round of `frontier_corner`, and `backtrack` walks back along the earlier rounds.
-/

namespace Solocoder.DiffPatch

open Lib List Option

/-- The lines that the script starts from. -/
def oldSide (ses : List EditScript) : List Str := (ses.filter (·.op ≠ .insert)).map (·.line)

/-- The lines that the script arrives at. -/
def newSide (ses : List EditScript) : List Str := (ses.filter (·.op ≠ .delete)).map (·.line)

/-- The number of deletions and insertions. -/
def edits (ses : List EditScript) : Nat := ses.countP (·.op ≠ .equal)

def keeps (ses : List EditScript) : List Str := (ses.filter (·.op = .equal)).map (·.line)

section Sides

variable (line : Str) (ses ses' : List EditScript)

@[simp] theorem oldSide_nil : oldSide [] = [] := rfl

@[simp] theorem newSide_nil : newSide [] = [] := rfl

@[simp] theorem oldSide_equal : oldSide (⟨.equal, line⟩ :: ses) = line :: oldSide ses := rfl

@[simp] theorem newSide_equal : newSide (⟨.equal, line⟩ :: ses) = line :: newSide ses := rfl

@[simp] theorem oldSide_delete : oldSide (⟨.delete, line⟩ :: ses) = line :: oldSide ses := rfl

@[simp] theorem newSide_delete : newSide (⟨.delete, line⟩ :: ses) = newSide ses := rfl

@[simp] theorem oldSide_insert : oldSide (⟨.insert, line⟩ :: ses) = oldSide ses := rfl

@[simp] theorem newSide_insert : newSide (⟨.insert, line⟩ :: ses) = line :: newSide ses := rfl

@[simp] theorem oldSide_append : oldSide (ses ++ ses') = oldSide ses ++ oldSide ses' := by
  simp [oldSide]

@[simp] theorem newSide_append : newSide (ses ++ ses') = newSide ses ++ newSide ses' := by
  simp [newSide]

theorem sides_inserts (b : List Str) : oldSide (b.map fun line => ⟨.insert, line⟩) = [] ∧
      newSide (b.map fun line => ⟨.insert, line⟩) = b := by
  induction b with
  | nil => exact ⟨rfl, rfl⟩
  | cons line b ih => simp [ih]

theorem sides_deletes (a : List Str) : oldSide (a.map fun line => ⟨.delete, line⟩) = a ∧
      newSide (a.map fun line => ⟨.delete, line⟩) = [] := by
  induction a with
  | nil => exact ⟨rfl, rfl⟩
  | cons line a ih => simp [ih]

theorem keeps_sublist : keeps ses <+ oldSide ses ∧ keeps ses <+ newSide ses := by
  constructor
  · refine (monotone_filter_right ses fun s hs => ?_).map _
    simp_all
  · refine (monotone_filter_right ses fun s hs => ?_).map _
    simp_all

theorem edits_add_keeps :
    edits ses + 2 * (keeps ses).length = (oldSide ses).length + (newSide ses).length := by
  induction ses with
  | nil => rfl
  | cons s ses ih =>
    obtain ⟨op, line⟩ := s
    cases op <;> simp [edits, keeps] at ih ⊢ <;> omega

/-- A script that keeps a common sublist. -/
theorem exists_script {c a b : List Str} (ha : c <+ a) (hb : c <+ b) :
    ∃ ses, oldSide ses = a ∧ newSide ses = b ∧ edits ses + 2 * c.length = a.length + b.length := by
  have hins : ∀ s : List Str, edits (s.map fun line => ⟨.insert, line⟩) = s.length := by
    intro s
    simp [edits, countP_map, Function.comp_def]
  induction ha generalizing b with
  | slnil =>
    refine ⟨_, (sides_inserts b).1, (sides_inserts b).2, ?_⟩
    rw [hins]
    simp
  | cons line _ ih =>
    obtain ⟨ses, h1, h2, h3⟩ := ih hb
    refine ⟨⟨.delete, line⟩ :: ses, by simp [h1], by simp [h2], ?_⟩
    simp [edits] at h3 ⊢
    omega
  | cons_cons line _ ih =>
    obtain ⟨r1, r2, rfl, hmem, hc⟩ := cons_sublist_iff.1 hb
    obtain ⟨s, t, rfl⟩ := append_of_mem hmem
    obtain ⟨ses, h1, h2, h3⟩ := ih (hc.trans (sublist_append_right t r2))
    refine ⟨s.map (fun line => ⟨.insert, line⟩) ++ ⟨.equal, line⟩ :: ses,
      by simp [h1, (sides_inserts s).1], by simp [h2, (sides_inserts s).2], ?_⟩
    have he : edits (s.map (fun line => ⟨.insert, line⟩) ++ ⟨.equal, line⟩ :: ses) =
        s.length + edits ses := by
      rw [edits, countP_append, ← hins s]
      rfl
    simp only [he, length_append, length_cons] at h3 ⊢
    omega

end Sides

theorem index_natCast {α : Type} (l : List α) (i : Nat) : index l (i : Int) = l[i]? := by
  rw [index, if_pos (Int.natCast_nonneg i), Int.toNat_natCast]

theorem index_of_eq {α : Type} (l : List α) {i : Int} {j : Nat} (h : i = j) :
    index l i = l[j]? := by
  rw [h, index_natCast]

/-- The array `v` holds the values of `f` on the diagonals from `-offset` to `offset`. -/
structure Holds (v : List Int) (offset : Nat) (f : Int → Nat) : Prop where
  length : v.length = 2 * offset + 1
  read : ∀ k : Int, -offset ≤ k → k ≤ offset → index v (offset + k) = some (f k : Int)

variable {v : List Int}

theorem Holds.update {offset : Nat} {f : Int → Nat} (hv : Holds v offset f) {k : Int}
    (hl : -offset ≤ k) (hr : k ≤ offset) (x : Nat) :
    ∃ v', DiffPatch.update v (offset + k) x = some v' ∧
      Holds v' offset (fun k' => if k' = k then x else f k') := by
  have hlen := hv.length
  refine ⟨_, if_pos ⟨by omega, by omega⟩, ?_, ?_⟩
  · rw [length_set, hlen]
  · intro k' hl' hr'
    have hread := hv.read k' hl' hr'
    rw [index, if_pos (by omega)] at hread ⊢
    rw [getElem?_set]
    by_cases heq : k' = k
    · rw [if_pos (by omega), if_pos (by omega), if_pos heq]
    · rw [if_neg (by omega), hread, if_neg heq]

section Round

variable {a b : List Str} {v : List Int} {offset d : Nat} {k : Int}

theorem snake_eq (a b : List Str) {c x : Nat} (hc : a.length - x ≤ c) (hk : k ≤ x) :
    snake a b c x (x - k) = some ((slide a b k x : Int), (slide a b k x : Int) - k) := by
  induction c generalizing x with
  | zero =>
    have hself : slide a b k x = x := by
      refine slide_eq_self fun z hz => ?_
      have := (List.getElem?_eq_some_iff.1 hz).1
      omega
    rw [snake, hself]
  | succ c ih =>
    have hy : ((x : Int) - k) = ((x - k).toNat : Nat) := by omega
    rw [snake]
    split
    · next hin =>
      have hx := getElem?_eq_getElem (l := a) (i := x) (by omega)
      have hb := getElem?_eq_getElem (l := b) (i := (x - k).toNat) (by omega)
      rw [index_natCast, index_of_eq b hy, hx, hb]
      simp only [bind_eq_bind, bind_some]
      split
      · next heq =>
        have hcast : (x : Int) - k + 1 = ((x + 1 : Nat) : Int) - k := by omega
        rw [slide_succ hk hx (heq ▸ hb), hcast]
        exact ih (x := x + 1) (by omega) (by omega)
      · next hne =>
        have hself : slide a b k x = x := by
          refine slide_eq_self fun z hz => ?_
          rw [hx] at hz
          rw [hb]
          intro hz'
          exact hne (some_injective _ (hz.trans hz'.symm))
        rw [hself]
    · next hout =>
      have hself : slide a b k x = x := by
        refine slide_eq_self fun z hz hz' => hout ?_
        have := (List.getElem?_eq_some_iff.1 hz).1
        have := (List.getElem?_eq_some_iff.1 hz').1
        omega
      rw [hself]

theorem picksDown_eq {f : Int → Nat} (hv : Holds v offset f) (hd : d ≤ offset) (hl : -d ≤ k)
    (hr : k ≤ d) : picksDown v offset d k = some (decide (PicksDown f d k)) := by
  unfold picksDown
  split
  · next heq => simp [PicksDown, heq]
  · next hne =>
    split
    · next hne' =>
      have hleft := hv.read (k - 1) (by omega) (by omega)
      have hright := hv.read (k + 1) (by omega) (by omega)
      rw [Int.add_sub_assoc, hleft, Int.add_assoc, hright]
      simp [PicksDown, hne, hne']
    · next heq =>
      have : ¬ PicksDown f d k := by
        rintro (h | ⟨h, -⟩)
        · exact hne h
        · exact heq h
      rw [decide_eq_false this]

def midRound (a b : List Str) (d : Nat) (k k' : Int) : Nat :=
  if k' < k then frontier a b (d + 1) k' else frontier a b d k'

theorem midRound_start (hk : k ≤ -d) : midRound a b d k = frontier a b d := by
  funext k'
  rw [midRound]
  split
  · next hlt => exact frontier_of_not_active fun hact => by have := hact.1; omega
  · rfl

theorem midRound_end (hk : (d : Int) < k) : midRound a b d k = frontier a b (d + 1) := by
  funext k'
  rw [midRound]
  split
  · rfl
  · next hge => exact (frontier_of_not_active fun hact => by have := hact.2.1; omega).symm

theorem midRound_neighbour (h : Active d k) {k' : Int} (hk' : k' = k - 1 ∨ k' = k + 1) :
    midRound a b d k k' = frontier a b d k' := by
  have hnot : ¬ Active d k' := by
    intro hact
    have := h.2.2
    have := hact.2.2
    omega
  rw [midRound, frontier_of_not_active hnot, ite_self]

theorem arrive_midRound (h : Active d k) :
    arrive (midRound a b d k) d k = arrive (frontier a b d) d k := by
  have hl := midRound_neighbour (a := a) (b := b) h (.inl rfl)
  have hr := midRound_neighbour (a := a) (b := b) h (.inr rfl)
  have hiff : PicksDown (midRound a b d k) d k ↔ PicksDown (frontier a b d) d k := by
    rw [PicksDown, PicksDown, hl, hr]
  exact if_congr hiff hr (by rw [hl])

theorem midRound_succ (h : Active d k) :
    (fun k' => if k' = k then frontier a b (d + 1) k else midRound a b d k k') =
      midRound a b d (k + 2) := by
  funext k'
  simp only [midRound]
  by_cases heq : k' = k
  · rw [if_pos heq, if_pos (by omega), heq]
  · rw [if_neg heq]
    by_cases hlt : k' < k
    · rw [if_pos hlt, if_pos (by omega)]
    · rw [if_neg hlt]
      split
      · have hnot : ¬ Active d k' := fun hact => by
          have := h.2.2
          have := hact.2.2
          omega
        rw [frontier_of_not_active hnot]
      · rfl

theorem firstX_eq {f : Int → Nat} (hv : Holds v offset f) (hpos : 0 < offset) (hd : d ≤ offset)
    (h : Active d k) : firstX v offset d k = some (arrive f d k : Int) := by
  obtain ⟨h1, h2, -⟩ := h
  rw [firstX, picksDown_eq hv hd h1 h2, arrive]
  simp only [bind_eq_bind, bind_some, decide_eq_true_eq]
  split
  · next hp =>
    have hle : k + 1 ≤ offset := by
      rcases hp with hp | ⟨hp, -⟩ <;> omega
    rw [Int.add_assoc, hv.read (k + 1) (by omega) hle]
  · next hp =>
    have hne : k ≠ -d := fun heq => hp (.inl heq)
    rw [Int.add_sub_assoc, hv.read (k - 1) (by omega) (by omega)]
    rfl

def ArrivesAt (a b : List Str) (d : Nat) (k : Int) : Prop :=
  a.length ≤ frontier a b (d + 1) k ∧ (b.length : Int) ≤ frontier a b (d + 1) k - k

theorem scanDiagonals_spec (hpos : 0 < offset) (hd : d ≤ offset) {c : Nat} (hc : c ≤ d + 1)
    (hk : k = d + 2 - 2 * c) (hv : Holds v offset (midRound a b d k)) :
    ∃ v' found, scanDiagonals a b offset d c k v = some (v', found) ∧
      (found = true → Arrives a b d) ∧
      (found = false → Holds v' offset (frontier a b (d + 1)) ∧
        ∀ k', k ≤ k' → Active d k' → ¬ ArrivesAt a b d k') := by
  induction c generalizing k v with
  | zero =>
    rw [midRound_end (by omega)] at hv
    refine ⟨v, false, rfl, by simp, fun _ => ⟨hv, fun k' hle hact => ?_⟩⟩
    have := hact.2.1
    omega
  | succ c ih =>
    have hact : Active d k := ⟨by omega, by omega, by omega⟩
    have hx : k ≤ arrive (frontier a b d) d k := le_arrive a b hact
    obtain ⟨v', hupdate, hv'⟩ :=
      hv.update (k := k) (by omega) (by omega) (frontier a b (d + 1) k)
    rw [midRound_succ hact] at hv'
    rw [scanDiagonals, firstX_eq hv hpos hd hact, arrive_midRound hact]
    simp only [bind_eq_bind, bind_some]
    rw [snake_eq a b (by omega) hx, ← frontier_of_active hact, bind_some, hupdate, bind_some]
    by_cases harr : ArrivesAt a b d k
    · refine ⟨v', true, if_pos ⟨?_, harr.2⟩, fun _ => ⟨k, hact, harr⟩, by simp⟩
      have := harr.1
      omega
    · rw [if_neg fun hxy => harr ⟨by omega, hxy.2⟩]
      obtain ⟨v'', found, hscan, hfound, hnot⟩ := ih (by omega) (by omega) hv'
      refine ⟨v'', found, hscan, hfound, fun hf => ⟨(hnot hf).1, fun k' hle hact' => ?_⟩⟩
      rcases Int.lt_or_eq_of_le hle with hlt | rfl
      · have h2 := hact'.2.2
        exact (hnot hf).2 k' (by omega) hact'
      · exact harr

end Round

/-- The steps that were written so far, last one first, lead from `(x, y)` to the corner; `n` of them
are deletions or insertions. -/
structure Covers (a b : List Str) (x y n : Nat) (scripts : List EditScript) : Prop where
  old : oldSide scripts.reverse = a.drop x
  new : newSide scripts.reverse = b.drop y
  edits : edits scripts = n

section Back

variable {a b : List Str} {x y n : Nat} {scripts : List EditScript} {line : Str}

theorem drop_of_getElem? {l : List Str} {i : Nat} (h : l[i]? = some line) :
    l.drop i = line :: l.drop (i + 1) := by
  obtain ⟨hlt, rfl⟩ := List.getElem?_eq_some_iff.1 h
  exact drop_eq_getElem_cons hlt

theorem getElem?_of_drop {l ls : List Str} {i : Nat} (h : line :: ls = l.drop i) :
    l[i]? = some line ∧ ls = l.drop (i + 1) := by
  refine ⟨?_, by rw [← tail_drop, ← h]; rfl⟩
  rw [← Nat.add_zero i, ← getElem?_drop, ← h]
  rfl

theorem Covers.equal (h : Covers a b (x + 1) (y + 1) n scripts) (hx : a[x]? = some line)
    (hy : b[y]? = some line) : Covers a b x y n (scripts ++ [⟨.equal, line⟩]) := by
  constructor
  · simp [h.old, drop_of_getElem? hx]
  · simp [h.new, drop_of_getElem? hy]
  · simp [DiffPatch.edits, ← h.edits]

theorem Covers.delete (h : Covers a b (x + 1) y n scripts) (hx : a[x]? = some line) :
    Covers a b x y (n + 1) (scripts ++ [⟨.delete, line⟩]) := by
  constructor
  · simp [h.old, drop_of_getElem? hx]
  · simp [h.new]
  · simp [DiffPatch.edits, ← h.edits]

theorem Covers.insert (h : Covers a b x (y + 1) n scripts) (hy : b[y]? = some line) :
    Covers a b x y (n + 1) (scripts ++ [⟨.insert, line⟩]) := by
  constructor
  · simp [h.old]
  · simp [h.new, drop_of_getElem? hy]
  · simp [DiffPatch.edits, ← h.edits]

theorem keepBack_spec {s c : Nat} (prevX prevY : Int) (hs : s ≤ c)
    (hstop : (x : Int) = prevX ∨ (y : Int) = prevY) (hx : prevX ≤ x) (hy : prevY ≤ y)
    (heq : ∀ i < s, ∃ line, a[x + i]? = some line ∧ b[y + i]? = some line)
    (h : Covers a b (x + s) (y + s) n scripts) :
    ∃ scripts', keepBack a c (x + s : Nat) (y + s : Nat) prevX prevY scripts =
        some ((x : Int), (y : Int), scripts') ∧ Covers a b x y n scripts' := by
  induction s generalizing c scripts with
  | zero =>
    refine ⟨scripts, ?_, h⟩
    cases c with
    | zero => rfl
    | succ c =>
      rw [keepBack, if_neg]
      · rfl
      · omega
  | succ s ih =>
    obtain ⟨c, rfl⟩ : ∃ c', c = c' + 1 := ⟨c - 1, by omega⟩
    obtain ⟨line, ha, hb⟩ := heq s (by omega)
    have hxs : ((x + (s + 1) : Nat) : Int) - 1 = (x + s : Nat) := by omega
    have hys : ((y + (s + 1) : Nat) : Int) - 1 = (y + s : Nat) := by omega
    rw [keepBack, if_pos (by omega), hxs, hys, index_natCast, ha]
    exact ih (by omega) (fun i hi => heq i (by omega)) (h.equal ha hb)

end Back

/-- The rounds that the trace holds. -/
structure Traces (tr : List (List Int)) (a b : List Str) (offset : Nat) (d : Nat) : Prop where
  length : tr.length = d
  read : ∀ i < d, ∃ v, tr[i]? = some v ∧ Holds v offset (frontier a b i)

variable {a b : List Str}

theorem Traces.concat {tr : List (List Int)} {offset d : Nat}
    (h : Traces tr a b offset d) (hv : Holds v offset (frontier a b d)) :
    Traces (tr ++ [v]) a b offset (d + 1) := by
  constructor
  · simp [h.length]
  · intro i hi
    rcases Nat.lt_succ_iff_lt_or_eq.1 hi with hlt | rfl
    · rw [getElem?_append_left (by rw [h.length]; exact hlt)]
      exact h.read i hlt
    · refine ⟨v, ?_, hv⟩
      rw [← h.length, getElem?_concat_length]

section Backtrack

variable {tr : List (List Int)} {a b : List Str} {offset d : Nat} {scripts : List EditScript}

/-- One turn of the loop over the rounds goes back to the point of the round before. -/
theorem backSteps_succ {dd x y n : Nat} {k : Int}
    (htr : Traces tr a b offset d) (hd : d ≤ offset + 1) (hdd : dd + 1 < d)
    (hact : Active (dd + 1) k) (hx : x = frontier a b (dd + 1 + 1) k) (hy : (y : Int) = x - k)
    (hxa : x ≤ a.length) (hyb : y ≤ b.length) (h : Covers a b x y n scripts) :
    ∃ (k' : Int) (x' y' : Nat) (scripts' : List EditScript), Active dd k' ∧
      x' = frontier a b (dd + 1) k' ∧ (y' : Int) = x' - k' ∧ x' ≤ a.length ∧ y' ≤ b.length ∧
      Covers a b x' y' (n + 1) scripts' ∧
      backSteps tr a b offset (dd + 1) x y scripts = backSteps tr a b offset dd x' y' scripts' := by
  obtain ⟨v, hv, hholds⟩ := htr.read (dd + 1) hdd
  have hk : (x : Int) - y = k := by omega
  have h1 := hact.1
  have h2 := hact.2.1
  rw [frontier_of_active hact] at hx
  have hle := le_slide a b k (arrive (frontier a b (dd + 1)) (dd + 1) k)
  have hmatch := fun i : Nat =>
    exists_getElem?_slide (a := a) (b := b) (i := i) (le_arrive a b hact)
  rw [backSteps]
  simp only [index_natCast, hv, hk, picksDown_eq hholds (by omega) h1 h2, bind_eq_bind, bind_some]
  rcases arrive_cases a b hact with ⟨hp, hact', harr⟩ | ⟨hp, hact', harr⟩
  · -- the round came here by a step down, so the way back ends with an insertion
    have hy' := (le_frontier a b hact').1
    have hread := hholds.read (k + 1) (by omega) (by have := hact'.2.1; omega)
    rw [harr] at hle hmatch hx
    obtain ⟨x', hx'⟩ : ∃ x', frontier a b (dd + 1) (k + 1) = x' := ⟨_, rfl⟩
    obtain ⟨y', hy''⟩ : ∃ y' : Nat, (y' : Int) = x' - (k + 1) := ⟨(x' - (k + 1)).toNat, by omega⟩
    rw [hx'] at hle hmatch hx hread
    obtain ⟨s, hs⟩ := Nat.exists_eq_add_of_le hle
    obtain rfl : x = x' + s := by omega
    obtain rfl : y = y' + 1 + s := by omega
    have hsame : ∀ i < s, ∃ line, a[x' + i]? = some line ∧ b[y' + 1 + i]? = some line := by
      intro i hi
      have hidx : (((x' + i : Nat) : Int) - k).toNat = y' + 1 + i := by omega
      have := hmatch (x' + i) (by omega) (by omega)
      rwa [hidx] at this
    obtain ⟨scripts', hkeep, hcov⟩ := keepBack_spec (c := ((x' + s : Nat) - (x' : Int)).toNat)
      x' (x' - (k + 1)) (by omega) (.inl rfl) (by omega) (by omega) hsame h
    have hyget := getElem?_eq_getElem (l := b) (i := y') (by omega)
    have hyidx : ((y' + 1 : Nat) : Int) - 1 = y' := by omega
    refine ⟨k + 1, x', y', _, hact', hx'.symm, hy'', by omega, by omega, hcov.insert hyget, ?_⟩
    rw [decide_eq_true hp, if_pos rfl, hread, bind_some, hkeep, bind_some]
    simp only [gt_iff_lt]
    rw [if_neg (by omega), if_pos (by omega), hyidx, index_natCast, hyget, bind_some]
  · -- the round came here by a step to the right, so the way back ends with a deletion
    have hy' := (le_frontier a b hact').1
    have hread := hholds.read (k - 1) (by have := hact'.1; omega) (by omega)
    rw [harr] at hle hmatch hx
    obtain ⟨x', hx'⟩ : ∃ x', frontier a b (dd + 1) (k - 1) = x' := ⟨_, rfl⟩
    obtain ⟨y', hy''⟩ : ∃ y' : Nat, (y' : Int) = x' - (k - 1) := ⟨(x' - (k - 1)).toNat, by omega⟩
    rw [hx'] at hle hmatch hx hread
    obtain ⟨s, hs⟩ := Nat.exists_eq_add_of_le hle
    obtain rfl : x = x' + 1 + s := by omega
    obtain rfl : y = y' + s := by omega
    have hsame : ∀ i < s, ∃ line, a[x' + 1 + i]? = some line ∧ b[y' + i]? = some line := by
      intro i hi
      have hidx : (((x' + 1 + i : Nat) : Int) - k).toNat = y' + i := by omega
      have := hmatch (x' + 1 + i) (by omega) (by omega)
      rwa [hidx] at this
    obtain ⟨scripts', hkeep, hcov⟩ := keepBack_spec (c := ((x' + 1 + s : Nat) - (x' : Int)).toNat)
      x' (x' - (k - 1)) (by omega) (.inr hy'') (by omega) (by omega) hsame h
    have hxget := getElem?_eq_getElem (l := a) (i := x') (by omega)
    have hxidx : ((x' + 1 : Nat) : Int) - 1 = x' := by omega
    refine ⟨k - 1, x', y', _, hact', hx'.symm, hy'', by omega, by omega, hcov.delete hxget, ?_⟩
    rw [decide_eq_false hp, if_neg (by decide), hread, bind_some, hkeep, bind_some]
    rw [if_pos (by omega), hxidx, index_natCast, hxget, bind_some]

theorem backSteps_spec {dd x y n : Nat} {k : Int}
    (htr : Traces tr a b offset d) (hd : d ≤ offset + 1) (hdd : dd < d)
    (hact : Active dd k) (hx : x = frontier a b (dd + 1) k) (hy : (y : Int) = x - k)
    (hxa : x ≤ a.length) (hyb : y ≤ b.length) (h : Covers a b x y n scripts) :
    ∃ scripts', backSteps tr a b offset dd x y scripts =
        some ((common a b : Int), (common a b : Int), scripts') ∧
      Covers a b (common a b) (common a b) (n + dd) scripts' := by
  induction dd generalizing x y n k scripts with
  | zero =>
    have hk := active_zero hact
    subst hk
    rw [frontier_one] at hx
    obtain rfl : y = x := by omega
    subst hx
    exact ⟨scripts, rfl, h⟩
  | succ dd ih =>
    obtain ⟨k', x', y', scripts', hact', hx', hy', hxa', hyb', h', heq⟩ :=
      backSteps_succ htr hd hdd hact hx hy hxa hyb h
    rw [heq, Nat.add_comm dd, ← Nat.add_assoc]
    exact ih (by omega) hact' hx' hy' hxa' hyb' h'

theorem backtrack_spec (htr : Traces tr a b offset (d + 1)) (hd : d ≤ offset)
    (hfirst : ∀ d' < d, ¬ Arrives a b d') (harr : Arrives a b d) :
    ∃ ses, backtrack tr a b d offset = some ses ∧ oldSide ses = a ∧ newSide ses = b ∧
      edits ses = d := by
  obtain ⟨k, hact, hx, hy⟩ := harr
  obtain ⟨rfl, hcorner⟩ := frontier_corner hfirst hact hx hy
  have hstart : Covers a b a.length b.length 0 [] := by
    constructor
    · rw [drop_length]
      rfl
    · rw [drop_length]
      rfl
    · rfl
  obtain ⟨scripts, hsteps, hcov⟩ := backSteps_spec htr (by omega) (Nat.lt_succ_self d) hact
    hcorner.symm (by omega) le_rfl le_rfl hstart
  have hmatch : ∀ i < common a b, ∃ line, a[0 + i]? = some line ∧ b[0 + i]? = some line := by
    intro i hi
    have hlt := common_le_left a b
    have hget := getElem?_eq_getElem (l := a) (i := i) (by omega)
    rw [Nat.zero_add, ← getElem?_common hi, hget]
    exact ⟨_, rfl, rfl⟩
  obtain ⟨scripts', hkeep, hcov'⟩ := keepBack_spec (s := common a b) (c := common a b) 0 0 le_rfl
    (.inl rfl) le_rfl le_rfl hmatch (by simpa using hcov)
  refine ⟨scripts'.reverse, ?_, by simpa using hcov'.old, by simpa using hcov'.new,
    by simpa [edits] using hcov'.edits⟩
  rw [backtrack, hsteps]
  simp only [Nat.zero_add] at hkeep
  simp [hkeep]

end Backtrack

theorem searchRounds_spec {tr : List (List Int)} {c d : Nat}
    (hpos : 0 < a.length + b.length) (hc : c + d = a.length + b.length + 1)
    (htr : Traces tr a b (a.length + b.length) d)
    (hv : Holds v (a.length + b.length) (frontier a b d)) (hfirst : ∀ d' < d, ¬ Arrives a b d') :
    ∃ ses, searchRounds a b (a.length + b.length : Nat) c d v tr = some ses ∧
      oldSide ses = a ∧ newSide ses = b ∧ ∀ d' < edits ses, ¬ Arrives a b d' := by
  induction c generalizing d v tr with
  | zero => exact absurd (arrives_length_add a b) (hfirst _ (by omega))
  | succ c ih =>
    obtain ⟨v', found, hscan, harr, hnot⟩ := scanDiagonals_spec (a := a) (b := b) (v := v)
      (k := -d) hpos (by omega : d ≤ a.length + b.length) le_rfl (by omega)
      (by rw [midRound_start le_rfl]; exact hv)
    rw [searchRounds]
    simp only [hscan, bind_eq_bind, bind_some]
    cases found with
    | true =>
      obtain ⟨ses, hses, hold, hnew, hd⟩ := backtrack_spec (htr.concat hv) (by omega) hfirst (harr rfl)
      exact ⟨ses, hses, hold, hnew, hd ▸ hfirst⟩
    | false =>
      obtain ⟨hv', hnone⟩ := hnot rfl
      refine ih (by omega) (htr.concat hv) hv' fun d' hd' => ?_
      rcases Nat.lt_succ_iff_lt_or_eq.1 hd' with hlt | rfl
      · exact hfirst d' hlt
      · rintro ⟨k, hact, hk⟩
        exact hnone k hact.1 hact hk

theorem holds_start {offset : Nat} :
    Holds (replicate (2 * offset + 1) 0) offset (frontier a b 0) := by
  constructor
  · rw [length_replicate]
  · intro k hl hr
    rw [index, if_pos (by omega), getElem?_replicate, if_pos (by omega)]
    rfl

/-- No script comes to the corner with fewer steps than the search. -/
theorem arrives_of_script {a b : List Str} {ses : List EditScript} {d x y : Nat} {k : Int}
    (hact : Active d k) (hk : k = x - y) (hle : x ≤ frontier a b (d + 1) k)
    (hold : oldSide ses = a.drop x) (hnew : newSide ses = b.drop y) : Arrives a b (d + edits ses) := by
  induction ses generalizing d x y k with
  | nil =>
    have hx := drop_eq_nil_iff.1 hold.symm
    have hy := drop_eq_nil_iff.1 hnew.symm
    refine ⟨k, hact, hx.trans hle, ?_⟩
    show (b.length : Int) ≤ frontier a b (d + 1) k - k
    omega
  | cons s ses ih =>
    obtain ⟨op, line⟩ := s
    cases op with
    | equal =>
      obtain ⟨hx, hold⟩ := getElem?_of_drop hold
      obtain ⟨hy, hnew⟩ := getElem?_of_drop hnew
      have hstep := frontier_diagonal a b hact (by omega) hle hx (by rw [← hy]; congr 1; omega)
      have h := ih hact (y := y + 1) (by omega) hstep hold hnew
      simpa [edits] using h
    | delete =>
      obtain ⟨-, hold⟩ := getElem?_of_drop hold
      obtain ⟨hact', hstep⟩ := frontier_right a b hact (k + 1) rfl
      have h := ih hact' (y := y) (by omega) (hstep.trans' (Nat.succ_le_succ hle)) hold hnew
      simpa [edits, Nat.add_assoc, Nat.add_comm] using h
    | insert =>
      obtain ⟨-, hnew⟩ := getElem?_of_drop hnew
      obtain ⟨hact', hstep⟩ := frontier_down a b hact (k - 1) rfl
      have h := ih hact' (y := y + 1) (by omega) (hle.trans hstep) hold hnew
      simpa [edits, Nat.add_assoc, Nat.add_comm] using h

/-- The script of `myersDiff` turns `a` into `b`, and no other one does so with fewer edits. -/
theorem myersDiff_spec (a b : List Str) :
    ∃ ses, myersDiff a b = some ses ∧ oldSide ses = a ∧ newSide ses = b ∧
      ∀ ses', oldSide ses' = a → newSide ses' = b → edits ses ≤ edits ses' := by
  have hempty : ∀ {ses}, oldSide ses = a → newSide ses = b → (a = [] ∨ b = []) →
      ∀ ses', oldSide ses' = a → newSide ses' = b → edits ses ≤ edits ses' := by
    intro ses h1 h2 h ses' h1' h2'
    have hs := keeps_sublist ses'
    have hl := hs.1.length_le
    have hr := hs.2.length_le
    have he := edits_add_keeps ses
    have he' := edits_add_keeps ses'
    rw [h1', h2'] at he'
    rw [h1, h2] at he
    rw [h1'] at hl
    rw [h2'] at hr
    have hz := h.imp (congrArg length) (congrArg length)
    rw [length_nil] at hz
    omega
  unfold myersDiff
  split
  · next h => exact ⟨[], rfl, h.1.symm, h.2.symm, by simp [edits]⟩
  split
  · next h =>
    have hs := sides_inserts b
    exact ⟨_, rfl, h ▸ hs.1, hs.2, hempty (h ▸ hs.1) hs.2 (.inl h)⟩
  split
  · next h =>
    have hs := sides_deletes a
    exact ⟨_, rfl, hs.1, h ▸ hs.2, hempty hs.1 (h ▸ hs.2) (.inr h)⟩
  · next ha hb =>
    have hlen := length_pos_iff.2 ha
    have hset : update (replicate (2 * (a.length + b.length) + 1) (0 : Int))
        ((a.length + b.length : Nat) + 1) 0 =
          some (replicate (2 * (a.length + b.length) + 1) 0) := by
      rw [update, if_pos, set_replicate_self]
      rw [length_replicate]
      omega
    simp only [hset, bind_eq_bind, bind_some]
    have htr : Traces [] a b (a.length + b.length) 0 := ⟨rfl, by simp⟩
    obtain ⟨ses, hses, h1, h2, hfirst⟩ := searchRounds_spec (c := a.length + b.length + 1) (by omega)
      (by omega) htr holds_start (by simp)
    refine ⟨ses, hses, h1, h2, fun ses' h1' h2' => ?_⟩
    by_contra hlt
    have h : Arrives a b (0 + edits ses') :=
      arrives_of_script (x := 0) (y := 0) (k := 0) (by decide) rfl (Nat.zero_le _) h1' h2'
    exact hfirst _ (by omega) h

/-- `myersDiff` never indexes out of range, and its script has the fewest edits: all lines but the two
copies of a longest common subsequence. -/
theorem myersDiff_minimal (a b : List Str) :
    ∃ ses, myersDiff a b = some ses ∧ oldSide ses = a ∧ newSide ses = b ∧
      (∀ ses', oldSide ses' = a → newSide ses' = b → edits ses ≤ edits ses') ∧
      ∃ c, c <+ a ∧ c <+ b ∧ (∀ c', c' <+ a → c' <+ b → c'.length ≤ c.length) ∧
        edits ses = a.length + b.length - 2 * c.length := by
  obtain ⟨ses, hses, h1, h2, hmin⟩ := myersDiff_spec a b
  have hs := keeps_sublist ses
  have he := edits_add_keeps ses
  rw [h1, h2] at hs he
  refine ⟨ses, hses, h1, h2, hmin, keeps ses, hs.1, hs.2, fun c' ha hb => ?_, by omega⟩
  obtain ⟨ses', h1', h2', he'⟩ := exists_script ha hb
  have := hmin ses' h1' h2'
  omega

end Solocoder.DiffPatch
