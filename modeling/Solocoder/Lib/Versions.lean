import Mathlib.Data.Set.Basic

/-!
# Versions of records

A store shows the newest version of a record, unless that one marks it as dead. Merging keeps the
newest version of each key, and may drop dead ones; the store then shows the same exactly when no
dropped version hid one that was not merged.

A search is right when each place answers with its newest version and no place has an older version
of a key than the places after it.
-/

namespace Solocoder.Lib

open List

variable {ε κ τ : Type} [LinearOrder τ] (key : ε → κ) (time : ε → τ) (dead : ε → Prop)

/-- The newest version of its key in `E`. -/
def Newest (E : Set ε) (e : ε) : Prop := e ∈ E ∧ ∀ e' ∈ E, key e' = key e → time e' ≤ time e

/-- The version that the store `E` shows for its key. -/
def Visible (E : Set ε) (e : ε) : Prop := Newest key time E e ∧ ¬ dead e

variable {key time dead} {E E' : Set ε}

theorem Newest.mono {e : ε} (h : Newest key time E e) (hsub : E' ⊆ E) (he : e ∈ E') :
    Newest key time E' e :=
  ⟨he, fun e' he' => h.2 e' (hsub he')⟩

theorem Newest.unique {E : Set ε} {e e' : ε}
    (hd : ∀ e ∈ E, ∀ e' ∈ E, key e = key e' → time e = time e' → e = e')
    (h : Newest key time E e) (h' : Newest key time E e') (hk : key e = key e') : e = e' :=
  hd e h.1 e' h'.1 hk (le_antisymm (h'.2 e h.1 hk) (h.2 e' h'.1 hk.symm))

/-- The versions `R ∪ M` with `M` merged to `N`, which has the newest version of each key of `M`
except some dead ones. -/
theorem visible_merge_iff (dead : ε → Prop) {R M : Set ε} (N : Set ε)
    (hd : ∀ e ∈ R ∪ M, ∀ e' ∈ R ∪ M, key e = key e' → time e = time e' → e = e')
    (hN : ∀ e ∈ N, Newest key time M e) (hdrop : ∀ e, Newest key time M e → e ∈ N ∨ dead e)
    (hex : ∀ e ∈ M, ∃ d, Newest key time M d ∧ key d = key e) :
    (∀ e, Visible key time dead (R ∪ N) e ↔ Visible key time dead (R ∪ M) e) ↔
      ∀ d e, Newest key time (R ∪ M) d → d ∈ M → d ∉ N → dead d → Visible key time dead R e →
        key e ≠ key d := by
  have hNM : R ∪ N ⊆ R ∪ M := Set.union_subset_union_right R fun e he => (hN e he).1
  have hdM : ∀ e ∈ M, ∀ e' ∈ M, key e = key e' → time e = time e' → e = e' := fun e he e' he' =>
    hd e (.inr he) e' (.inr he')
  constructor
  · intro hsame d e hdn hdM' hdN hdead he hk
    have hdnew : Newest key time M d := hdn.mono Set.subset_union_right hdM'
    -- nothing of this key is left of the merge, so `e` shows
    have hshow : Visible key time dead (R ∪ N) e := by
      refine ⟨⟨.inl he.1.1, ?_⟩, he.2⟩
      rintro e' (he' | he') hk'
      · exact he.1.2 e' he' hk'
      · exact absurd (Newest.unique hdM (hN e' he') hdnew (hk'.trans hk) ▸ he') hdN
    have hold := (hsame e).1 hshow
    have heq : e = d := Newest.unique hd hold.1 hdn hk
    exact he.2 (heq ▸ hdead)
  · intro hcond e
    constructor
    · rintro ⟨⟨he, hmax⟩, hlive⟩
      refine ⟨⟨hNM he, ?_⟩, hlive⟩
      rintro e' (he' | he') hk'
      · exact hmax e' (.inl he') hk'
      · obtain ⟨d, hdnew, hdk⟩ := hex e' he'
        by_contra hlt
        rw [not_le] at hlt
        have hed : time e < time d := hlt.trans_le (hdnew.2 e' he' hdk.symm)
        have hdN : d ∉ N := fun h => hed.not_ge (hmax d (.inr h) (hdk.trans hk'))
        have hRe : ∀ r ∈ R, key r = key e → time r ≤ time e := fun r hr => hmax r (.inl hr)
        rcases he with he | he
        · refine hcond d e ⟨.inr hdnew.1, ?_⟩ hdnew.1 hdN ((hdrop d hdnew).resolve_left hdN)
            ⟨⟨he, hRe⟩, hlive⟩ (hk'.symm.trans hdk.symm)
          rintro r (hr | hr) hrk
          · exact (hRe r hr (hrk.trans (hdk.trans hk'))).trans hed.le
          · exact hdnew.2 r hr hrk
        · exact hed.not_ge ((hN e he).2 d hdnew.1 (hdk.trans hk'))
    · rintro ⟨hnew, hlive⟩
      refine ⟨hnew.mono hNM ?_, hlive⟩
      rcases hnew.1 with he | he
      · exact .inl he
      · right
        exact (hdrop e (hnew.mono Set.subset_union_right he)).resolve_right hlive

variable (key time dead)

/-- Every version in `E` is newer than the versions of its key in `E'`. -/
def Above (E E' : Set ε) : Prop := ∀ e ∈ E, ∀ e' ∈ E', key e = key e' → time e' < time e

/-- The answer to a search for `k` in `E`. -/
def Answers (k : κ) (E : Set ε) (o : Option ε) : Prop :=
  (∀ e, o = some e → Newest key time E e ∧ key e = k) ∧ (o = none → ∀ e ∈ E, key e ≠ k)

variable {key time dead}

/-- In a store with a part above the other, a version shows if its part shows it and it is not
covered by the part above. -/
theorem visible_union_iff (dead : ε → Prop) (h : Above key time E E') {e : ε} :
    Visible key time dead (E ∪ E') e ↔
      Visible key time dead E e ∨ (Visible key time dead E' e ∧ ∀ x ∈ E, key x ≠ key e) := by
  constructor
  · rintro ⟨hnew, hlive⟩
    by_cases hE : e ∈ E
    · exact .inl ⟨hnew.mono Set.subset_union_left hE, hlive⟩
    · have hE' : e ∈ E' := hnew.1.resolve_left hE
      refine .inr ⟨⟨hnew.mono Set.subset_union_right hE', hlive⟩, fun x hx hk => ?_⟩
      exact (h x hx e hE' hk).not_ge (hnew.2 x (.inl hx) hk)
  · rintro (⟨hnew, hlive⟩ | ⟨⟨hnew, hlive⟩, hno⟩)
    · refine ⟨⟨.inl hnew.1, ?_⟩, hlive⟩
      rintro x (hx | hx) hk
      · exact hnew.2 x hx hk
      · exact (h e hnew.1 x hx hk.symm).le
    · refine ⟨⟨.inr hnew.1, ?_⟩, hlive⟩
      rintro x (hx | hx) hk
      · exact absurd hk (hno x hx)
      · exact hnew.2 x hx hk

theorem Answers.or {k : κ} {o o' : Option ε} (ho : Answers key time k E o)
    (ho' : Answers key time k E' o') (h : Above key time E E') :
    Answers key time k (E ∪ E') (o.or o') := by
  cases o with
  | some e =>
    obtain ⟨hnew, hk⟩ := ho.1 e rfl
    constructor
    · intro x hx
      obtain rfl : e = x := Option.some_inj.1 hx
      refine ⟨⟨.inl hnew.1, ?_⟩, hk⟩
      rintro y (hy | hy) hyk
      · exact hnew.2 y hy hyk
      · exact (h e hnew.1 y hy hyk.symm).le
    · intro hx
      cases hx
  | none =>
    have hno := ho.2 rfl
    constructor
    · intro x hx
      obtain ⟨hnew, hk⟩ := ho'.1 x hx
      refine ⟨⟨.inr hnew.1, ?_⟩, hk⟩
      rintro y (hy | hy) hyk
      · exact absurd (hyk.trans hk) (hno y hy)
      · exact hnew.2 y hy hyk
    · rintro hx y (hy | hy)
      · exact hno y hy
      · exact ho'.2 hx y hy

theorem answers_findSome? {ι : Type} {k : κ} {l : List ι} {E : ι → Set ε} {f : ι → Option ε}
    (hf : ∀ i ∈ l, Answers key time k (E i) (f i))
    (hl : l.Pairwise fun i j => Above key time (E i) (E j)) :
    Answers key time k {e | ∃ i ∈ l, e ∈ E i} (l.findSome? f) := by
  induction l with
  | nil =>
    constructor
    · intro e he
      cases he
    · rintro - e ⟨i, hi, -⟩
      cases hi
  | cons i l ih =>
    obtain ⟨hi, hl⟩ := pairwise_cons.1 hl
    have hrest := ih (fun j hj => hf j (mem_cons_of_mem i hj)) hl
    have habove : Above key time (E i) {e | ∃ j ∈ l, e ∈ E j} := by
      rintro e he e' ⟨j, hj, he'⟩ hk
      exact hi j hj e he e' he' hk
    have hor := (hf i (mem_cons_self ..)).or hrest habove
    have hset : {e | ∃ j ∈ i :: l, e ∈ E j} = E i ∪ {e | ∃ j ∈ l, e ∈ E j} := by
      ext e
      simp
    rw [hset, findSome?_cons]
    cases hfi : f i with
    | none =>
      rw [hfi] at hor
      exact hor
    | some x =>
      rw [hfi] at hor
      exact hor

end Solocoder.Lib
