import Solocoder.DiffPatch.Merge
import Solocoder.DiffPatch.Proofs.HunkProofs

/-!
# Proofs: the changes of a diff and their order in a merge

The changes of one side lie apart (`Apart`). Of two changes that start at the same line, the sort of
`mergeChanges` puts the first side's in front, and that one is kept.
-/

namespace Solocoder.DiffPatch

open List ChangeState

/-- The changes lie one after another, with a line of the base between every two of them. -/
structure Apart (changes : List Change) : Prop where
  ordered : changes.Pairwise fun ch ch' => ch.oldEnd < ch'.oldStart
  valid : ∀ ch ∈ changes, ch.oldStart ≤ ch.oldEnd

section Apart

variable {changes : List Change} {ch ch' : Change}

theorem Apart.eq_of_within (h : Apart changes) (hch : ch ∈ changes) (hch' : ch' ∈ changes)
    (hle : ch.oldStart ≤ ch'.oldStart) (hend : ch'.oldStart ≤ ch.oldEnd) : ch = ch' := by
  have hvalid' := h.valid ch' hch'
  have hrel := Pairwise.forall_of_forall_of_flip (l := changes)
    (R := fun a b => a = b ∨ a.oldEnd < b.oldStart ∨ b.oldEnd < a.oldStart) (fun _ _ => .inl rfl)
    (h.ordered.imp fun hlt => .inr (.inl hlt)) (h.ordered.imp fun hlt => .inr (.inr hlt))
  rcases hrel hch hch' with heq | hlt | hlt
  · exact heq
  · omega
  · omega

theorem Apart.eq_of_oldStart (h : Apart changes) (hch : ch ∈ changes) (hch' : ch' ∈ changes)
    (heq : ch.oldStart = ch'.oldStart) : ch = ch' :=
  h.eq_of_within hch hch' heq.le (heq ▸ h.valid ch hch)

theorem Apart.starts (h : Apart changes) :
    changes.Pairwise fun ch ch' => ch.oldStart < ch'.oldStart := by
  refine h.ordered.imp_of_mem fun hch _ hlt => ?_
  exact (h.valid _ hch).trans_lt hlt

theorem Apart.contentAt (h : Apart changes) (hch : ch ∈ changes) :
    contentAt changes ch.oldStart = ch.newLines := by
  unfold DiffPatch.contentAt
  split
  · next ch' hfind =>
    have hstart : ch'.oldStart = ch.oldStart := by simpa using find?_some hfind
    rw [h.eq_of_oldStart (mem_of_find?_eq_some hfind) hch hstart]
  · next hnone => simpa using find?_eq_none.1 hnone ch hch

end Apart

/-- The loop over the lines of a hunk after the old text was read up to `p`; its changes start at `low`
or later. -/
structure Collects (low p : Nat) (s : ChangeState) : Prop where
  apart : Apart s.changes
  reach : s.changeStart + s.deleted = p
  start : low ≤ s.changeStart
  bounds : ∀ ch ∈ s.changes, low ≤ ch.oldStart ∧ ch.oldEnd < s.changeStart

section Collects

variable {low p : Nat} {s : ChangeState}

theorem Apart.concat {changes : List Change} (h : Apart changes) {ch : Change}
    (hch : ch.oldStart ≤ ch.oldEnd) (hlt : ∀ ch' ∈ changes, ch'.oldEnd < ch.oldStart) :
    Apart (changes ++ [ch]) := by
  constructor
  · rw [pairwise_append]
    refine ⟨h.ordered, pairwise_singleton _ _, fun a ha b hb => ?_⟩
    rw [mem_singleton.1 hb]
    exact hlt a ha
  · exact forall_mem_append.2 ⟨h.valid, forall_mem_singleton.2 hch⟩

theorem Collects.flush (h : Collects low p s) :
    Apart s.flush.changes ∧ ∀ ch ∈ s.flush.changes, low ≤ ch.oldStart ∧ ch.oldEnd ≤ p := by
  have hreach := h.reach
  unfold ChangeState.flush
  split
  · refine ⟨h.apart.concat (Nat.le_add_right _ _) fun ch hch => (h.bounds ch hch).2, ?_⟩
    intro ch hch
    rcases mem_append.1 hch with hmem | hmem
    · have := h.bounds ch hmem
      omega
    · rw [mem_singleton.1 hmem]
      exact ⟨h.start, hreach.le⟩
  · refine ⟨h.apart, fun ch hch => ?_⟩
    have := h.bounds ch hch
    omega

theorem flush_rest (s : ChangeState) : s.flush.deleted = 0 ∧ s.flush.inserted = [] := by
  unfold flush
  split
  · exact ⟨rfl, rfl⟩
  · next h =>
    rw [not_or, not_not] at h
    exact ⟨by omega, h.2⟩

theorem Collects.changeLines {ls : List Line} (h : Collects low p s) (hnum : OldNumbered p ls) :
    Collects low (p + (oldLines ls).length) (changeLines ls s) := by
  induction ls generalizing p s with
  | nil => exact h
  | cons l ls ih =>
    obtain ⟨content, type, o, n⟩ := l
    cases type with
    | equal =>
      obtain ⟨rfl, hnum⟩ := hnum
      have hnext : Collects low (p + 1) (changeLine s ⟨content, .equal, p + 1, n⟩) := by
        obtain ⟨hapart, hbounds⟩ := h.flush
        have hreach := h.reach
        have hlow := h.start
        have hstart : ((p : Int) + 1).toNat = p + 1 := by omega
        refine ⟨hapart, ?_, ?_, ?_⟩
        · simp only [changeLine, hstart, (flush_rest s).1, Nat.add_zero]
        · simp only [changeLine, hstart]
          omega
        · intro ch hch
          have := hbounds ch hch
          simp only [changeLine, hstart]
          omega
      have := ih hnext hnum
      simpa [changeLines, Nat.add_assoc, Nat.add_comm, Nat.add_left_comm] using this
    | delete =>
      have hnext : Collects low (p + 1) (changeLine s ⟨content, .delete, o, n⟩) :=
        ⟨h.apart, congrArg (· + 1) h.reach, h.start, h.bounds⟩
      have := ih hnext hnum.2
      simpa [changeLines, Nat.add_assoc, Nat.add_comm, Nat.add_left_comm] using this
    | insert =>
      have hnext : Collects low p (changeLine s ⟨content, .insert, o, n⟩) :=
        ⟨h.apart, h.reach, h.start, h.bounds⟩
      exact ih hnext hnum

end Collects

/-- The changes of a hunk lie in it, and behind the first line if that one is context. -/
theorem FitsAt.hunkChanges {old : List Str} {start : Nat} {hunk : Hunk} (h : FitsAt old start hunk) :
    Apart (hunkChanges hunk) ∧ ∀ ch ∈ hunkChanges hunk,
      (LedByContext hunk → start < ch.oldStart) ∧
        ch.oldEnd ≤ start + (oldLines hunk.lines).length := by
  have hstart : (hunk.oldStart - 1).toNat = start := by
    rw [h.oldStart]
    omega
  have hinit : Collects start start ⟨[], 0, [], start⟩ :=
    ⟨⟨.nil, by simp⟩, rfl, le_rfl, by simp⟩
  unfold DiffPatch.hunkChanges
  rw [hstart]
  obtain ⟨hapart, hbounds⟩ := (hinit.changeLines h.numbered).flush
  refine ⟨hapart, fun ch hch => ⟨fun hled => ?_, (hbounds ch hch).2⟩⟩
  -- after a first line of context the loop goes on as if the hunk began behind it
  obtain ⟨⟨content, type, o, n⟩, ls, hlines, rfl⟩ := hled
  have hnum := h.numbered
  rw [hlines] at hnum hch
  obtain ⟨rfl, hnum⟩ := hnum
  have hnext : Collects (start + 1) (start + 1) ⟨[], 0, [], start + 1⟩ :=
    ⟨⟨.nil, by simp⟩, rfl, le_rfl, by simp⟩
  exact ((hnext.changeLines hnum).flush.2 ch hch).1

theorem Tiled.diffToChanges {old : List Str} {hunks : List Hunk} {stop : Nat} {new : List Str}
    (h : Tiled old hunks stop new) :
    Apart (diffToChanges hunks) ∧ ∀ ch ∈ diffToChanges hunks,
      ch.oldEnd ≤ stop := by
  induction h with
  | nil => exact ⟨⟨.nil, by simp [DiffPatch.diffToChanges]⟩, by simp [DiffPatch.diffToChanges]⟩
  | @concat hunks stop start new hunk _ hle hfits hled ih =>
    obtain ⟨hapart, hstop⟩ := ih
    obtain ⟨hapart', hbounds⟩ := hfits.hunkChanges
    have hsplit : DiffPatch.diffToChanges (hunks ++ [hunk]) =
        DiffPatch.diffToChanges hunks ++ hunkChanges hunk := by
      simp [DiffPatch.diffToChanges]
    rw [hsplit]
    refine ⟨⟨pairwise_append.2 ⟨hapart.ordered, hapart'.ordered, ?_⟩, ?_⟩, ?_⟩
    · intro ch hch ch' hch'
      have hne : hunks ≠ [] := by
        rintro rfl
        cases hch
      have h1 := hstop ch hch
      have h2 := (hbounds ch' hch').1 (hled hne)
      omega
    · exact forall_mem_append.2 ⟨hapart.valid, hapart'.valid⟩
    · intro ch hch
      rcases mem_append.1 hch with hmem | hmem
      · have := hstop ch hmem
        omega
      · exact (hbounds ch hmem).2

theorem flatMap_changeLines (ls : List Line) (s : ChangeState) :
    ((changeLines ls s).flush.changes.flatMap (·.newLines)) =
      s.changes.flatMap (·.newLines) ++ s.inserted ++
        (ls.filter (·.type = .insert)).map (·.content) := by
  have hflush : ∀ s : ChangeState, s.flush.changes.flatMap (·.newLines) =
      s.changes.flatMap (·.newLines) ++ s.inserted := by
    intro s
    unfold flush
    split
    · simp
    · next h =>
      rw [not_or, not_not] at h
      simp [h.2]
  induction ls generalizing s with
  | nil => simp [changeLines, hflush]
  | cons l ls ih =>
    obtain ⟨content, type, o, n⟩ := l
    cases type with
    | equal => simp [changeLines, ih, changeLine, hflush, (flush_rest s).2]
    | delete => simp [changeLines, ih, changeLine]
    | insert => simp [changeLines, ih, changeLine]

theorem flatMap_diffToChanges (hunks : List Hunk) :
    (diffToChanges hunks).flatMap (·.newLines) = hunks.flatMap extractNewLines := by
  rw [diffToChanges, flatMap_assoc]
  congr 1
  funext hunk
  rw [hunkChanges, flatMap_changeLines]
  rfl

/-- A change that is not of the first side starts before the change `ch'` that follows it. -/
def Precedes (ours : List Change) (ch ch' : Change) : Prop :=
  ch ∉ ours → ch.oldStart < ch'.oldStart

section Exchange

variable {ours : List Change}

/-- The inner loop either leaves the list as it is or brings a smaller change to the front. -/
theorem exchange_cases (ch : Change) (rest : List Change) : exchange ch rest = (ch, rest) ∨
      ((exchange ch rest).1 ∈ rest ∧ (exchange ch rest).1.oldStart < ch.oldStart) := by
  induction rest generalizing ch with
  | nil => exact .inl rfl
  | cons ch' rest ih =>
    rw [exchange]
    split
    · next hgt =>
      refine .inr ?_
      rcases ih ch' with heq | ⟨hmem, hlt⟩
      · rw [heq]
        exact ⟨mem_cons_self, hgt⟩
      · exact ⟨mem_cons_of_mem _ hmem, hlt.trans hgt⟩
    · rcases ih ch with heq | ⟨hmem, hlt⟩
      · rw [heq]
        exact .inl rfl
      · exact .inr ⟨mem_cons_of_mem _ hmem, hlt⟩

theorem exchange_perm (ch : Change) (rest : List Change) :
    ((exchange ch rest).1 :: (exchange ch rest).2).Perm (ch :: rest) := by
  induction rest generalizing ch with
  | nil => exact .refl _
  | cons ch' rest ih =>
    rw [exchange]
    split
    · exact (Perm.swap _ _ _).trans ((ih ch').cons ch)
    · exact (Perm.swap _ _ _).trans (((ih ch).cons ch').trans (Perm.swap _ _ _))

theorem exchange_precedes {ch : Change} {rest : List Change}
    (h : (ch :: rest).Pairwise (Precedes ours)) :
    ((exchange ch rest).1 :: (exchange ch rest).2).Pairwise (Precedes ours) := by
  induction rest generalizing ch with
  | nil => exact h
  | cons ch' rest ih =>
    obtain ⟨hch, hrest⟩ := pairwise_cons.1 h
    obtain ⟨hch', htail⟩ := pairwise_cons.1 hrest
    rw [exchange]
    split
    · next hgt =>
      -- a change that is moved back is one of the first side
      have hpair := ih hrest
      obtain ⟨hfront, hback⟩ := pairwise_cons.1 hpair
      have hours : ∀ z, Precedes ours ch z := by
        intro z hnot
        have := hch ch' mem_cons_self hnot
        omega
      have hmoved : Precedes ours (exchange ch' rest).1 ch := by
        intro _
        rcases exchange_cases ch' rest with heq | ⟨-, hlt⟩
        · rw [heq]
          exact hgt
        · exact hlt.trans hgt
      exact pairwise_cons.2 ⟨forall_mem_cons.2 ⟨hmoved, hfront⟩,
        pairwise_cons.2 ⟨fun z _ => hours z, hback⟩⟩
    · next hle =>
      have hpair := ih (pairwise_cons.2 ⟨fun z hz => hch z (mem_cons_of_mem _ hz), htail⟩)
      obtain ⟨hfront, hback⟩ := pairwise_cons.1 hpair
      rcases exchange_cases ch rest with heq | ⟨hsmall, hlt⟩
      · rw [heq]
        exact h
      · have hours : ∀ z, Precedes ours ch' z := by
          intro z hnot
          have := hch' _ hsmall hnot
          omega
        have hmoved : Precedes ours (exchange ch rest).1 ch' := fun _ => by omega
        exact pairwise_cons.2 ⟨forall_mem_cons.2 ⟨hmoved, hfront⟩,
          pairwise_cons.2 ⟨fun z _ => hours z, hback⟩⟩

theorem exchangeSort_perm {c : Nat} {all : List Change} : (exchangeSort c all).Perm all := by
  induction c generalizing all with
  | zero => exact .refl _
  | succ c ih =>
    cases all with
    | nil => exact .refl _
    | cons ch rest => exact (ih.cons _).trans (exchange_perm ch rest)

theorem exchangeSort_precedes {c : Nat} {all : List Change} (h : all.Pairwise (Precedes ours)) :
    (exchangeSort c all).Pairwise (Precedes ours) := by
  induction c generalizing all with
  | zero => exact h
  | succ c ih =>
    cases all with
    | nil => exact .nil
    | cons ch rest =>
      obtain ⟨hfront, hback⟩ := pairwise_cons.1 (exchange_precedes h)
      refine pairwise_cons.2 ⟨fun z hz => hfront z ?_, ih hback⟩
      exact exchangeSort_perm.subset hz

end Exchange

theorem mem_deduplicateLoop {changes : List Change} {seen : List Nat} {ch : Change} :
    ch ∈ deduplicateLoop seen changes ↔
      ch.oldStart ∉ seen ∧ changes.find? (·.oldStart = ch.oldStart) = some ch := by
  induction changes generalizing seen with
  | nil => simp [deduplicateLoop]
  | cons c cs ih =>
    rw [deduplicateLoop, find?_cons]
    by_cases hseen : c.oldStart ∈ seen
    · rw [if_pos hseen, ih]
      refine and_congr_right fun hnot => ?_
      have hne : c.oldStart ≠ ch.oldStart := fun heq => hnot (heq ▸ hseen)
      simp [hne]
    · rw [if_neg hseen, mem_cons, ih, mem_cons, not_or]
      by_cases heq : c.oldStart = ch.oldStart
      · simp only [heq, decide_true, Option.some.injEq]
        constructor
        · rintro (rfl | ⟨⟨hne, -⟩, -⟩)
          · exact ⟨hseen, rfl⟩
          · exact absurd trivial hne
        · rintro ⟨-, rfl⟩
          exact .inl rfl
      · have hne : ch ≠ c := by
          rintro rfl
          exact heq rfl
        simp [heq, hne, Ne.symm heq]

/-- The merged list has all changes of the first side, and those of the second that start elsewhere.
-/
theorem mem_mergeChanges {ours theirs : List Change} (hours : Apart ours) (htheirs : Apart theirs)
    {ch : Change} :
    ch ∈ mergeChanges ours theirs ↔
      ch ∈ ours ∨ (ch ∈ theirs ∧ ∀ oc ∈ ours, oc.oldStart ≠ ch.oldStart) := by
  have hinit : (ours ++ theirs).Pairwise (Precedes ours) := by
    rw [pairwise_append]
    have hin : ∀ a ∈ ours, ∀ b, Precedes ours a b := fun a ha b hnot => absurd ha hnot
    refine ⟨?_, ?_, fun a ha b _ => hin a ha b⟩
    · exact pairwise_of_forall_mem_list fun a ha b _ => hin a ha b
    · exact htheirs.starts.imp fun {a b} hlt (_ : a ∉ ours) => hlt
  have hsorted := exchangeSort_precedes (c := (ours ++ theirs).length) hinit
  have hperm : (exchangeSort (ours ++ theirs).length (ours ++ theirs)).Perm (ours ++ theirs) :=
    exchangeSort_perm
  simp only [mergeChanges, deduplicateChanges, mem_deduplicateLoop, not_mem_nil,
    not_false_eq_true, true_and]
  generalize exchangeSort (ours ++ theirs).length (ours ++ theirs) = sorted at hsorted hperm ⊢
  have hmem : ∀ {c}, c ∈ sorted ↔ c ∈ ours ∨ c ∈ theirs := fun {c} => by
    rw [hperm.mem_iff, mem_append]
  -- the first change with some start is of the first side if that side has one
  have hfirst : ∀ {e oc}, sorted.find? (·.oldStart = oc.oldStart) = some e → oc ∈ ours → e = oc := by
    intro e oc hfind hoc
    obtain ⟨hstart, before, after, hsplit, hbefore⟩ := find?_eq_some_iff_append.1 hfind
    have hstart : e.oldStart = oc.oldStart := by simpa using hstart
    by_cases he : e ∈ ours
    · exact hours.eq_of_oldStart he hoc hstart
    · have hin : oc ∈ before ++ e :: after := hsplit ▸ hmem.2 (.inl hoc)
      rcases mem_append.1 hin with hin | hin
      · have := hbefore oc hin
        simp at this
      · rcases mem_cons.1 hin with rfl | hin
        · rfl
        · rw [hsplit, pairwise_append, pairwise_cons] at hsorted
          have := hsorted.2.1.1 oc hin he
          omega
  constructor
  · intro hfind
    by_cases hch : ch ∈ ours
    · exact .inl hch
    · refine .inr ⟨(hmem.1 (mem_of_find?_eq_some hfind)).resolve_left hch, ?_⟩
      intro oc hoc heq
      rw [← heq] at hfind
      exact hch (hfirst hfind hoc ▸ hoc)
  · intro hch
    have hin : ch ∈ sorted := hmem.2 (hch.imp_right And.left)
    obtain ⟨e, hfind⟩ := Option.isSome_iff_exists.1
      (find?_isSome.2 ⟨ch, hin, by simp⟩ : (sorted.find? (·.oldStart = ch.oldStart)).isSome)
    have hstart : e.oldStart = ch.oldStart := by simpa using find?_some hfind
    rw [hfind]
    rcases hch with hch | ⟨hch, hnone⟩
    · rw [hfirst hfind hch]
    · have he := (hmem.1 (mem_of_find?_eq_some hfind)).resolve_left fun he => hnone e he hstart
      rw [htheirs.eq_of_oldStart he hch hstart]

end Solocoder.DiffPatch
