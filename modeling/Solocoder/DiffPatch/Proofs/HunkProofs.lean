import Solocoder.DiffPatch.Patch
import Solocoder.DiffPatch.Proofs.MyersProofs

/-!
# Proofs: the hunks of `buildHunks`

The hunks of a diff lie one after another in the old text (`Tiled`). Each of them agrees with the
old text where it starts (`FitsAt`), and together with the lines between them they give the new text.
-/

namespace Solocoder.DiffPatch

open List Option HunkState

section Slice

variable {l : List Str} {i j k : Nat}

@[simp] theorem slice_self (l : List Str) (i : Nat) : slice l i i = [] := by
  rw [slice, drop_eq_nil_of_le]
  exact length_take_le i l

theorem slice_append_drop (l : List Str) (h : i ≤ j) : slice l i j ++ l.drop j = l.drop i := by
  obtain ⟨m, rfl⟩ := Nat.exists_eq_add_of_le h
  rw [slice, drop_take, Nat.add_sub_cancel_left, ← drop_drop, take_append_drop]

theorem slice_append (l : List Str) (hij : i ≤ j) (hjk : j ≤ k) :
    slice l i j ++ slice l j k = slice l i k := by
  have h : l.take j = (l.take k).take j := by rw [take_take, Nat.min_eq_left hjk]
  rw [slice, h]
  exact slice_append_drop (l.take k) hij

variable {line : Str} {ls : List Str}

theorem slice_succ (hij : i ≤ j) (h : l[j]? = some line) :
    slice l i (j + 1) = slice l i j ++ [line] := by
  obtain ⟨hlt, rfl⟩ := List.getElem?_eq_some_iff.1 h
  rw [← slice_append l hij (by omega : j ≤ j + 1)]
  congr 1
  rw [slice, drop_take, Nat.add_sub_cancel_left, drop_eq_getElem_cons hlt,
    take_succ_cons, take_zero]

theorem slice_of_agrees (h : ls <+: l.drop i) : slice l i (i + ls.length) = ls := by
  rw [slice, drop_take, Nat.add_sub_cancel_left]
  exact (prefix_iff_eq_take.1 h).symm

theorem agrees_cons (h : line :: ls <+: l.drop i) : l[i]? = some line ∧ ls <+: l.drop (i + 1) := by
  obtain ⟨rest, hrest⟩ := h
  rw [cons_append] at hrest
  refine ⟨?_, rest, ?_⟩
  · rw [← head?_drop, ← hrest, head?_cons]
  · rw [← drop_drop, ← hrest, drop_succ_cons, drop_zero]

theorem agrees_concat (h : ls <+: l.drop i) (hget : l[i + ls.length]? = some line) :
    ls ++ [line] <+: l.drop i := by
  have heq := slice_of_agrees h
  have hsucc := slice_succ (Nat.le_add_right i ls.length) hget
  rw [heq] at hsucc
  rw [← hsucc, slice, drop_take]
  exact take_prefix _ _

end Slice

def scriptOf (lines : List Line) : List EditScript := lines.map fun l => ⟨l.type, l.content⟩

/-- The lines of the old text. -/
def oldLines (lines : List Line) : List Str := oldSide (scriptOf lines)

/-- The lines of the new text. -/
def newLines (lines : List Line) : List Str := newSide (scriptOf lines)

variable {l : Line} {ls ls' : List Line} {n : Nat}

@[simp] theorem oldLines_nil : oldLines [] = [] := rfl

@[simp] theorem newLines_nil : newLines [] = [] := rfl

@[simp] theorem oldLines_cons : oldLines (l :: ls) =
    if l.type = .insert then oldLines ls else l.content :: oldLines ls := by
  obtain ⟨_, _ | _ | _, _, _⟩ := l <;> rfl

@[simp] theorem newLines_cons : newLines (l :: ls) =
    if l.type = .delete then newLines ls else l.content :: newLines ls := by
  obtain ⟨_, _ | _ | _, _, _⟩ := l <;> rfl

@[simp] theorem oldLines_append : oldLines (ls ++ ls') = oldLines ls ++ oldLines ls' := by
  simp [oldLines, scriptOf]

@[simp] theorem newLines_append : newLines (ls ++ ls') = newLines ls ++ newLines ls' := by
  simp [newLines, scriptOf]

/-- The lines of the old text have their numbers, the first of them `p + 1`. -/
def OldNumbered : Nat → List Line → Prop
  | _, [] => True
  | p, ⟨_, .equal, oldLineNo, _⟩ :: ls => oldLineNo = p + 1 ∧ OldNumbered (p + 1) ls
  | p, ⟨_, .delete, oldLineNo, _⟩ :: ls => oldLineNo = p + 1 ∧ OldNumbered (p + 1) ls
  | p, ⟨_, .insert, _, _⟩ :: ls => OldNumbered p ls

theorem oldNumbered_append {p : Nat} : OldNumbered p (ls ++ ls') ↔
      OldNumbered p ls ∧ OldNumbered (p + (oldLines ls).length) ls' := by
  induction ls generalizing p with
  | nil => simp [OldNumbered]
  | cons l ls ih =>
    obtain ⟨content, type, oldLineNo, newLineNo⟩ := l
    cases type <;> simp [OldNumbered, ih, and_assoc, Nat.add_assoc p, Nat.add_comm 1]

/-- A hunk that starts after `start` lines of the old text and agrees with it there. -/
structure FitsAt (old : List Str) (start : Nat) (hunk : Hunk) : Prop where
  oldStart : hunk.oldStart = start + 1
  newStart : 1 ≤ hunk.newStart
  oldCount : hunk.oldCount = (oldLines hunk.lines).length
  newCount : hunk.newCount = (newLines hunk.lines).length
  agrees : oldLines hunk.lines <+: old.drop start
  numbered : OldNumbered start hunk.lines

def LedByContext (hunk : Hunk) : Prop := ∃ l ls, hunk.lines = l :: ls ∧ l.type = .equal

/-- Hunks that lie one after another in the old text, the lines of the old text up to their end, and
the lines that the new text has for these. -/
inductive Tiled (old : List Str) : List Hunk → Nat → List Str → Prop
  | nil : Tiled old [] 0 []
  | concat {hunks : List Hunk} {stop start : Nat} {new : List Str} {hunk : Hunk} :
    Tiled old hunks stop new → stop ≤ start → FitsAt old start hunk →
      (hunks ≠ [] → LedByContext hunk) →
      Tiled old (hunks ++ [hunk]) (start + (oldLines hunk.lines).length)
        (new ++ slice old stop start ++ newLines hunk.lines)

section FitsAt

variable {old : List Str} {start : Nat} {hunk : Hunk}

theorem FitsAt.concat (h : FitsAt old start hunk) {l : Line}
    (hl : l.type = .insert ∨ old[start + (oldLines hunk.lines).length]? = some l.content ∧
      l.oldLineNo = (start + (oldLines hunk.lines).length : Nat) + 1) :
    FitsAt old start
      ⟨hunk.oldStart, hunk.oldCount + (oldLines [l]).length, hunk.newStart,
        hunk.newCount + (newLines [l]).length, hunk.lines ++ [l]⟩ := by
  have hread : oldLines (hunk.lines ++ [l]) <+: old.drop start ∧
      OldNumbered start (hunk.lines ++ [l]) := by
    obtain ⟨content, type, o, n⟩ := l
    rw [oldLines_append, oldNumbered_append]
    cases type with
    | insert => exact ⟨(append_nil _).symm ▸ h.agrees, h.numbered, trivial⟩
    | _ =>
      obtain ⟨hget, hno⟩ := hl.resolve_left nofun
      exact ⟨agrees_concat h.agrees hget, h.numbered, hno, trivial⟩
  exact ⟨h.oldStart, h.newStart, by simp [h.oldCount], by simp [h.newCount], hread.1, hread.2⟩

end FitsAt

/-- The last `n` lines are context. -/
structure Trailing (n : Nat) (ls : List Line) : Prop where
  le : n ≤ ls.length
  equal : ∀ l ∈ ls.drop (ls.length - n), l.type = .equal

theorem mem_drop_concat {l x : Line} :
    x ∈ (ls ++ [l]).drop ((ls ++ [l]).length - (n + 1)) ↔ x ∈ ls.drop (ls.length - n) ∨ x = l := by
  rw [length_append, length_singleton, Nat.add_sub_add_right,
    drop_append_of_le_length (Nat.sub_le _ _), mem_append, mem_singleton]

theorem drop_length_sub_subset (ls : List Line) {m : Nat} (hm : m ≤ n) :
    ls.drop (ls.length - m) ⊆ ls.drop (ls.length - n) :=
  (drop_sublist_drop_left ls (Nat.sub_le_sub_left hm _)).subset

theorem Trailing.zero (ls : List Line) : Trailing 0 ls := by
  constructor
  · exact Nat.zero_le _
  · simp

theorem Trailing.succ (h : Trailing n ls) (content : Str) (o m : Int) :
    Trailing (n + 1) (ls ++ [⟨content, .equal, o, m⟩]) := by
  constructor
  · rw [length_append]
    exact Nat.succ_le_succ h.le
  · intro l hl
    rcases mem_drop_concat.1 hl with hl | rfl
    · exact h.equal l hl
    · rfl

theorem Trailing.mono {m : Nat} (h : Trailing n ls) (hm : m ≤ n) : Trailing m ls := by
  constructor
  · exact hm.trans h.le
  · intro l hl
    exact h.equal l (drop_length_sub_subset ls hm hl)

theorem sides_equal (h : ∀ l ∈ ls, l.type = .equal) :
    oldLines ls = ls.map (·.content) ∧ newLines ls = ls.map (·.content) := by
  induction ls with
  | nil => exact ⟨rfl, rfl⟩
  | cons l ls ih =>
    obtain ⟨content, type, o, n⟩ := l
    obtain rfl : type = .equal := h _ mem_cons_self
    obtain ⟨hold, hnew⟩ := ih fun l hl => h l (mem_cons_of_mem _ hl)
    exact ⟨congrArg (content :: ·) hold, congrArg (content :: ·) hnew⟩

variable (old : List Str) (s : HunkState) (done : List Str)

theorem contextLines_spec {i : Nat} (h : i + n ≤ old.length) :
    ∃ ls, contextLines old (range' i n) = some ls ∧ ls.length = n ∧
      (∀ l ∈ ls, l.type = .equal) ∧ ls.map (·.content) = slice old i (i + n) ∧
      OldNumbered i ls := by
  induction n generalizing i with
  | zero => exact ⟨[], rfl, rfl, by simp, by simp, trivial⟩
  | succ n ih =>
    obtain ⟨ls, hls, hlen, heq, hcontent, hnum⟩ := ih (i := i + 1) (by omega)
    have hget := getElem?_eq_getElem (l := old) (i := i) (by omega)
    refine ⟨⟨old[i], .equal, i + 1, i + 1⟩ :: ls, ?_, congrArg (· + 1) hlen,
      forall_mem_cons.2 ⟨rfl, heq⟩, ?_, rfl, hnum⟩
    · rw [range'_succ, contextLines, hget, hls]
      rfl
    · have hone := slice_succ (i := i) le_rfl hget
      rw [slice_self] at hone
      rw [← slice_append old (Nat.le_succ i) (by omega), hone, map_cons, hcontent,
        Nat.add_right_comm]
      rfl

def HunkState.current : Hunk :=
  ⟨s.currentOldStart, s.currentOldCount, s.currentNewStart, s.currentNewCount, s.currentLines⟩

/-- No hunk is in progress, and `done` is the new text for the lines that were read. -/
def Between : Prop :=
  ∃ stop new, Tiled old s.hunks stop new ∧ stop ≤ s.oldIdx - contextSize ∧
    (s.hunks ≠ [] → contextSize ≤ s.oldIdx) ∧ new ++ slice old stop s.oldIdx = done

/-- A hunk is in progress, and `done` is the new text for the lines that were read. -/
def Within : Prop :=
  ∃ stop new start, Tiled old s.hunks stop new ∧ stop ≤ start ∧ FitsAt old start s.current ∧
    (s.hunks ≠ [] → LedByContext s.current ∧ s.pendingEquals < s.currentLines.length) ∧
    Trailing s.pendingEquals s.currentLines ∧
    s.oldIdx = start + (oldLines s.currentLines).length ∧
    new ++ slice old stop start ++ newLines s.currentLines = done

def Inv : Prop :=
  if s.inHunk then Within old s done else Between old s done

section Loop

variable {old : List Str} {s : HunkState} {done : List Str}

theorem Within.close (h : Within old s done) {e : Nat} (he : e ≤ s.pendingEquals) :
    ∃ new, e ≤ s.oldIdx ∧ Tiled old
        (s.hunks ++ [⟨s.currentOldStart, s.currentOldCount - e, s.currentNewStart,
          s.currentNewCount - e, s.currentLines.take (s.currentLines.length - e)⟩])
        (s.oldIdx - e) new ∧
      new ++ slice old (s.oldIdx - e) s.oldIdx = done := by
  obtain ⟨stop, new, start, htiled, hle, hfits, hled, htrail, hidx, rfl⟩ := h
  have htrail := htrail.mono he
  have hsplit := take_append_drop (s.currentLines.length - e) s.currentLines
  obtain ⟨hold, hnew⟩ := sides_equal htrail.equal
  have hlen : (s.currentLines.drop (s.currentLines.length - e)).length = e := by
    have := htrail.le
    rw [length_drop]
    omega
  generalize hkept : s.currentLines.take (s.currentLines.length - e) = kept at hsplit ⊢
  generalize s.currentLines.drop (s.currentLines.length - e) = dropped at hsplit hold hnew hlen
  have holds : oldLines s.currentLines =
      oldLines kept ++ oldLines dropped := by
    rw [← hsplit, oldLines_append]
  have hnews : newLines s.currentLines =
      newLines kept ++ oldLines dropped := by
    rw [← hsplit, newLines_append, hold, hnew]
  have hsum : (oldLines s.currentLines).length =
      (oldLines kept).length + e := by
    rw [holds, length_append, hold, length_map, hlen]
  have hsum' : (newLines s.currentLines).length =
      (newLines kept).length + e := by
    rw [hnews, length_append, hold, length_map, hlen]
  have hagrees : oldLines kept ++ oldLines dropped <+: old.drop start :=
    holds ▸ hfits.agrees
  have hkeptAgrees := (prefix_append _ _).trans hagrees
  have hstop : s.oldIdx - e = start + (oldLines kept).length := by omega
  refine ⟨new ++ slice old stop start ++ newLines kept, by omega, ?_, ?_⟩
  · rw [hstop]
    refine htiled.concat hle ⟨hfits.oldStart, hfits.newStart, ?_, ?_, hkeptAgrees, ?_⟩ ?_
    · have hcount : s.currentOldCount = (oldLines s.currentLines).length := hfits.oldCount
      show s.currentOldCount - e = (oldLines kept).length
      omega
    · have hcount : s.currentNewCount = (newLines s.currentLines).length := hfits.newCount
      show s.currentNewCount - e = (newLines kept).length
      omega
    · exact (oldNumbered_append.1 (hsplit ▸ hfits.numbered : OldNumbered start (kept ++ dropped))).1
    · intro hne
      obtain ⟨⟨l, ls, hcons, hl⟩, hlt⟩ := hled hne
      have hcons : s.currentLines = l :: ls := hcons
      obtain ⟨m, hm⟩ := Nat.exists_eq_succ_of_ne_zero (n := s.currentLines.length - e) (by omega)
      refine ⟨l, ls.take m, ?_, hl⟩
      rw [← hkept, hm, hcons, take_succ_cons]
  · have hwhole : slice old start s.oldIdx =
        oldLines kept ++ oldLines dropped := by
      rw [hidx, holds]
      exact slice_of_agrees hagrees
    have hpart : slice old start (s.oldIdx - e) = oldLines kept := by
      rw [hstop]
      exact slice_of_agrees hkeptAgrees
    rw [← slice_append old (j := s.oldIdx - e) (by omega) (by omega), hpart] at hwhole
    rw [hnews, append_cancel_left hwhole]
    simp [append_assoc]

/-- A change opens a hunk with the lines in front of it, or belongs to the hunk in progress. -/
theorem openHunk_spec (h : Inv old s done) (hidx : s.oldIdx ≤ old.length) :
    ∃ s', openHunk old s = some s' ∧ s'.inHunk = true ∧ s'.pendingEquals = 0 ∧
      s'.oldIdx = s.oldIdx ∧ Within old s' done := by
  unfold Inv at h
  unfold openHunk
  split at h
  · next hin =>
    obtain ⟨stop, new, start, htiled, hle, hfits, hled, -, hidx', hdone⟩ := h
    refine ⟨_, if_pos hin, hin, rfl, rfl, stop, new, start, htiled, hle, hfits, ?_, .zero _, hidx',
      hdone⟩
    intro hne
    exact ⟨(hled hne).1, (Nat.zero_le _).trans_lt (hled hne).2⟩
  · next hout =>
    obtain ⟨stop, new, htiled, hstop, hfar, hdone⟩ := h
    have hsum : s.oldIdx - contextSize + (s.oldIdx - (s.oldIdx - contextSize)) = s.oldIdx := by
      omega
    obtain ⟨ls, hls, hlen, heq, hcontent, hnum⟩ :=
      contextLines_spec old (hsum.le.trans hidx)
    obtain ⟨hold, hnew⟩ := sides_equal heq
    have hagrees : oldLines ls = slice old (s.oldIdx - contextSize) s.oldIdx := by
      rw [hold, hcontent, hsum]
    rw [if_neg hout]
    simp only [hls, bind_eq_bind, bind_some]
    refine ⟨_, rfl, rfl, rfl, rfl, stop, new, s.oldIdx - contextSize, htiled, hstop, ?_, ?_,
      .zero _, ?_, ?_⟩
    · constructor
      · rfl
      · show 1 ≤ if _ < 1 then (1 : Int) else _
        split <;> omega
      · show (ls.length : Int) = (oldLines ls).length
        rw [hold, length_map]
      · show (ls.length : Int) = (newLines ls).length
        rw [hnew, length_map]
      · show oldLines ls <+: old.drop (s.oldIdx - contextSize)
        rw [hagrees, slice, drop_take]
        exact take_prefix _ _
      · exact hnum
    · intro hne
      have hfar : 3 ≤ s.oldIdx := hfar hne
      have hthree : ls.length = 3 := by
        rw [hlen, contextSize]
        omega
      cases ls with
      | nil => cases hthree
      | cons l ls =>
        refine ⟨⟨l, ls, rfl, heq l mem_cons_self⟩, ?_⟩
        exact Nat.succ_pos _
    · rw [hold, length_map, hlen, hsum]
    · rw [hnew, ← hold, hagrees, append_assoc, slice_append old hstop (Nat.sub_le _ _), hdone]

/-- The hunk in progress gets the line `l`, which is context if there is context behind the change. -/
theorem Within.concat (h : Within old s done) {l : Line} {n p : Nat}
    (hp : p = 0 ∨ p = s.pendingEquals + 1 ∧ l.type = .equal)
    (hl : l.type = .insert ∨ old[s.oldIdx]? = some l.content ∧ l.oldLineNo = s.oldIdx + 1) :
    Within old
      { s with
        currentLines := s.currentLines ++ [l]
        currentOldCount := s.currentOldCount + (oldLines [l]).length
        currentNewCount := s.currentNewCount + (newLines [l]).length
        oldIdx := s.oldIdx + (oldLines [l]).length
        newIdx := n
        pendingEquals := p } (done ++ newLines [l]) := by
  obtain ⟨stop, new, start, htiled, hle, hfits, hled, htrail, hidx, rfl⟩ := h
  refine ⟨stop, new, start, htiled, hle, hfits.concat (hidx ▸ hl), ?_, ?_, ?_, ?_⟩
  · intro hne
    obtain ⟨⟨l', ls, hcons, hl'⟩, hlt⟩ := hled hne
    refine ⟨⟨l', ls ++ [l], congrArg (· ++ [l]) hcons, hl'⟩, ?_⟩
    simp only [length_append, length_singleton]
    omega
  · rcases hp with rfl | ⟨rfl, heq⟩
    · exact .zero _
    · obtain ⟨content, type, o, n⟩ := l
      obtain rfl : type = .equal := heq
      exact htrail.succ content o n
  · simp only [oldLines_append, length_append, hidx, Nat.add_assoc]
  · rw [newLines_append, ← append_assoc]

variable {line : Str}

theorem equalStep_spec (h : Inv old s done) (hget : old[s.oldIdx]? = some line) :
    Inv old (equalStep s line) (done ++ [line]) ∧ (equalStep s line).oldIdx = s.oldIdx + 1 := by
  unfold Inv at h
  simp only [equalStep]
  split at h
  · next hin =>
    rw [if_pos hin]
    have hnext := h.concat (l := ⟨line, .equal, s.oldIdx + 1, s.newIdx + 1⟩) (n := s.newIdx + 1)
      (.inr ⟨rfl, rfl⟩) (.inr ⟨hget, rfl⟩)
    split
    · next hmany =>
      -- the hunk is closed here, and the next one starts after the lines that are cut from it
      refine ⟨?_, rfl⟩
      have hmany : 3 * 2 < s.pendingEquals + 1 := hmany
      obtain ⟨new, hle, htiled, hdone⟩ := hnext.close (e := contextSize)
        (by show 3 ≤ s.pendingEquals + 1; omega)
      exact ⟨_, new, htiled, le_rfl, fun _ => hle, hdone⟩
    · refine ⟨?_, rfl⟩
      unfold Inv
      rw [if_pos (show s.inHunk = true from hin)]
      exact hnext
  · next hout =>
    rw [if_neg hout]
    refine ⟨?_, rfl⟩
    unfold Inv
    rw [if_neg (show ¬ s.inHunk = true from hout)]
    obtain ⟨stop, new, htiled, hstop, hfar, hdone⟩ := h
    refine ⟨stop, new, htiled, ?_, ?_, ?_⟩
    · show stop ≤ s.oldIdx + 1 - contextSize
      omega
    · intro hne
      exact (hfar hne).trans (Nat.le_succ _)
    · rw [slice_succ (by omega) hget, ← append_assoc, hdone]

theorem hunkStep_spec {op : EditScript} {ses : List EditScript} (h : Inv old s done)
    (hrest : oldSide (op :: ses) = old.drop s.oldIdx) (hidx : s.oldIdx ≤ old.length) :
    ∃ s', hunkStep old s op = some s' ∧ Inv old s' (done ++ newSide [op]) ∧
      oldSide ses = old.drop s'.oldIdx ∧ s'.oldIdx ≤ old.length := by
  obtain ⟨type, line⟩ := op
  cases type with
  | equal =>
    obtain ⟨hget, hses⟩ := getElem?_of_drop hrest
    obtain ⟨hinv, hnext⟩ := equalStep_spec h hget
    exact ⟨_, rfl, hinv, hnext ▸ hses, hnext ▸ (List.getElem?_eq_some_iff.1 hget).1⟩
  | delete =>
    obtain ⟨hget, hses⟩ := getElem?_of_drop hrest
    obtain ⟨s', hopen, hin, hp, hsame, hwithin⟩ := openHunk_spec h hidx
    simp only [hunkStep, hopen, bind_eq_bind, bind_some]
    refine ⟨_, rfl, ?_, hsame ▸ hses, hsame ▸ (List.getElem?_eq_some_iff.1 hget).1⟩
    unfold Inv
    rw [if_pos (show s'.inHunk = true from hin)]
    simpa using hwithin.concat (n := s'.newIdx)
      (l := ⟨line, .delete, s'.oldIdx + 1, 0⟩) (.inl hp) (.inr ⟨hsame ▸ hget, rfl⟩)
  | insert =>
    obtain ⟨s', hopen, hin, hp, hsame, hwithin⟩ := openHunk_spec h hidx
    simp only [hunkStep, hopen, bind_eq_bind, bind_some]
    refine ⟨_, rfl, ?_, hsame ▸ hrest, hsame ▸ hidx⟩
    unfold Inv
    rw [if_pos (show s'.inHunk = true from hin)]
    simpa using hwithin.concat (n := s'.newIdx + 1)
      (l := ⟨line, .insert, 0, s'.newIdx + 1⟩) (.inl hp) (.inl rfl)

theorem hunkLoop_spec {ses : List EditScript} (h : Inv old s done)
    (hrest : oldSide ses = old.drop s.oldIdx) (hidx : s.oldIdx ≤ old.length) :
    ∃ s', hunkLoop old ses s = some s' ∧ Inv old s' (done ++ newSide ses) ∧
      s'.oldIdx = old.length := by
  induction ses generalizing s done with
  | nil =>
    refine ⟨s, rfl, by simpa using h, ?_⟩
    have hlen := congrArg length hrest
    rw [oldSide_nil, length_nil, length_drop] at hlen
    omega
  | cons op ses ih =>
    obtain ⟨s', hstep, hinv, hrest', hidx'⟩ := hunkStep_spec h hrest hidx
    obtain ⟨s'', hloop, hinv', hend⟩ := ih hinv hrest' hidx'
    refine ⟨s'', ?_, ?_, hend⟩
    · rw [hunkLoop, hstep]
      exact hloop
    · rw [append_assoc, ← newSide_append] at hinv'
      exact hinv'

end Loop

theorem closeHunk_spec {old : List Str} {s : HunkState} {done : List Str} (h : Inv old s done) :
    ∃ stop new, Tiled old (closeHunk s) stop new ∧ new ++ slice old stop s.oldIdx = done := by
  unfold Inv at h
  unfold closeHunk
  split at h
  · next hin =>
    obtain ⟨new, -, htiled, hdone⟩ := h.close (Nat.sub_le s.pendingEquals contextSize)
    rw [if_pos hin]
    exact ⟨_, new, htiled, hdone⟩
  · next hout =>
    obtain ⟨stop, new, htiled, -, -, hdone⟩ := h
    rw [if_neg hout]
    exact ⟨stop, new, htiled, hdone⟩

/-- The hunks of an edit script and the lines of the old text that follow them give the new text. -/
theorem buildHunks_spec {old : List Str} {ses : List EditScript} (hold : oldSide ses = old) :
    ∃ hunks stop new, buildHunks ses old = some hunks ∧ Tiled old hunks stop new ∧
      new ++ old.drop stop = newSide ses := by
  have hstart : Inv old .init [] :=
    ⟨0, [], .nil, le_rfl, by simp [init], by simp [init]⟩
  obtain ⟨s, hloop, hinv, hend⟩ :=
    hunkLoop_spec hstart (by simpa [init] using hold) (Nat.zero_le _)
  obtain ⟨stop, new, htiled, hdone⟩ := closeHunk_spec hinv
  refine ⟨closeHunk s, stop, new, ?_, htiled, ?_⟩
  · unfold buildHunks
    split
    · next hnil =>
      subst hnil
      cases hloop
      rfl
    · rw [hloop]
      rfl
  · rw [hend, slice, take_length] at hdone
    exact hdone

theorem diff_spec {oldText newText : Str} (h : ¬ (oldText = [] ∧ newText = [])) :
    ∃ hunks stop new, diff oldText newText = .ok hunks ∧
      Tiled (splitLines oldText) hunks stop new ∧
      new ++ (splitLines oldText).drop stop = splitLines newText := by
  obtain ⟨ses, hmyers, hold, hnew, -⟩ := myersDiff_spec (splitLines oldText) (splitLines newText)
  obtain ⟨hunks, stop, new, hbuild, htiled, heq⟩ := buildHunks_spec hold
  refine ⟨hunks, stop, new, ?_, htiled, heq.trans hnew⟩
  simp [diff, if_neg h, hmyers, hbuild]

end Solocoder.DiffPatch
