import Solocoder.Lib.Numbered
import Solocoder.DiffPatch.Proofs.ApplyProofs

/-!
# Proofs: the text of a patch

`ParsePatch` reads a line by its first bytes. A deleted line that begins with `-- `, or an inserted
one that begins with `++ `, is read as a file name.
-/

namespace Solocoder.DiffPatch

open List Hunk

/-! ## Lines -/

variable {line front : Str} {c : UInt8}

theorem splitLoop_line (h : newline ∉ line) (front rest : Str) :
    splitLoop front (line ++ newline :: rest) = (front ++ line) :: splitLoop [] rest := by
  induction line generalizing front with
  | nil => simp [splitLoop]
  | cons c line ih =>
    rw [mem_cons, not_or] at h
    rw [cons_append, splitLoop, if_neg (Ne.symm h.1), ih h.2, append_assoc]
    rfl

theorem splitText_unlines {lines : List Str} (h : ∀ line ∈ lines, newline ∉ line) :
    splitText (unlines lines) = lines := by
  unfold splitText
  induction lines with
  | nil => rfl
  | cons line lines ih =>
    rw [forall_mem_cons] at h
    rw [unlines_cons, splitLoop_line h.1, ih h.2, nil_append]

theorem newline_notMem_splitLoop {text : Str} (hfront : newline ∉ front)
    (h : line ∈ splitLoop front text) : newline ∉ line := by
  induction text generalizing front with
  | nil =>
    rw [splitLoop] at h
    split at h
    · cases h
    · rwa [mem_singleton.1 h]
  | cons c text ih =>
    rw [splitLoop] at h
    split at h
    · rcases mem_cons.1 h with rfl | h
      · exact hfront
      · exact ih (not_mem_nil) h
    · next hc =>
      refine ih ?_ h
      rw [mem_append, not_or, mem_singleton]
      exact ⟨hfront, Ne.symm hc⟩

theorem newline_notMem_splitLines {text : Str} (h : line ∈ splitLines text) : newline ∉ line := by
  rw [splitLines_eq] at h
  exact newline_notMem_splitLoop not_mem_nil h

/-! ## Numbers -/

theorem isDigit_toUInt8 {c : Char} (h : c.isDigit = true) :
    isDigit c.toUInt8 = true ∧ c.toUInt8.toNat = c.toNat := by
  obtain ⟨hval, hlo, hhi⟩ := Lib.toNat_toUInt8_of_isDigit h
  refine ⟨?_, hval⟩
  simp only [isDigit, decide_eq_true_eq, UInt8.le_iff_toNat_le, hval]
  exact ⟨hlo, hhi⟩

theorem isDigit_of_mem_decimal {n : Nat} (h : c ∈ decimal n) : isDigit c = true := by
  obtain ⟨d, hd, rfl⟩ := mem_map.1 h
  exact (isDigit_toUInt8 (Lib.isDigit_of_mem_digits hd)).1

theorem decimal_ne_nil (n : Nat) : decimal n ≠ [] := by
  rw [decimal, if_neg (by omega)]
  simp [Nat.toDigits_ne_nil]

theorem digitsValue_decimal (n : Nat) : digitsValue (decimal n) = n := by
  -- the fold of the scanner is the one of the library
  have hfold : ∀ (ds : List Char) (acc : Nat), (∀ d ∈ ds, d.isDigit = true) →
      (ds.map Char.toUInt8).foldl (fun n c => n * 10 + (c.toNat - 48)) acc =
        Nat.ofDigitChars 10 ds acc := by
    intro ds
    induction ds with
    | nil => intro acc _; rfl
    | cons d ds ih =>
      intro acc h
      rw [forall_mem_cons] at h
      rw [map_cons, foldl_cons, ih _ h.2, (isDigit_toUInt8 h.1).2, Nat.mul_comm]
      rfl
  rw [decimal, if_neg (by omega), Int.toNat_natCast, digitsValue, hfold, Nat.ofDigitChars_ten_toDigits]
  intro d hd
  exact Nat.isDigit_of_mem_toDigits (by decide) le_rfl hd

theorem spaceWidth_of_isDigit (h : isDigit c = true) (s : Str) : spaceWidth (c :: s) = 0 := by
  simp only [isDigit, decide_eq_true_eq, UInt8.le_iff_toNat_le] at h
  have hlo : 48 ≤ c.toNat := h.1
  have hhi : c.toNat ≤ 57 := h.2
  have hspace : ¬ (c = 32 ∨ (9 ≤ c ∧ c ≤ 13)) := by
    rintro (rfl | ⟨-, hle⟩)
    · exact absurd hlo (by decide)
    · exact absurd (hlo.trans hle) (by decide)
  have hC2 : c ≠ 0xC2 := by rintro rfl; exact absurd hhi (by decide)
  have hE1 : c ≠ 0xE1 := by rintro rfl; exact absurd hhi (by decide)
  have hE2 : c ≠ 0xE2 := by rintro rfl; exact absurd hhi (by decide)
  have hE3 : c ≠ 0xE3 := by rintro rfl; exact absurd hhi (by decide)
  match s with
  | [] => rw [spaceWidth, if_neg hspace]
  | [c1] => rw [spaceWidth, if_neg hspace, if_neg (by simp [hC2])]
  | c1 :: c2 :: s =>
    rw [spaceWidth, if_neg hspace, if_neg (by simp [hC2]), if_neg (by simp [hE1, hE2, hE3])]

theorem scanNumber_decimal (n : Nat) : scanNumber (decimal n) = some n := by
  have hdigits : (decimal n).takeWhile isDigit = decimal n :=
    takeWhile_eq_self_iff.2 fun c hc => isDigit_of_mem_decimal hc
  rw [scanNumber, hdigits, if_neg (decimal_ne_nil n), digitsValue_decimal]

theorem isPrefixOf_decimal (hc : isDigit c = false) (n : Nat) (rest : Str) :
    [c].isPrefixOf (decimal n ++ rest) = false := by
  obtain ⟨d, s, hcons⟩ := exists_cons_of_ne_nil (decimal_ne_nil n)
  have hd : isDigit d = true := isDigit_of_mem_decimal (n := n) (hcons ▸ mem_cons_self)
  rw [hcons]
  simp only [cons_append, isPrefixOf, Bool.and_true, beq_eq_false_iff_ne]
  rintro rfl
  rw [hd] at hc
  cases hc

theorem trimFront_append (front s : Str) : trimFront front (front ++ s) = s := by
  rw [trimFront, if_pos ( isPrefixOf_iff_prefix.2 (prefix_append _ _)), drop_left]

theorem trimFront_decimal (hc : isDigit c = false) (n : Nat) (rest : Str) :
    trimFront [c] (decimal n ++ rest) = decimal n ++ rest := by
  rw [trimFront, isPrefixOf_decimal hc]
  rfl

theorem scanInt_decimal (n : Nat) : scanInt (decimal n) = some (n : Int) := by
  obtain ⟨c, s, hcons⟩ := exists_cons_of_ne_nil (decimal_ne_nil n)
  have hc : isDigit c = true := isDigit_of_mem_decimal (n := n) (hcons ▸ mem_cons_self)
  have hskip : skipSpace (decimal n).length (decimal n) = decimal n := by
    rw [hcons, length_cons, skipSpace, if_pos (spaceWidth_of_isDigit hc s)]
  have hminus := isPrefixOf_decimal (by decide : isDigit 45 = false) n []
  have hplus := trimFront_decimal (by decide : isDigit 43 = false) n []
  rw [append_nil] at hminus hplus
  simp only [scanInt, hskip, show str "-" = [45] from rfl, show str "+" = [43] from rfl, hminus,
    hplus, scanNumber_decimal]
  rfl

/-! ## The line that opens a hunk -/

theorem splitOnce_append {sep : UInt8} (h : sep ∉ front) (rest : Str) :
    splitOnce sep (front ++ sep :: rest) = (front, some rest) := by
  induction front with
  | nil => simp [splitOnce]
  | cons c front ih =>
    rw [mem_cons, not_or] at h
    rw [cons_append, splitOnce, if_neg (Ne.symm h.1), ih h.2]

theorem notMem_decimal (h : isDigit c = false) (n : Nat) : c ∉ decimal n := by
  intro hc
  rw [isDigit_of_mem_decimal hc] at h
  cases h

variable (old : List Str) (n m : Nat) (ls : List Line)

def rangeText : Str := decimal n ++ 44 :: decimal m

variable {n m} in
theorem parseRange_of_trim {s : Str}
    (h : trimFront (str "+") (trimFront (str "-") s) = rangeText n m) :
    parseRange s = .ok ((n : Int), (m : Int)) := by
  simp only [parseRange, h]
  rw [rangeText, splitOnce_append (notMem_decimal (by decide) n)]
  simp [scanInt_decimal]

theorem parseRange_minus : parseRange (45 :: rangeText n m) = .ok ((n : Int), (m : Int)) :=
  parseRange_of_trim (trimFront_decimal (by decide) n _)

theorem parseRange_plus : parseRange (43 :: rangeText n m) = .ok ((n : Int), (m : Int)) :=
  parseRange_of_trim (trimFront_append [43] _)

theorem space_notMem_rangeText : (32 : UInt8) ∉ rangeText n m := by
  have h : ∀ n : Nat, (32 : UInt8) ∉ decimal n := notMem_decimal (by decide)
  simp [rangeText, h]

theorem indexOf_skip (h : 32 ∉ front) (s : Str) :
    indexOf (str " @@") (front ++ s) = (indexOf (str " @@") s).map (front.length + ·) := by
  induction front with
  | nil => simp
  | cons c front ih =>
    rw [mem_cons, not_or] at h
    have hc : (str " @@").isPrefixOf (c :: (front ++ s)) = false := by
      simp [show str " @@" = [32, 64, 64] from rfl, isPrefixOf, h.1]
    rw [cons_append, indexOf, hc, if_neg (by decide), ih h.2, Option.map_map]
    congr 1
    funext i
    simp only [Function.comp_apply, length_cons]
    omega

theorem parseHunkHeader_spec (hunk : Hunk) {a b c d : Nat} (ha : hunk.oldStart = a)
    (hb : hunk.oldCount = b) (hc : hunk.newStart = c) (hd : hunk.newCount = d) :
    parseHunkHeader (hunkHeader hunk) = .ok { hunk with lines := [] } := by
  have hopen : str "@@ -" = str "@@ " ++ [45] := rfl
  have hcomma : str "," = [44] := rfl
  have hplus : str " +" = [32, 43] := rfl
  have hline : hunkHeader hunk =
      str "@@ " ++ (45 :: rangeText a b ++ (32 :: (43 :: rangeText c d ++ str " @@"))) := by
    simp [hunkHeader, rangeText, ha, hb, hc, hd, hopen, hcomma, hplus]
  have hindex : indexOf (str " @@")
      (45 :: rangeText a b ++ (32 :: (43 :: rangeText c d ++ str " @@"))) =
        some ((45 :: rangeText a b).length + ((43 :: rangeText c d).length + 1)) := by
    rw [indexOf_skip (by simp [space_notMem_rangeText]), indexOf, indexOf_skip (by simp [space_notMem_rangeText])]
    rfl
  have hrange : (45 :: rangeText a b ++ (32 :: (43 :: rangeText c d ++ str " @@"))).take
      ((45 :: rangeText a b).length + ((43 :: rangeText c d).length + 1)) =
        45 :: rangeText a b ++ 32 :: 43 :: rangeText c d := by
    rw [take_length_add_append, take_succ_cons, take_left]
  simp only [parseHunkHeader, hline, trimFront_append, hindex, hrange]
  rw [splitOnce_append (by simp [space_notMem_rangeText])]
  simp only [parseRange_minus, parseRange_plus, ha, hb, hc, hd]
  rfl

/-! ## The lines of a hunk -/

/-- The line without its numbers, which the text of a patch has not. -/
def Line.bare (l : Line) : Line := ⟨l.content, l.type, 0, 0⟩

/-- The hunk without the numbers of its lines. -/
def Hunk.bare (hunk : Hunk) : Hunk := { hunk with lines := hunk.lines.map Line.bare }

/-- The line is not written like a file header. -/
def Line.Plain (l : Line) : Prop :=
  ¬ (l.type = .delete ∧ str "-- " <+: l.content) ∧ ¬ (l.type = .insert ∧ str "++ " <+: l.content)

instance (l : Line) : Decidable l.Plain := inferInstanceAs (Decidable (_ ∧ _))

section Lines

variable {header : PatchHeader} {hunks : List Hunk} {hunk : Hunk} {l : Line}

theorem isPrefixOf_cons_self (c : UInt8) (front s : Str) :
    (c :: front).isPrefixOf (c :: s) = decide (front <+: s) := by
  rw [Bool.eq_iff_iff, isPrefixOf_iff_prefix, decide_eq_true_eq, prefix_cons_inj]

theorem isPrefixOf_minus (s : Str) :
    (str "--- ").isPrefixOf (str "-" ++ s) = decide (str "-- " <+: s) :=
  isPrefixOf_cons_self 45 (str "-- ") s

theorem isPrefixOf_plus (s : Str) :
    (str "+++ ").isPrefixOf (str "+" ++ s) = decide (str "++ " <+: s) :=
  isPrefixOf_cons_self 43 (str "++ ") s

theorem parseLine_of_plain (h : l.Plain) : parseLine ⟨header, hunks, some hunk⟩ (markedLine l) =
      .ok ⟨header, hunks, some { hunk with lines := hunk.lines ++ [l.bare] }⟩ := by
  obtain ⟨content, type, o, n⟩ := l
  cases type with
  | equal => rfl
  | delete =>
    rw [parseLine, markedLine, isPrefixOf_minus, decide_eq_false fun hpre => h.1 ⟨rfl, hpre⟩]
    rfl
  | insert =>
    rw [parseLine, markedLine, isPrefixOf_plus, decide_eq_false fun hpre => h.2 ⟨rfl, hpre⟩]
    rfl

theorem parseLine_of_not_plain (header : PatchHeader) (hunks : List Hunk) (hunk : Hunk)
    (h : ¬ l.Plain) :
    ∃ header', parseLine ⟨header, hunks, some hunk⟩ (markedLine l) =
      .ok ⟨header', hunks, some hunk⟩ := by
  obtain ⟨content, type, o, n⟩ := l
  rcases not_and_or.1 h with h | h
  · obtain ⟨rfl, hpre⟩ := not_not.1 h
    rw [parseLine, markedLine, isPrefixOf_minus, decide_eq_true hpre]
    exact ⟨_, rfl⟩
  · obtain ⟨rfl, hpre⟩ := not_not.1 h
    rw [parseLine, markedLine, isPrefixOf_plus, decide_eq_true hpre]
    exact ⟨_, rfl⟩

theorem parseLines_append (lines lines' : List Str) (s : ParseState) :
    parseLines (lines ++ lines') s = (parseLines lines s).bind (parseLines lines') := by
  induction lines generalizing s with
  | nil => rfl
  | cons line lines ih =>
    rw [cons_append, parseLines, parseLines]
    cases parseLine s line with
    | error e => rfl
    | ok s' => exact ih s'

theorem parseLines_filter (header : PatchHeader) (hunks : List Hunk) (hunk : Hunk)
    (ls : List Line) :
    ∃ header', parseLines (ls.map markedLine) ⟨header, hunks, some hunk⟩ = .ok ⟨header', hunks,
        some { hunk with lines := hunk.lines ++ (ls.filter (·.Plain)).map Line.bare }⟩ ∧
      ((∀ l ∈ ls, l.Plain) → header' = header) := by
  induction ls generalizing header hunk with
  | nil => exact ⟨header, by simp [parseLines], fun _ => rfl⟩
  | cons l ls ih =>
    rw [map_cons, parseLines]
    by_cases hl : l.Plain
    · obtain ⟨header', heq, hplain⟩ := ih header { hunk with lines := hunk.lines ++ [l.bare] }
      refine ⟨header', ?_, fun h => hplain (forall_mem_cons.1 h).2⟩
      rw [parseLine_of_plain hl, filter_cons_of_pos (by simpa using hl)]
      show parseLines _ _ = _
      rw [heq]
      simp
    · obtain ⟨header1, hline⟩ := parseLine_of_not_plain header hunks hunk hl
      obtain ⟨header', heq, -⟩ := ih header1 hunk
      refine ⟨header', ?_, fun h => absurd (h l mem_cons_self) hl⟩
      rw [hline, filter_cons_of_neg (by simpa using hl)]
      exact heq

end Lines

/-! ## Hunks -/

/-- A hunk whose counts are those of its lines. -/
structure Counted (hunk : Hunk) : Prop where
  oldStart : 0 ≤ hunk.oldStart
  newStart : 0 ≤ hunk.newStart
  oldCount : hunk.oldCount = actualOld hunk.lines
  newCount : hunk.newCount = actualNew hunk.lines

theorem actualOld_eq : actualOld ls = (oldLines ls).length := by
  rw [actualOld, oldLines, oldSide, scriptOf, length_map, filter_map, length_map, countP_eq_length_filter]
  rfl

theorem actualNew_eq : actualNew ls = (newLines ls).length := by
  rw [actualNew, newLines, newSide, scriptOf, length_map, filter_map, length_map, countP_eq_length_filter]
  rfl

theorem FitsAt.counted {old : List Str} {start : Nat} {hunk : Hunk} (h : FitsAt old start hunk) :
    Counted hunk := by
  constructor
  · have := h.oldStart
    omega
  · have := h.newStart
    omega
  · rw [actualOld_eq]
    exact h.oldCount
  · rw [actualNew_eq]
    exact h.newCount

theorem actualOld_bare (ls : List Line) : actualOld (ls.map Line.bare) = actualOld ls := by
  rw [actualOld, countP_map]
  rfl

theorem actualNew_bare (ls : List Line) : actualNew (ls.map Line.bare) = actualNew ls := by
  rw [actualNew, countP_map]
  rfl

section Hunks

variable {hunk : Hunk} {s s' : ParseState}

section

variable (h : Counted hunk)
include h

theorem finalizeHunk_bare (header : PatchHeader) (hunks : List Hunk) :
    finalizeHunk ⟨header, hunks, some hunk.bare⟩ =
      .ok ⟨header, hunks ++ [hunk.bare], some hunk.bare⟩ := by
  have hold : (actualOld hunk.bare.lines : Int) = hunk.bare.oldCount :=
    (congrArg Nat.cast (actualOld_bare _)).trans h.oldCount.symm
  have hnew : (actualNew hunk.bare.lines : Int) = hunk.bare.newCount :=
    (congrArg Nat.cast (actualNew_bare _)).trans h.newCount.symm
  simp [finalizeHunk, hold, hnew]

theorem finalizeHunk_filter (hl : ∃ l ∈ hunk.lines, ¬ l.Plain)
    (header : PatchHeader) (hunks : List Hunk) :
    ∃ e, finalizeHunk ⟨header, hunks,
      some { hunk with lines := (hunk.lines.filter (·.Plain)).map Line.bare }⟩ = .error e := by
  obtain ⟨l, hl, hplain⟩ := hl
  -- the line is on one of the two sides
  have hless : ∀ p : Line → Bool, p l = true →
      (hunk.lines.filter (·.Plain)).countP p < hunk.lines.countP p := by
    intro p hp
    rw [countP_eq_countP_filter_add hunk.lines p (·.Plain)]
    refine Nat.lt_add_of_pos_right (countP_pos_iff.2 ⟨l, ?_, hp⟩)
    simp [hl, hplain]
  by_cases hold : actualOld (hunk.lines.filter (·.Plain)) = actualOld hunk.lines
  · have hins : l.type = .insert := by
      by_contra hne
      exact absurd hold (hless _ (by simpa using hne)).ne
    have hnew : actualNew (hunk.lines.filter (·.Plain)) < actualNew hunk.lines :=
      hless _ (by simp [hins])
    simp only [finalizeHunk, actualOld_bare, actualNew_bare]
    rw [if_neg (by rw [h.oldCount, hold]; simp), if_pos (by rw [h.newCount]; omega)]
    exact ⟨_, rfl⟩
  · simp only [finalizeHunk, actualOld_bare, actualNew_bare]
    rw [if_pos (by rw [h.oldCount]; omega)]
    exact ⟨_, rfl⟩

theorem parseLine_hunkHeader :
    parseLine s (hunkHeader hunk) = (finalizeHunk s).bind fun s' =>
      .ok { s' with currentHunk := some { hunk with lines := [] } } := by
  have hstart := h.oldStart
  have hstart' := h.newStart
  have hhead := parseHunkHeader_spec hunk (a := hunk.oldStart.toNat)
    (c := hunk.newStart.toNat) (by omega) h.oldCount (by omega) h.newCount
  rw [parseLine, hhead]
  rfl

theorem parseLines_hunkText_filter (hs : finalizeHunk s = .ok s') :
    ∃ header, parseLines (hunkText hunk) s = .ok ⟨header, s'.hunks,
        some { hunk with lines := (hunk.lines.filter (·.Plain)).map Line.bare }⟩ ∧
      ((∀ l ∈ hunk.lines, l.Plain) → header = s'.header) := by
  rw [hunkText, parseLines, parseLine_hunkHeader h, hs]
  exact parseLines_filter _ _ _ hunk.lines

theorem parseLines_hunkText (hplain : ∀ l ∈ hunk.lines, l.Plain) (hs : finalizeHunk s = .ok s') :
    parseLines (hunkText hunk) s = .ok ⟨s'.header, s'.hunks, some hunk.bare⟩ := by
  obtain ⟨header, heq, hheader⟩ := parseLines_hunkText_filter h hs
  rw [heq, hheader hplain, filter_eq_self.2 (by simpa using hplain)]
  rfl

end

variable {hunks : List Hunk} (h : ∀ hunk ∈ hunks, Counted hunk)
include h

theorem parseHunks_of_plain
    (hplain : ∀ hunk ∈ hunks, ∀ l ∈ hunk.lines, l.Plain) (hs : finalizeHunk s = .ok s') :
    ∃ current, (parseLines (hunks.flatMap hunkText) s).bind finalizeHunk =
      .ok ⟨s'.header, s'.hunks ++ hunks.map bare, current⟩ := by
  induction hunks generalizing s s' with
  | nil =>
    refine ⟨s'.currentHunk, ?_⟩
    rw [map_nil, append_nil]
    exact hs
  | cons hunk hunks ih =>
    rw [forall_mem_cons] at h hplain
    obtain ⟨current, heq⟩ := ih h.2 hplain.2 (finalizeHunk_bare h.1 s'.header s'.hunks)
    refine ⟨current, ?_⟩
    rw [flatMap_cons, parseLines_append, parseLines_hunkText h.1 hplain.1 hs]
    exact heq.trans (by simp)

theorem parseHunks_of_error {e : Err} (hs : finalizeHunk s = .error e) :
    (parseLines (hunks.flatMap hunkText) s).bind finalizeHunk = .error e := by
  cases hunks with
  | nil => exact hs
  | cons hunk hunks =>
    rw [flatMap_cons, hunkText, cons_append, parseLines,
      parseLine_hunkHeader (h hunk mem_cons_self), hs]
    rfl

theorem parseHunks_of_not_plain
    (hplain : ∃ hunk ∈ hunks, ∃ l ∈ hunk.lines, ¬ l.Plain) (hs : finalizeHunk s = .ok s') :
    ∃ e, (parseLines (hunks.flatMap hunkText) s).bind finalizeHunk = .error e := by
  induction hunks generalizing s s' with
  | nil =>
    obtain ⟨_, hmem, -⟩ := hplain
    cases hmem
  | cons hunk hunks ih =>
    rw [forall_mem_cons] at h
    rw [flatMap_cons, parseLines_append]
    by_cases hhead : ∃ l ∈ hunk.lines, ¬ l.Plain
    · obtain ⟨header, hlines, -⟩ := parseLines_hunkText_filter h.1 hs
      obtain ⟨e, he⟩ := finalizeHunk_filter h.1 hhead header s'.hunks
      rw [hlines]
      exact ⟨e, parseHunks_of_error h.2 he⟩
    · push Not at hhead
      rw [parseLines_hunkText h.1 hhead hs]
      refine ih h.2 ?_ (finalizeHunk_bare h.1 s'.header s'.hunks)
      obtain ⟨hunk', hmem, l, hl, hnot⟩ := hplain
      rcases mem_cons.1 hmem with rfl | hmem
      · exact absurd (hhead l hl) hnot
      · exact ⟨hunk', hmem, l, hl, hnot⟩

end Hunks

/-! ## The whole text -/

theorem parsePatch_patchToUnified (header : PatchHeader) {hunks : List Hunk}
    (hold : newline ∉ header.oldFile) (hnew : newline ∉ header.newFile)
    (hlines : ∀ hunk ∈ hunks, ∀ line ∈ hunkText hunk, newline ∉ line) :
    parsePatch (patchToUnified ⟨header, hunks⟩) =
      ((parseLines (hunks.flatMap hunkText) ⟨header, [], none⟩).bind finalizeHunk).bind fun s =>
        if s.header.oldFile = [] ∧ s.header.newFile = [] ∧ s.hunks = [] then .error .invalidPatch
        else .ok ⟨s.header, s.hunks⟩ := by
  have hsplit : splitText (patchToUnified ⟨header, hunks⟩) =
      [str "--- " ++ header.oldFile, str "+++ " ++ header.newFile] ++ hunks.flatMap hunkText := by
    refine splitText_unlines fun line hline => ?_
    rcases mem_append.1 hline with hline | hline
    · rcases mem_cons.1 hline with rfl | hline
      · rw [mem_append, not_or]
        exact ⟨by decide, hold⟩
      · rw [mem_singleton.1 hline, mem_append, not_or]
        exact ⟨by decide, hnew⟩
    · obtain ⟨hunk, hmem, hline⟩ := mem_flatMap.1 hline
      exact hlines hunk hmem line hline
  simp only [parsePatch, hsplit]
  show (parseLines (hunks.flatMap hunkText) ⟨header, [], none⟩).bind _ = _
  cases parseLines (hunks.flatMap hunkText) ⟨header, [], none⟩ with
  | error e => rfl
  | ok s => rfl

theorem newline_notMem_hunkHeader {hunk : Hunk} (h : Counted hunk) : newline ∉ hunkHeader hunk := by
  have hdecimal : ∀ n : Int, 0 ≤ n → newline ∉ decimal n := by
    intro n hn
    obtain ⟨m, rfl⟩ := Int.eq_ofNat_of_zero_le hn
    exact notMem_decimal (by decide) m
  have hold := hdecimal _ (h.oldCount ▸ Int.natCast_nonneg _)
  have hnew := hdecimal _ (h.newCount ▸ Int.natCast_nonneg _)
  simp only [hunkHeader, mem_append, hdecimal _ h.oldStart, hdecimal _ h.newStart, hold, hnew,
    or_false, not_or]
  decide

theorem newline_notMem_markedLine {l : Line} (h : newline ∉ l.content) :
    newline ∉ markedLine l := by
  obtain ⟨content, type, o, n⟩ := l
  cases type <;>
  · simp only [markedLine, mem_append, not_or]
    exact ⟨by decide, h⟩

section Tiled

variable {old new : List Str} {hunks : List Hunk} {stop : Nat}

theorem Tiled.fits (h : Tiled old hunks stop new) : ∀ hunk ∈ hunks,
    (∃ start, FitsAt old start hunk) ∧ newLines hunk.lines ⊆ new := by
  induction h with
  | nil => simp
  | concat _ _ hfits _ ih =>
    intro hunk hmem
    rcases mem_append.1 hmem with hmem | hmem
    · refine (ih hunk hmem).imp_right fun hnew => ?_
      exact subset_append_of_subset_left _ (subset_append_of_subset_left _ hnew)
    · rw [mem_singleton.1 hmem]
      exact ⟨⟨_, hfits⟩, subset_append_right _ _⟩

theorem Tiled.counted (h : Tiled old hunks stop new) : ∀ hunk ∈ hunks, Counted hunk := by
  intro hunk hmem
  obtain ⟨⟨start, hfits⟩, -⟩ := h.fits hunk hmem
  exact hfits.counted

theorem Tiled.content_mem (h : Tiled old hunks stop new) :
    ∀ hunk ∈ hunks, ∀ l ∈ hunk.lines, l.content ∈ old ∨ l.content ∈ new := by
  intro hunk hmem l hl
  obtain ⟨⟨start, hfits⟩, hnew⟩ := h.fits hunk hmem
  have hl : ⟨l.type, l.content⟩ ∈ scriptOf hunk.lines := mem_map.2 ⟨l, hl, rfl⟩
  by_cases hins : l.type = .insert
  · exact .inr (hnew (mem_map.2 ⟨_, mem_filter.2 ⟨hl, by simp [hins]⟩, rfl⟩))
  · refine .inl (mem_of_mem_drop (hfits.agrees.subset ?_))
    exact mem_map.2 ⟨_, mem_filter.2 ⟨hl, by simp [hins]⟩, rfl⟩

end Tiled

/-! ## Line numbers play no part when a patch is applied -/

theorem verifyContext_bare (p : Nat) (ls : List Line) :
    verifyContext old p (ls.map Line.bare) = verifyContext old p ls := by
  induction ls generalizing p with
  | nil => rfl
  | cons l ls ih =>
    obtain ⟨content, type, o, n⟩ := l
    cases type <;> simp [verifyContext, Line.bare, ih]

theorem applyLines_bare (s : ApplyState) :
    applyLines old (ls.map Line.bare) s = applyLines old ls s := by
  induction ls generalizing s with
  | nil => rfl
  | cons l ls ih =>
    rw [map_cons, applyLines, ih]
    rfl

theorem applyHunk_bare (s : ApplyState) (hunk : Hunk) :
    applyHunk old s hunk.bare = applyHunk old s hunk := by
  have hnew : extractNewLines hunk.bare = extractNewLines hunk := by
    rw [extractNewLines, bare, filter_map, map_map]
    rfl
  simp only [applyHunk, hnew]
  simp only [bare, verifyContext_bare, applyLines_bare]

theorem applyHunks_bare (hunks : List Hunk) (s : ApplyState) :
    applyHunks old (hunks.map bare) s = applyHunks old hunks s := by
  induction hunks generalizing s with
  | nil => rfl
  | cons hunk hunks ih => simp [applyHunks, applyHunk_bare, ih]

theorem applyPatchDirect_bare (text : Str) (header : PatchHeader) (hunks : List Hunk) :
    applyPatchDirect text ⟨header, hunks.map bare⟩ =
      applyPatchDirect text ⟨header, hunks⟩ := by
  simp [applyPatchDirect, applyHunks_bare]

/-! ## The round trip -/

/-- The text of a patch is read back, up to line numbers, and leads from the old text to the new
one. -/
def RoundTrips (oldFile newFile oldText newText : Str) : Prop :=
  ∃ hunks text patch result, diff oldText newText = .ok hunks ∧
    generatePatch oldFile newFile oldText newText = .ok text ∧
    parsePatch text = .ok patch ∧ patch.header = ⟨oldFile, newFile⟩ ∧
    patch.hunks.map bare = hunks.map bare ∧
    applyPatch oldText text = .ok result ∧ result.text = newText ∧ result.rejected = false

theorem Hunk.bare_bare (hunk : Hunk) : hunk.bare.bare = hunk.bare := by
  simp only [bare, map_map]
  rfl

/-- A patch is read back when no changed line is taken for a file name, and there is anything to
read. -/
theorem roundTrips_iff (oldFile newFile oldText newText : Str) (hfile : newline ∉ oldFile)
    (hfile' : newline ∉ newFile) (hold : Terminated oldText) (hnew : Terminated newText)
    (hne : ¬ (oldText = [] ∧ newText = [])) :
    RoundTrips oldFile newFile oldText newText ↔ ∀ hunks, diff oldText newText = .ok hunks →
        (∀ hunk ∈ hunks, ∀ l ∈ hunk.lines, l.Plain) ∧
          ¬ (oldFile = [] ∧ newFile = [] ∧ hunks = []) := by
  obtain ⟨hunks, stop, new, hdiff, htiled, heq⟩ := diff_spec hne
  have hgen : generatePatch oldFile newFile oldText newText =
      .ok (patchToUnified ⟨⟨oldFile, newFile⟩, hunks⟩) := by
    rw [generatePatch, hdiff]
    rfl
  have hlines : ∀ hunk ∈ hunks, ∀ line ∈ hunkText hunk, newline ∉ line := by
    intro hunk hmem line hline
    rcases mem_cons.1 hline with rfl | hline
    · exact newline_notMem_hunkHeader (htiled.counted hunk hmem)
    · obtain ⟨l, hl, rfl⟩ := mem_map.1 hline
      refine newline_notMem_markedLine ?_
      rcases htiled.content_mem hunk hmem l hl with hmem | hmem
      · exact newline_notMem_splitLines hmem
      · exact newline_notMem_splitLines (heq ▸ mem_append_left _ hmem)
  have hparse := parsePatch_patchToUnified ⟨oldFile, newFile⟩ hfile hfile' hlines
  constructor
  · rintro ⟨hunks', text, patch, result, hdiff', htext, hpatch, -⟩ _ hdiff''
    obtain rfl : hunks = _ := Except.ok.inj (hdiff.symm.trans hdiff'')
    obtain rfl := Except.ok.inj (hgen.symm.trans htext)
    rw [hparse] at hpatch
    refine ⟨?_, ?_⟩
    · by_contra hplain
      push Not at hplain
      obtain ⟨e, he⟩ := parseHunks_of_not_plain (s := ⟨⟨oldFile, newFile⟩, [], none⟩)
        htiled.counted hplain rfl
      rw [he] at hpatch
      cases hpatch
    · rintro ⟨rfl, rfl, rfl⟩
      cases hpatch
  · intro h
    obtain ⟨hplain, hsome⟩ := h hunks hdiff
    obtain ⟨current, hread⟩ := parseHunks_of_plain (s := ⟨⟨oldFile, newFile⟩, [], none⟩)
      htiled.counted hplain rfl
    rw [hread] at hparse
    have hpatch : parsePatch (patchToUnified ⟨⟨oldFile, newFile⟩, hunks⟩) =
        .ok ⟨⟨oldFile, newFile⟩, hunks.map bare⟩ := by
      rw [hparse]
      exact if_neg fun hnone => hsome ⟨hnone.1, hnone.2.1, map_eq_nil_iff.1 hnone.2.2⟩
    have happly : applyPatch oldText (patchToUnified ⟨⟨oldFile, newFile⟩, hunks⟩) =
        .ok ⟨newText, false, []⟩ := by
      rw [applyPatch, hpatch]
      exact (applyPatchDirect_bare _ _ _).trans (htiled.applyPatchDirect heq hold hnew _)
    refine ⟨hunks, _, _, _, hdiff, hgen, hpatch, rfl, ?_, happly, rfl, rfl⟩
    simp [bare_bare]

/-- The same for a text with one changed line. -/
theorem roundTrips_oneLine :
    newline ∉ str "a" ∧ newline ∉ str "b" ∧ Terminated (str "x\n") ∧ Terminated (str "y\n") ∧
      ¬ (str "x\n" = [] ∧ str "y\n" = []) ∧
      RoundTrips (str "a") (str "b") (str "x\n") (str "y\n") := by
  refine ⟨by decide, by decide, by decide, by decide, by decide, ?_⟩
  refine (roundTrips_iff _ _ _ _ (by decide) (by decide) (by decide) (by decide) (by decide)).2 ?_
  intro hunks hdiff
  obtain rfl : [⟨1, 1, 1, 1, [⟨str "x", .delete, 1, 0⟩, ⟨str "y", .insert, 0, 1⟩]⟩] = hunks :=
    Except.ok.inj ((by decide : diff (str "x\n") (str "y\n") = .ok _).symm.trans hdiff)
  decide

/-- A deleted line that begins with two dashes and a blank is taken for a file name. -/
theorem not_roundTrips_dashedLine :
    newline ∉ str "a" ∧ newline ∉ str "b" ∧ Terminated (str "-- x\n") ∧ Terminated [] ∧
      ¬ (str "-- x\n" = [] ∧ ([] : Str) = []) ∧
      ¬ RoundTrips (str "a") (str "b") (str "-- x\n") [] := by
  refine ⟨by decide, by decide, by decide, by decide, by decide, ?_⟩
  rintro ⟨hunks, text, patch, result, -, htext, hpatch, -⟩
  have hgen : generatePatch (str "a") (str "b") (str "-- x\n") [] =
      .ok (str "--- a\n+++ b\n@@ -1,1 +1,0 @@\n--- x\n") := by decide
  have hparse : parsePatch (str "--- a\n+++ b\n@@ -1,1 +1,0 @@\n--- x\n") =
      .error (.oldCount 1 0) := by decide
  obtain rfl := Except.ok.inj (hgen.symm.trans htext)
  cases hparse.symm.trans hpatch

end Solocoder.DiffPatch
