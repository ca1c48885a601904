import Solocoder.LSM.Proofs.CompactionProofs

/-!
# The levels along a run

Flushes, compactions and loading keep the tables of a level in order and in files of their own. From
level 1 on the key ranges of a level stay disjoint.
-/

namespace Solocoder.LSM

open List Function SSTable Taken DB Config Level

variable {Str : Type} [GoString Str] {env : Env Str} {db db' : DB Str} {level : Nat}
  {p : Pick Str} {new : List (SSTable Str)}

section Compaction

theorem Taken.remaining_side (ht : Taken db level p) {r : SSTable Str}
    (hr : r ∈ db.levels (level + 1)) (hnot : r ∉ db.overlapping level p) :
    (∀ e ∈ db.mergedVersions level p, r.maxKey < e.key) ∨
      ∀ e ∈ db.mergedVersions level p, e.key < r.minKey := by
  have hd := ht.disjoint (level + 1) (Nat.le_add_left 1 level)
  have : Std.Symm fun a b : SSTable Str => a.maxKey < b.minKey ∨ b.maxKey < a.minKey :=
    ⟨fun _ _ h => h.symm⟩
  have hside : r.maxKey < p.minKey ∨ p.maxKey < r.minKey := by
    by_contra h
    rw [not_or, not_lt, not_lt] at h
    exact hnot (Taken.mem_overlapping.2 ⟨hr, overlapsWith_iff.2 h⟩)
  have happart : ∀ o ∈ db.overlapping level p, r.maxKey < o.minKey ∨ o.maxKey < r.minKey := by
    intro o ho
    refine List.Pairwise.forall hd hr (Taken.mem_overlapping.1 ho).1 ?_
    rintro rfl
    exact hnot ho
  rcases hside with hlt | hlt
  · left
    intro e he
    rcases mem_mergedVersions.1 he with he | ⟨o, ho, heo⟩
    · exact hlt.trans_le (ht.key_range he).1
    · rcases happart o ho with h | h
      · exact h.trans_le (minKey_le heo)
      · have hov := (overlapsWith_iff.1 (mem_overlapping.1 ho).2).1
        exact absurd (h.trans_le (r.minKey_le_maxKey.trans hlt.le)) hov.not_gt
  · right
    intro e he
    rcases mem_mergedVersions.1 he with he | ⟨o, ho, heo⟩
    · exact (ht.key_range he).2.trans_lt hlt
    · rcases happart o ho with h | h
      · have hov := (overlapsWith_iff.1 (mem_overlapping.1 ho).2).2
        exact absurd (hlt.trans_le (r.minKey_le_maxKey.trans h.le)) hov.not_gt
      · exact (le_maxKey heo).trans_lt h

theorem mem_merged_of_output {e : Entry Str} (he : e ∈ db.output level p) :
    e ∈ db.mergedVersions level p :=
  mem_entriesOf_flatMap.1 (mem_collect (mem_of_mem_filter he)).1

section

variable (hc : Compacted db db' level p new)
include hc

theorem Compacted.mem_merged {t : SSTable Str} (ht : t ∈ new)
    {e : Entry Str} (he : e ∈ t.entries) : e ∈ db.mergedVersions level p :=
  mem_merged_of_output (hc.entriesOf_new.1 ⟨t, ht, he⟩)

theorem Compacted.new_apart : new.Pairwise fun a b => a.maxKey < b.minKey := by
  have hk := keyed_output db level p
  rw [← hc.entries, Keyed, pairwise_map, pairwise_flatten] at hk
  refine (pairwise_map.1 hk.2).imp fun {a b} h => ?_
  obtain ⟨e, he, hek⟩ := a.exists_maxKey
  obtain ⟨e', he', hek'⟩ := b.exists_minKey
  rw [← hek, ← hek']
  exact h e he e' he'

theorem Compacted.disjoint (ht : Taken db level p) (l : Nat)
    (hl : 1 ≤ l) : Disjoint (db'.levels l) := by
  refine (List.Perm.pairwise_iff (fun h => h.symm) (hc.levels l)).2 ?_
  refine pairwise_append.2 ⟨Pairwise.sublist filter_sublist (ht.disjoint l hl),
    (hc.new_apart.sublist filter_sublist).imp .inl, fun r hr t htl => ?_⟩
  obtain ⟨htn, htl⟩ := mem_filter.1 htl
  obtain rfl : level + 1 = l := hc.newLevel t htn ▸ of_decide_eq_true htl
  obtain ⟨hr, hnot⟩ := (mem_removeTables (ht.valid.filenames _) fun _ => ht.mem_gone).1 hr
  rw [gone_next] at hnot
  rcases ht.remaining_side hr hnot with h | h
  · left
    obtain ⟨e, he, hek⟩ := t.exists_minKey
    exact hek ▸ h e (hc.mem_merged htn he)
  · right
    obtain ⟨e, he, hek⟩ := t.exists_maxKey
    exact hek ▸ h e (hc.mem_merged htn he)

end

theorem Taken.merged_level (ht : Taken db level p) {e : Entry Str}
    (he : e ∈ db.mergedVersions level p) :
    e ∈ db.levelVersions level ∨ e ∈ db.levelVersions (level + 1) := by
  rcases mem_mergedVersions.1 he with ⟨t, htp, he⟩ | ⟨t, hto, he⟩
  · exact .inl ⟨t, (ht.mem_level htp).1, he⟩
  · exact .inr ⟨t, (mem_overlapping.1 hto).1, he⟩

theorem Compacted.newerAbove (hc : Compacted db db' level p new) (ht : Taken db level p)
    (hn : db.NewerAbove) : db'.NewerAbove := by
  rintro l l' hll e ⟨t, htl, he⟩ e' ⟨t', htl', he'⟩ hk
  rcases (hc.mem_levels ht).1 htl with ⟨h, hstay⟩ | ⟨h, rfl⟩
  · rcases (hc.mem_levels ht).1 htl' with ⟨h', -⟩ | ⟨h', rfl⟩
    · exact hn l l' hll e ⟨t, h, he⟩ e' ⟨t', h', he'⟩ hk
    · -- a table that stays above the next level, and a merged version
      rw [hc.newLevel t' h'] at hll
      rcases mem_mergedVersions.1 (hc.mem_merged h' he') with hpick | ⟨o, ho, heo⟩
      · obtain ⟨s, hs, hes⟩ := hpick
        rcases Nat.lt_succ_iff_lt_or_eq.1 hll with hlt | rfl
        · exact hn l level hlt e ⟨t, h, he⟩ e' ⟨s, (ht.mem_level hs).1, hes⟩ hk
        · have hout := ht.lt_of_notMem h (by rwa [gone_self] at hstay)
          have hin := (ht.key_range ⟨s, hs, hes⟩).2
          rw [← hk] at hin
          exact absurd (hin.trans_lt hout) (minKey_le he).not_gt
      · exact hn l (level + 1) hll e ⟨t, h, he⟩ e' ⟨o, (mem_overlapping.1 ho).1, heo⟩ hk
  · rw [hc.newLevel t h] at hll
    rcases (hc.mem_levels ht).1 htl' with ⟨h', -⟩ | ⟨h', rfl⟩
    · rcases ht.merged_level (hc.mem_merged h he) with hel | hel
      · exact hn level l' (Nat.lt_of_succ_lt hll) e hel e' ⟨t', h', he'⟩ hk
      · exact hn (level + 1) l' hll e hel e' ⟨t', h', he'⟩ hk
    · exact absurd (hc.newLevel t' h' ▸ hll) (lt_irrefl _)

end Compaction

section Flush

/-- The state `db'` is `db` with a new table on level 0. -/
structure Added (db db' : DB Str) (t : SSTable Str) : Prop extends
    Changed db db' (fun _ => []) [t] where
  level : t.level = 0

theorem flushMemTable_cases (env : Env Str) (db : DB Str) (mt : MemTable Str) :
    (mt.data = [] ∧ db.flushMemTable env mt = db) ∨
      ∃ t, t.entries = mt.data ∧ Added db (db.flushMemTable env mt) t := by
  by_cases hne : mt.data = []
  · left
    refine ⟨hne, ?_⟩
    rw [flushMemTable, hne]
    rfl
  · right
    obtain ⟨t, ht, hlevel, hseq, hent⟩ := newSSTable_of_keyed 0 db.seqNum mt.keyed hne
    refine ⟨t, hent, ?_⟩
    rw [flushMemTable, ht]
    exact
      { same := rfl
        levels := fun l => by
          by_cases hl : l = 0
          · subst hl
            simpa [removeTables, addTable, hlevel] using env.sort_perm _
          · simp [removeTables, hlevel, hl, Ne.symm hl]
        ordered := fun l ho => by
          by_cases hl : l = 0
          · subst hl
            exact env.sort_sorted _
          · simpa [hl] using ho
        seqNum := rfl
        names := by simp [hseq]
        level := hlevel }

variable {t : SSTable Str}

theorem Added.perm (ha : Added db db' t) (l : Nat) :
    (db'.levels l).Perm (db.levels l ++ if l = 0 then [t] else []) := by
  simpa [removeTables, filter_singleton, ha.level, eq_comm, Bool.cond_decide] using ha.levels l

theorem Added.mem_levels (ha : Added db db' t) {l : Nat} {x : SSTable Str} :
    x ∈ db'.levels l ↔ x ∈ db.levels l ∨ (l = 0 ∧ x = t) := by
  rw [(ha.perm l).mem_iff, mem_append]
  split_ifs with hl <;> simp [hl]

theorem Added.disjoint (ha : Added db db' t)
    (hd : ∀ l, 1 ≤ l → Disjoint (db.levels l)) (l : Nat) (hl : 1 ≤ l) : Disjoint (db'.levels l) := by
  have hperm := ha.perm l
  rw [if_neg (Nat.one_le_iff_ne_zero.1 hl), append_nil] at hperm
  exact (List.Perm.pairwise_iff (fun h => h.symm) hperm).2 (hd l hl)

end Flush

section Load

/-- The state `db'` has the tables of `db`, and `files` on their levels. -/
structure Loaded (db db' : DB Str) (files : List (SSTable Str)) : Prop where
  same : db' = { db with levels := db'.levels, seqNum := db'.seqNum }
  levels : ∀ l, (db'.levels l).Perm (db.levels l ++ files.filter fun t => decide (t.level = l))
  ordered : ∀ l, Ordered (db.levels l) → Ordered (db'.levels l)
  grows : db.seqNum ≤ db'.seqNum
  fresh : ∀ t ∈ files, t.seqNum ≤ db'.seqNum

variable (env : Env Str)

theorem loaded_loadTable (db : DB Str) {t : SSTable Str}
    (ht : t.level < db.maxLevel) : Loaded db (db.loadTable env t) [t] := by
  rw [loadTable, if_pos ht]
  exact
    { same := rfl
      levels := fun l => by
        by_cases hl : t.level = l
        · subst hl
          simp only [update_self, decide_true, filter_cons_of_pos, filter_nil]
          exact env.sort_perm _
        · simp only [update_of_ne (Ne.symm hl)]
          simp [hl]
      ordered := fun l ho => by
        by_cases hl : t.level = l
        · subst hl
          simp only [update_self]
          exact env.sort_sorted _
        · simp only [update_of_ne (Ne.symm hl)]
          exact ho
      grows := le_max_left _ _
      fresh := fun x hx => by
        rw [mem_singleton.1 hx]
        exact le_max_right _ _ }

theorem Loaded.trans {db'' : DB Str} {files files' : List (SSTable Str)} (h : Loaded db db' files)
    (h' : Loaded db' db'' files') : Loaded db db'' (files ++ files') :=
  { same := by
      rw [h'.same, h.same]
    levels := fun l => by
      rw [filter_append, ← append_assoc]
      exact (h'.levels l).trans ((h.levels l).append_right _)
    ordered := fun l ho => h'.ordered l (h.ordered l ho)
    grows := h.grows.trans h'.grows
    fresh := forall_mem_append.2 ⟨fun t ht => (h.fresh t ht).trans h'.grows, h'.fresh⟩ }

theorem loaded_foldl (db : DB Str) {files : List (SSTable Str)}
    (hf : ∀ t ∈ files, t.level < db.maxLevel) :
    Loaded db (files.foldl (loadTable env) db) files := by
  induction files generalizing db with
  | nil =>
    exact ⟨rfl, fun l => by simp, fun l ho => ho, le_rfl, fun t ht => by cases ht⟩
  | cons t files ih =>
    have h1 := loaded_loadTable env db (hf t (mem_cons_self ..))
    have hmax : (db.loadTable env t).maxLevel = db.maxLevel := by
      rw [h1.same]
      rfl
    have h2 := ih (db.loadTable env t) fun x hx => by
      rw [hmax]
      exact hf x (mem_cons_of_mem t hx)
    exact h1.trans h2

theorem DB.Valid.filter_files (hv : db.Valid) (l : Nat) :
    (db.files.filter fun t => decide (t.level = l)) = db.levels l := by
  have hone : ∀ l', (db.levels l').filter (fun t => decide (t.level = l)) =
      if l' = l then db.levels l else [] := by
    intro l'
    by_cases h : l' = l
    · subst h
      rw [if_pos rfl, filter_eq_self]
      intro t ht
      exact decide_eq_true (hv.level l' t ht)
    · rw [if_neg h, filter_eq_nil_iff]
      intro t ht
      rw [hv.level l' t ht]
      simpa using h
  have hflat : ∀ R : List Nat, R.Nodup → R.flatMap (fun l' => if l' = l then db.levels l else []) =
        if l ∈ R then db.levels l else [] := by
    intro R hR
    induction R with
    | nil => simp
    | cons r R ih =>
      obtain ⟨hr, hR⟩ := nodup_cons.1 hR
      rw [flatMap_cons, ih hR]
      by_cases h : r = l
      · subst h
        simp [hr]
      · simp [h, Ne.symm h]
  rw [files, filter_flatMap]
  simp only [hone]
  rw [hflat _ nodup_range]
  by_cases hl : l < db.maxLevel
  · rw [if_pos (mem_range.2 hl)]
  · rw [if_neg (fun h => hl (mem_range.1 h)), hv.beyond l (not_lt.1 hl)]

/-- What a store with the files of another one, of the same number of levels, looks like. -/
structure Reopened (db db' : DB Str) : Prop where
  maxLevel : db'.maxLevel = db.maxLevel
  memTable : db'.memTable.data = []
  immutable : db'.immutable = []
  flushing : db'.flushing = none
  opened : db'.closed = false
  levels : ∀ l, (db'.levels l).Perm (db.levels l)
  valid : db'.Valid

theorem Config.validate_maxLevel (c : Config) : 0 < c.validate.maxLevel := by
  simp only [validate]
  split_ifs with h
  · decide
  · exact not_le.1 h

theorem Config.validate_of_pos {c : Config} (h : 0 < c.maxLevel) :
    c.validate.maxLevel = c.maxLevel := by
  simp only [validate]
  rw [if_neg (not_le.2 h)]

def DB.blank (config : Config) : DB Str :=
  { config := config, memTable := .newMemTable config.memTableSize, immutable := [],
    flushing := none, levels := fun _ => [], seqNum := 0, closed := false }

theorem newDB_eq (config : Config) (files : List (SSTable Str)) : newDB env config files =
      { (env.readDir files).foldl (loadTable env) (blank config.validate) with
        seqNum := ((env.readDir files).foldl (loadTable env)
          (blank config.validate)).seqNum + 1 } := rfl

theorem newDB_spec (hv : db.Valid) (hm : 0 < db.config.maxLevel) :
    Reopened db (newDB env db.config db.files) := by
  have hmax : (blank db.config.validate : DB Str).maxLevel = db.maxLevel := by
    show db.config.validate.maxLevel.toNat = db.config.maxLevel.toNat
    rw [validate_of_pos hm]
  have hperm := env.readDir_perm db.files
  have hlt : ∀ t ∈ env.readDir db.files, t.level < (blank db.config.validate : DB Str).maxLevel := by
    intro t ht
    obtain ⟨l, hl, htl⟩ := mem_flatMap.1 (hperm.mem_iff.1 ht)
    rw [hmax, hv.level l t htl]
    exact mem_range.1 hl
  have hload := loaded_foldl env (blank db.config.validate) hlt
  rw [newDB_eq]
  generalize (env.readDir db.files).foldl (loadTable env) (blank db.config.validate) = r at hload
  have hlevels : ∀ l, (r.levels l).Perm (db.levels l) := by
    intro l
    have h := hload.levels l
    rw [← hv.filter_files l]
    exact h.trans (hperm.filter _)
  obtain ⟨_, _, _, _, levels, seqNum, _⟩ := r
  cases hload.same
  exact
    { maxLevel := hmax
      memTable := rfl
      immutable := rfl
      flushing := rfl
      opened := rfl
      levels := hlevels
      valid :=
        { ordered := fun l => hload.ordered l Pairwise.nil
          level := fun l t ht => hv.level l t ((hlevels l).mem_iff.1 ht)
          fresh := fun l t ht => by
            refine Nat.lt_succ_of_le (hload.fresh t (hperm.mem_iff.2 ?_))
            have htl := (hlevels l).mem_iff.1 ht
            rw [← hv.filter_files l] at htl
            exact mem_of_mem_filter htl
          names := fun l => ((hlevels l).map SSTable.seqNum).nodup_iff.2 (hv.names l)
          beyond := fun l hl => (hv.beyond l (hmax ▸ hl) ▸ hlevels l).eq_nil } }

end Load

end Solocoder.LSM
