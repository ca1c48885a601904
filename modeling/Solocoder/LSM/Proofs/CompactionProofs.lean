import Solocoder.Lib.Versions
import Solocoder.LSM.Proofs.TableProofs

/-!
# Compaction

A compaction replaces tables of a level and those of the next level that overlap them by tables with
the newest versions. The levels show the same unless it drops a tombstone that hid an older version,
which `compactLevel` looks for in the key range of its own level only.
-/

namespace Solocoder.LSM

open Lib List SSTable DB.Pick Function DB Level

variable {Str : Type} [GoString Str]

/-- The entry is a deletion. -/
def Entry.Dead (e : Entry Str) : Prop := e.tombstone = true

namespace DB

variable (db : DB Str)

/-- The entries of a level. -/
def levelVersions (l : Nat) : Set (Entry Str) := {e | ∃ t ∈ db.levels l, e ∈ t.entries}

/-- The entries of all levels. -/
def versions : Set (Entry Str) := {e | ∃ l, e ∈ db.levelVersions l}

def deeperVersions (l : Nat) : Set (Entry Str) :=
  {e | ∃ l', l < l' ∧ e ∈ db.levelVersions l'}

/-- The entry is the newest of its key and no deletion. -/
def Shows (e : Entry Str) : Prop :=
  Visible Entry.key Entry.timestamp Entry.Dead db.versions e

/-- Tables are in order, in the files of their level, with different names that are not used again.
-/
structure Valid (db : DB Str) : Prop where
  ordered : ∀ l, Ordered (db.levels l)
  level : ∀ l, ∀ t ∈ db.levels l, t.level = l
  fresh : ∀ l, ∀ t ∈ db.levels l, t.seqNum < db.seqNum
  names : ∀ l, ((db.levels l).map SSTable.seqNum).Nodup
  beyond : ∀ l, db.maxLevel ≤ l → db.levels l = []

theorem Valid.congr {db db' : DB Str} (hv : db.Valid) (hl : db'.levels = db.levels)
    (hs : db'.seqNum = db.seqNum) (hm : db'.maxLevel = db.maxLevel) : db'.Valid :=
  { ordered := fun l => by rw [hl]; exact hv.ordered l
    level := fun l => by rw [hl]; exact hv.level l
    fresh := fun l => by rw [hl, hs]; exact hv.fresh l
    names := fun l => by rw [hl]; exact hv.names l
    beyond := fun l => by rw [hl, hm]; exact hv.beyond l }

theorem Valid.filenames {db : DB Str} (hv : db.Valid) (l : Nat) :
    ((db.levels l).map filename).Nodup := by
  have hmap : (db.levels l).map filename =
      ((db.levels l).map SSTable.seqNum).map fun n => (l, n) := by
    rw [map_map]
    exact map_congr_left fun t ht => by
      show (t.level, t.seqNum) = (l, t.seqNum)
      rw [hv.level l t ht]
  rw [hmap]
  exact (hv.names l).map fun a b h => (Prod.mk.inj h).2

end DB

/-- The state `db'` is `db` without the tables `gone` of each level, and with `new` on their
levels. -/
structure Changed (db db' : DB Str) (gone : Nat → List (SSTable Str)) (new : List (SSTable Str)) :
    Prop where
  same : db' = { db with levels := db'.levels, seqNum := db'.seqNum }
  levels : ∀ l, (db'.levels l).Perm
    (removeTables (db.levels l) (gone l) ++ new.filter fun t => decide (t.level = l))
  ordered : ∀ l, Ordered (db.levels l) → Ordered (db'.levels l)
  seqNum : db'.seqNum = db.seqNum + new.length
  names : new.map SSTable.seqNum = range' db.seqNum new.length

theorem mem_removeTables {tables removed : List (SSTable Str)} {t : SSTable Str}
    (hn : (tables.map filename).Nodup) (hsub : ∀ r ∈ removed, r ∈ tables) :
    t ∈ removeTables tables removed ↔ t ∈ tables ∧ t ∉ removed := by
  rw [removeTables, mem_filter]
  refine and_congr_right fun ht => ?_
  rw [Bool.not_eq_true', any_eq_false]
  constructor
  · exact fun h hr => h t hr (decide_eq_true rfl)
  · intro h r hr heq
    have hrt : r = t := inj_on_of_nodup_map hn (hsub r hr) ht (of_decide_eq_true heq)
    exact h (hrt ▸ hr)

section Changed

variable {db db' : DB Str} {gone : Nat → List (SSTable Str)} {new : List (SSTable Str)}
  (hc : Changed db db' gone new) {l : Nat} {t : SSTable Str}
include hc

theorem Changed.maxLevel : db'.maxLevel = db.maxLevel := by
  rw [hc.same]
  rfl

theorem Changed.mem_levels (hv : db.Valid) (hsub : ∀ r ∈ gone l, r ∈ db.levels l) :
    t ∈ db'.levels l ↔ (t ∈ db.levels l ∧ t ∉ gone l) ∨ (t ∈ new ∧ t.level = l) := by
  rw [(hc.levels l).mem_iff, mem_append, mem_removeTables (hv.filenames l) hsub, mem_filter,
    decide_eq_true_eq]

theorem Changed.seqNum_new (ht : t ∈ new) : db.seqNum ≤ t.seqNum ∧ t.seqNum < db'.seqNum := by
  have hmem : t.seqNum ∈ range' db.seqNum new.length := by
    rw [← hc.names]
    exact mem_map_of_mem ht
  rwa [mem_range'_1, ← hc.seqNum] at hmem

theorem Changed.valid (hv : db.Valid) (hnew : ∀ t ∈ new, t.level < db.maxLevel) : db'.Valid := by
  have hmem : ∀ {l t}, t ∈ db'.levels l → t ∈ db.levels l ∨ (t ∈ new ∧ t.level = l) := by
    intro l t ht
    rw [(hc.levels l).mem_iff, mem_append, mem_filter, decide_eq_true_eq] at ht
    exact ht.imp_left mem_of_mem_filter
  exact
    { ordered := fun l => hc.ordered l (hv.ordered l)
      level := fun l t ht => (hmem ht).elim (hv.level l t) fun h => h.2
      fresh := fun l t ht => by
        rcases hmem ht with h | h
        · rw [hc.seqNum]
          exact Nat.lt_add_right _ (hv.fresh l t h)
        · exact (hc.seqNum_new h.1).2
      names := fun l => by
        rw [((hc.levels l).map SSTable.seqNum).nodup_iff, map_append]
        refine nodup_append.2 ⟨(hv.names l).sublist (filter_sublist.map _), ?_, ?_⟩
        · refine Nodup.sublist (filter_sublist.map _) ?_
          rw [hc.names]
          exact nodup_range'
        · intro a ha b hb
          obtain ⟨r, hr, rfl⟩ := mem_map.1 ha
          obtain ⟨t, ht, rfl⟩ := mem_map.1 hb
          exact ((hv.fresh l r (mem_of_mem_filter hr)).trans_le
            (hc.seqNum_new (mem_of_mem_filter ht)).1).ne
      beyond := fun l hl => by
        rw [hc.maxLevel] at hl
        refine eq_nil_iff_forall_not_mem.2 fun t ht => ?_
        rcases hmem ht with h | ⟨h, rfl⟩
        · exact not_mem_nil (hv.beyond l hl ▸ h)
        · exact (hnew t h).not_ge hl }

end Changed

/-! ## The tables that are taken -/

section Pick

variable {tables : List (SSTable Str)} {p : Pick Str} {level : Nat} {sst t : SSTable Str}

theorem DB.Pick.add_of_overlaps {p : Pick Str} (hne : t.filename ≠ sst.filename)
    (ho : t.overlapsWith p.minKey p.maxKey = true) :
    (p.add sst t).tables = p.tables ++ [t] ∧ (p.add sst t).minKey = min p.minKey t.minKey ∧
      (p.add sst t).maxKey = max p.maxKey t.maxKey := by
  rw [add, if_pos ⟨hne, ho⟩]
  refine ⟨rfl, ?_, ?_⟩
  · rw [min_comm, min_def_lt]
  · rw [max_def_lt]

theorem DB.Pick.add_of_not {p : Pick Str}
    (h : ¬ (t.filename ≠ sst.filename ∧ t.overlapsWith p.minKey p.maxKey = true)) :
    p.add sst t = p := by
  rw [add, if_neg h]

/-- The state of the loop over level 0 behind the tables `done`. -/
structure Closure (sst : SSTable Str) (done : List (SSTable Str)) (p : Pick Str) : Prop where
  first : sst ∈ p.tables
  sub : ∀ t ∈ p.tables, t = sst ∨ t ∈ done
  minKey : p.minKey = sst.minKey
  maxKey : ∀ t ∈ p.tables, t.maxKey ≤ p.maxKey
  rest : ∀ t ∈ done, t ∈ p.tables ∨ p.maxKey < t.minKey

/-- A later table overlaps, or lies behind all that was taken, and so do the tables after it. -/
theorem Closure.add {done : List (SSTable Str)} (hc : Closure sst done p)
    (hfirst : sst.minKey ≤ t.minKey) (horder : ∀ t' ∈ done, t'.minKey ≤ t.minKey)
    (hname : t.filename = sst.filename → t = sst) : Closure sst (done ++ [t]) (p.add sst t) := by
  by_cases h : t.filename ≠ sst.filename ∧ t.overlapsWith p.minKey p.maxKey = true
  · obtain ⟨h1, h2, h3⟩ := add_of_overlaps h.1 h.2
    have hle : t.minKey ≤ p.maxKey := (overlapsWith_iff.1 h.2).2
    refine ⟨?_, ?_, ?_, ?_, ?_⟩
    · rw [h1]
      exact mem_append_left _ hc.first
    · rw [h1]
      exact forall_mem_append.2 ⟨fun t' ht' => (hc.sub t' ht').imp_right (mem_append_left _),
        fun t' ht' => .inr (mem_append_right _ ht')⟩
    · rw [h2, hc.minKey, min_eq_left hfirst]
    · rw [h1, h3]
      exact forall_mem_append.2 ⟨fun t' ht' => (hc.maxKey t' ht').trans (le_max_left _ _),
        forall_mem_singleton.2 (le_max_right _ _)⟩
    · rw [h1]
      intro t' ht'
      left
      rcases mem_append.1 ht' with ht' | ht'
      · rcases hc.rest t' ht' with h' | h'
        · exact mem_append_left _ h'
        · exact absurd (h'.trans_le ((horder t' ht').trans hle)) (lt_irrefl _)
      · exact mem_append_right _ ht'
  · rw [add_of_not h]
    refine ⟨hc.first, fun t' ht' => (hc.sub t' ht').imp_right (mem_append_left _), hc.minKey,
      hc.maxKey, fun t' ht' => ?_⟩
    rcases mem_append.1 ht' with ht' | ht'
    · exact hc.rest t' ht'
    · rw [mem_singleton.1 ht']
      by_cases hn : t.filename = sst.filename
      · exact .inl (hname hn ▸ hc.first)
      · right
        by_contra hlt
        refine h ⟨hn, overlapsWith_iff.2 ⟨?_, not_lt.1 hlt⟩⟩
        rw [hc.minKey]
        exact hfirst.trans t.minKey_le_maxKey

theorem Closure.foldl {done todo : List (SSTable Str)} (hc : Closure sst done p)
    (hfirst : ∀ t ∈ todo, sst.minKey ≤ t.minKey) (horder : Ordered (done ++ todo))
    (hname : ∀ t ∈ todo, t.filename = sst.filename → t = sst) :
    Closure sst (done ++ todo) (todo.foldl (Pick.add sst) p) := by
  induction todo generalizing done p with
  | nil => rwa [append_nil]
  | cons t todo ih =>
    have hmem : t ∈ t :: todo := mem_cons_self ..
    have hstep := hc.add (hfirst t hmem)
      (fun t' ht' => (pairwise_append.1 horder).2.2 t' ht' t hmem) (hname t hmem)
    have happ : done ++ t :: todo = (done ++ [t]) ++ todo := by simp
    rw [happ] at horder ⊢
    exact ih hstep (fun t' ht' => hfirst t' (mem_cons_of_mem t ht')) horder
      fun t' ht' => hname t' (mem_cons_of_mem t ht')

/-- The tables of the level that are not taken have no key in the range of those that are. -/
theorem pick_spec (ho : Ordered tables) (hd : level ≠ 0 → Disjoint tables)
    (hn : (tables.map filename).Nodup) (hp : pick level tables = some p) :
    (∀ t ∈ p.tables, t ∈ tables ∧ p.minKey ≤ t.minKey ∧ t.maxKey ≤ p.maxKey) ∧
      ∀ t ∈ tables, t ∉ p.tables → p.maxKey < t.minKey := by
  cases htab : tables with
  | nil => simp [pick, htab] at hp
  | cons sst rest =>
    subst htab
    have hmin : ∀ t ∈ sst :: rest, sst.minKey ≤ t.minKey :=
      forall_mem_cons.2 ⟨le_rfl, (pairwise_cons.1 ho).1⟩
    by_cases hl : level = 0
    · have hname : ∀ t ∈ sst :: rest, t.filename = sst.filename → t = sst := fun t ht h =>
        inj_on_of_nodup_map hn ht (mem_cons_self ..) h
      have hstart : Closure sst [] (⟨[sst], sst.minKey, sst.maxKey⟩ : Pick Str) :=
        ⟨by simp, by simp, rfl, by simp, by simp⟩
      have hend := hstart.foldl hmin (by simpa using ho) hname
      have hp' : (sst :: rest).foldl (add sst) ⟨[sst], sst.minKey, sst.maxKey⟩ = p := by
        simpa [pick, hl] using hp
      rw [hp'] at hend
      constructor
      · intro t ht
        have hmem : t ∈ sst :: rest := by
          rcases hend.sub t ht with rfl | h
          · exact mem_cons_self ..
          · exact h
        exact ⟨hmem, hend.minKey ▸ hmin t hmem, hend.maxKey t ht⟩
      · intro t ht hnot
        exact (hend.rest t ht).resolve_left hnot
    · have hp' : (⟨[sst], sst.minKey, sst.maxKey⟩ : Pick Str) = p := by
        simpa [pick, hl] using hp
      subst hp'
      constructor
      · intro t ht
        rw [mem_singleton.1 ht]
        exact ⟨mem_cons_self .., le_rfl, le_rfl⟩
      · intro t ht hnot
        have ht' : t ∈ rest := by
          rcases mem_cons.1 ht with rfl | ht'
          · exact absurd (mem_singleton_self _) hnot
          · exact ht'
        exact (pairwise_cons.1 (apart ho (hd hl))).1 t ht'

end Pick

/-! ## What a compaction does -/

variable {env : Env Str} {db db' : DB Str} {level : Nat} {p : Pick Str}
  {new : List (SSTable Str)}

/-- The tables of the next level that are merged too. -/
def DB.overlapping (db : DB Str) (level : Nat) (p : Pick Str) : List (SSTable Str) :=
  findOverlappingTables (db.levels (level + 1)) p.minKey p.maxKey

def DB.output (db : DB Str) (level : Nat) (p : Pick Str) : List (Entry Str) :=
  mergedEntries (p.tables ++ db.overlapping level p)
    (db.hasDeeperOverlap (level + 1) p.minKey p.maxKey)

/-- The tables that a compaction takes from the level `l`. -/
def DB.gone (db : DB Str) (level : Nat) (p : Pick Str) (l : Nat) : List (SSTable Str) :=
  if l = level then p.tables else if l = level + 1 then db.overlapping level p else []

/-- The state `db'` is `db` with the tables `p` and those they overlap replaced by `new`. -/
structure Compacted (db db' : DB Str) (level : Nat) (p : Pick Str) (new : List (SSTable Str)) :
    Prop extends Changed db db' (db.gone level p) new where
  entries : (new.map entries).flatten = db.output level p
  newLevel : ∀ t ∈ new, t.level = level + 1

theorem keyed_output (db : DB Str) (level : Nat) (p : Pick Str) : Keyed (db.output level p) :=
  (keyed_collect _).sublist filter_sublist

theorem createTables_cut (level seqNum : Nat) (target : Int) {es : List (Entry Str)} (hk : Keyed es) :
    ∃ ts, createTables level seqNum (cut target [] 0 es) = some ts ∧
      (ts.map entries).flatten = es ∧ (∀ t ∈ ts, t.level = level) ∧
      ts.map SSTable.seqNum = range' seqNum ts.length := by
  have hflat : (cut target [] 0 es).flatten = es := flatten_cut target [] 0 es
  have hcs : ∀ c ∈ cut target [] 0 es, Keyed c ∧ c ≠ [] := by
    intro c hc
    refine ⟨?_, ne_nil_of_mem_cut hc⟩
    rw [← hflat] at hk
    exact hk.sublist (sublist_flatten_of_mem hc)
  obtain ⟨ts, h1, h2, h3, h4⟩ := createTables_spec level seqNum hcs
  have hlen : ts.length = (cut target [] 0 es).length := by rw [← h2, length_map]
  exact ⟨ts, h1, by rw [h2, hflat], h3, by rw [h4, hlen]⟩

/-- The state after a compaction that leaves `tables` on the next level. -/
def DB.replaced (db : DB Str) (level : Nat) (p : Pick Str) (tables : List (SSTable Str))
    (seqNum : Nat) : DB Str :=
  { db with
    levels := update (update db.levels level
      (removeTables (db.levels level) p.tables)) (level + 1) tables
    seqNum := seqNum }

def DB.remaining (db : DB Str) (level : Nat) (p : Pick Str) : List (SSTable Str) :=
  removeTables (db.levels (level + 1)) (db.overlapping level p)

theorem compactLevel_eq (env : Env Str) (hl : level + 1 < db.maxLevel)
    (hp : pick level (db.levels level) = some p) :
    db.compactLevel env level =
      if (db.output level p).length = 0 then
        some (db.replaced level p (db.remaining level p) db.seqNum)
      else
        (createTables (level + 1) db.seqNum
          (cut db.config.targetFileSize [] 0 (db.output level p))).bind fun new =>
            some (db.replaced level p (addTables env (db.remaining level p) new)
              (db.seqNum + new.length)) := by
  rw [compactLevel, if_pos (Nat.lt_of_succ_lt hl), hp]
  show (if level + 1 < db.maxLevel then _ else _) = _
  rw [if_pos hl]
  rfl

variable {tables : List (SSTable Str)} {e : Entry Str}

@[simp]
theorem gone_self : db.gone level p level = p.tables := if_pos rfl

@[simp]
theorem gone_next : db.gone level p (level + 1) = db.overlapping level p := by simp [gone]

theorem levels_replaced (seqNum l : Nat) : (db.replaced level p tables seqNum).levels l =
    if l = level + 1 then tables else removeTables (db.levels l) (db.gone level p l) := by
  simp only [replaced, update_apply]
  split_ifs with hn h
  · rfl
  · rw [h, gone_self]
  · simp [gone, h, hn, removeTables]

theorem compacted_replaced (hperm : tables.Perm (db.remaining level p ++ new))
    (ho : Ordered (db.levels (level + 1)) → Ordered tables)
    (hent : (new.map entries).flatten = db.output level p) (hlevel : ∀ t ∈ new, t.level = level + 1)
    (hnames : new.map SSTable.seqNum = range' db.seqNum new.length) :
    Compacted db (db.replaced level p tables (db.seqNum + new.length)) level p new :=
  { same := rfl
    levels := fun l => by
      rw [levels_replaced]
      split_ifs with hl
      · subst hl
        rwa [gone_next, filter_eq_self.2 fun t ht => decide_eq_true (hlevel t ht)]
      · have hnone : (new.filter fun t => decide (t.level = l)) = [] :=
          filter_eq_nil_iff.2 fun t ht h => hl (of_decide_eq_true h ▸ hlevel t ht)
        rw [hnone, append_nil]
    ordered := fun l hold => by
      rw [levels_replaced]
      split_ifs with hl
      · exact ho (hl ▸ hold)
      · exact Pairwise.sublist filter_sublist hold
    seqNum := rfl
    names := hnames
    entries := hent
    newLevel := hlevel }

theorem compactLevel_spec (env : Env Str) (hl : level + 1 < db.maxLevel)
    (hp : pick level (db.levels level) = some p) :
    ∃ db' new, db.compactLevel env level = some db' ∧ Compacted db db' level p new := by
  rw [compactLevel_eq env hl hp]
  by_cases hm : (db.output level p).length = 0
  · rw [if_pos hm]
    have hperm : (db.remaining level p).Perm (db.remaining level p ++ []) := by
      rw [append_nil]
    refine ⟨_, [], rfl, compacted_replaced hperm (Pairwise.sublist filter_sublist) ?_ nofun rfl⟩
    exact (length_eq_zero_iff.1 hm).symm
  · rw [if_neg hm]
    obtain ⟨new, h1, h2, h3, h4⟩ := createTables_cut (level + 1) db.seqNum db.config.targetFileSize
      (keyed_output db level p)
    rw [h1]
    exact ⟨_, new, rfl, compacted_replaced (env.sort_perm _) (fun _ => env.sort_sorted _) h2 h3 h4⟩

/-! ### The tables that stay and the versions that are merged -/

def entriesOf (tables : List (SSTable Str)) : Set (Entry Str) := {e | ∃ t ∈ tables, e ∈ t.entries}

/-- The tables that a compaction of the level merges. -/
structure Taken (db : DB Str) (level : Nat) (p : Pick Str) : Prop where
  valid : db.Valid
  disjoint : ∀ l, 1 ≤ l → Disjoint (db.levels l)
  picked : pick level (db.levels level) = some p

namespace Taken

variable {t : SSTable Str}

theorem mem_level (ht : Taken db level p) (h : t ∈ p.tables) :
    t ∈ db.levels level ∧ p.minKey ≤ t.minKey ∧ t.maxKey ≤ p.maxKey :=
  (pick_spec (ht.valid.ordered level) (fun h => ht.disjoint level (Nat.one_le_iff_ne_zero.2 h))
    (ht.valid.filenames level) ht.picked).1 t h

theorem lt_of_notMem (ht : Taken db level p) (h : t ∈ db.levels level) (hnot : t ∉ p.tables) :
    p.maxKey < t.minKey :=
  (pick_spec (ht.valid.ordered level) (fun h => ht.disjoint level (Nat.one_le_iff_ne_zero.2 h))
    (ht.valid.filenames level) ht.picked).2 t h hnot

theorem mem_overlapping : t ∈ db.overlapping level p ↔
    t ∈ db.levels (level + 1) ∧ t.overlapsWith p.minKey p.maxKey = true := by
  rw [overlapping, findOverlappingTables, mem_filter]

theorem mem_gone (ht : Taken db level p) {l : Nat} (h : t ∈ db.gone level p l) :
    t ∈ db.levels l := by
  unfold gone at h
  split_ifs at h with h1 h2
  · exact h1 ▸ (ht.mem_level h).1
  · exact h2 ▸ (mem_overlapping.1 h).1
  · cases h

theorem key_range (ht : Taken db level p) {e : Entry Str} (he : e ∈ entriesOf p.tables) :
    p.minKey ≤ e.key ∧ e.key ≤ p.maxKey := by
  obtain ⟨t, htp, he⟩ := he
  obtain ⟨-, h1, h2⟩ := ht.mem_level htp
  exact ⟨h1.trans (minKey_le he), (le_maxKey he).trans h2⟩

theorem eq_of_common_key {tables : List (SSTable Str)} (hd : Disjoint tables) {t' : SSTable Str}
    (ht : t ∈ tables) (ht' : t' ∈ tables) {e e' : Entry Str} (he : e ∈ t.entries)
    (he' : e' ∈ t'.entries) (hk : e.key = e'.key) : t = t' := by
  by_contra hne
  have : Std.Symm fun a b : SSTable Str => a.maxKey < b.minKey ∨ b.maxKey < a.minKey :=
    ⟨fun _ _ h => h.symm⟩
  rcases Pairwise.forall hd ht ht' hne with h | h
  · exact absurd (((le_maxKey he).trans_lt h).trans_le (minKey_le he')) hk.not_lt
  · exact absurd (((le_maxKey he').trans_lt h).trans_le (minKey_le he)) hk.symm.not_lt

end Taken

def DB.keptVersions (db : DB Str) (level : Nat) (p : Pick Str) : Set (Entry Str) :=
  {e | ∃ l, ∃ t ∈ db.levels l, e ∈ t.entries ∧ t ∉ db.gone level p l}

def DB.mergedVersions (db : DB Str) (level : Nat) (p : Pick Str) : Set (Entry Str) :=
  entriesOf (p.tables ++ db.overlapping level p)

theorem mem_mergedVersions : e ∈ db.mergedVersions level p ↔
    e ∈ entriesOf p.tables ∨ e ∈ entriesOf (db.overlapping level p) := by
  simp only [mergedVersions, entriesOf, Set.mem_ofPred_eq, mem_append, or_and_right, exists_or]

namespace Taken

theorem versions_eq (ht : Taken db level p) :
    db.versions = db.keptVersions level p ∪ db.mergedVersions level p := by
  ext e
  constructor
  · rintro ⟨l, t, htl, he⟩
    by_cases h : t ∈ db.gone level p l
    · refine .inr (mem_mergedVersions.2 ?_)
      unfold gone at h
      split_ifs at h
      · exact .inl ⟨t, h, he⟩
      · exact .inr ⟨t, h, he⟩
      · cases h
    · exact .inl ⟨l, t, htl, he, h⟩
  · rintro (⟨l, t, htl, he, -⟩ | he)
    · exact ⟨l, t, htl, he⟩
    · rcases mem_mergedVersions.1 he with ⟨t, htp, he⟩ | ⟨t, hto, he⟩
      · exact ⟨level, t, (ht.mem_level htp).1, he⟩
      · exact ⟨level + 1, t, (mem_overlapping.1 hto).1, he⟩

end Taken

theorem Compacted.mem_levels (hc : Compacted db db' level p new) (ht : Taken db level p) {l : Nat}
    {t : SSTable Str} : t ∈ db'.levels l ↔
      (t ∈ db.levels l ∧ t ∉ db.gone level p l) ∨ (t ∈ new ∧ t.level = l) :=
  hc.toChanged.mem_levels ht.valid fun _ => ht.mem_gone

theorem Compacted.entriesOf_new (hc : Compacted db db' level p new) :
    (∃ t ∈ new, e ∈ t.entries) ↔ e ∈ db.output level p := by
  rw [← hc.entries]
  simp

theorem Compacted.versions_eq (hc : Compacted db db' level p new) (ht : Taken db level p) :
    db'.versions = db.keptVersions level p ∪ {e | e ∈ db.output level p} := by
  ext e
  constructor
  · rintro ⟨l, t, htl, he⟩
    rcases (hc.mem_levels ht).1 htl with ⟨h1, h2⟩ | ⟨hnew, -⟩
    · exact .inl ⟨l, t, h1, he, h2⟩
    · exact .inr (hc.entriesOf_new.1 ⟨t, hnew, he⟩)
  · rintro (⟨l, t, htl, he, h⟩ | he)
    · exact ⟨l, t, (hc.mem_levels ht).2 (.inl ⟨htl, h⟩), he⟩
    · obtain ⟨t, hnew, he⟩ := hc.entriesOf_new.2 he
      exact ⟨level + 1, t, (hc.mem_levels ht).2 (.inr ⟨hnew, hc.newLevel t hnew⟩), he⟩

/-! ## What a compaction keeps -/

/-- Entries of one key differ in time. -/
def DB.DistinctTimes (db : DB Str) : Prop :=
  ∀ e ∈ db.versions, ∀ e' ∈ db.versions, e.key = e'.key → e.timestamp = e'.timestamp → e = e'

/-- The versions of a key on a level are newer than those on deeper levels. -/
def DB.NewerAbove (db : DB Str) : Prop :=
  ∀ l l', l < l' → ∀ e ∈ db.levelVersions l, ∀ e' ∈ db.levelVersions l', e.key = e'.key →
    e'.timestamp < e.timestamp

theorem mem_entriesOf_flatMap :
    e ∈ tables.flatMap entries ↔ e ∈ entriesOf tables := mem_flatMap

theorem newest_of_mem_collect (he : e ∈ collect (tables.flatMap entries)) :
    Newest Entry.key Entry.timestamp (entriesOf tables) e := by
  obtain ⟨h1, h2⟩ := mem_collect he
  exact ⟨mem_entriesOf_flatMap.1 h1, fun e' he' => h2 e' (mem_entriesOf_flatMap.2 he')⟩

/-- A kept version of a key is on a deeper level, if the newest version of the key is merged. -/
theorem Taken.deeper_of_kept (ht : Taken db level p) (hnew : db.NewerAbove) {d : Entry Str}
    (hd : Newest Entry.key Entry.timestamp db.versions d) (hdm : d ∈ db.mergedVersions level p)
    (he : e ∈ db.keptVersions level p) (hk : e.key = d.key) :
    e ∈ db.deeperVersions (level + 1) := by
  obtain ⟨l, t, htl, het, hkept⟩ := he
  have hle : e.timestamp ≤ d.timestamp := hd.2 e ⟨l, t, htl, het⟩ hk
  have hel : e ∈ db.levelVersions l := ⟨t, htl, het⟩
  by_contra hdeep
  have hl : l ≤ level + 1 := by
    by_contra h
    exact hdeep ⟨l, not_le.1 h, hel⟩
  rcases mem_mergedVersions.1 hdm with hdp | ⟨o, ho, hdo⟩
  · -- `d` is in a picked table, so its key is in the range of the picked tables
    obtain ⟨hmin, hmax⟩ := ht.key_range hdp
    obtain ⟨s, hs, hds⟩ := hdp
    have hdl : d ∈ db.levelVersions level := ⟨s, (ht.mem_level hs).1, hds⟩
    rcases lt_trichotomy l level with hlt | rfl | hlt
    · exact absurd (hnew l level hlt e hel d hdl hk) hle.not_gt
    · have hout := ht.lt_of_notMem htl (by rwa [gone_self] at hkept)
      exact absurd ((hk ▸ hmax).trans_lt hout) (minKey_le het).not_gt
    · obtain rfl : l = level + 1 := by omega
      rw [gone_next, mem_overlapping] at hkept
      refine hkept ⟨htl, overlapsWith_of_mem het ?_ ?_⟩
      · rwa [hk]
      · rwa [hk]
  · have hol := (mem_overlapping.1 ho).1
    have hdl : d ∈ db.levelVersions (level + 1) := ⟨o, hol, hdo⟩
    rcases hl.lt_or_eq with hlt | rfl
    · exact absurd (hnew l (level + 1) hlt e hel d hdl hk) hle.not_gt
    · have hto : t = o := eq_of_common_key (ht.disjoint (level + 1) (Nat.le_add_left 1 level))
        htl hol het hdo hk
      exact hkept (by rwa [gone_next, hto])

theorem mem_kept_of_deeper (he : e ∈ db.deeperVersions (level + 1)) :
    e ∈ db.keptVersions level p := by
  obtain ⟨l, hl, t, htl, het⟩ := he
  exact ⟨l, t, htl, het, by simp [gone, show l ≠ level by omega, hl.ne']⟩

/-- No entry of the key is newer. -/
def NewestIn (es : List (Entry Str)) (d : Entry Str) : Prop :=
  ∀ e ∈ es, e.key = d.key → e.timestamp ≤ d.timestamp

instance (es : List (Entry Str)) (d : Entry Str) : Decidable (NewestIn es d) :=
  inferInstanceAs (Decidable (∀ e ∈ es, e.key = d.key → e.timestamp ≤ d.timestamp))

/-- The tables below a level. -/
def DB.deeperFiles (db : DB Str) (l : Nat) : List (SSTable Str) :=
  ((range db.maxLevel).filter fun l' => decide (l < l')).flatMap db.levels

/-- The compaction keeps tombstones, or those it may drop hide nothing: no live version of the key
of a newest merged tombstone shows on the levels behind the next one. -/
def DB.SafeMerge (db : DB Str) (level : Nat) (p : Pick Str) : Prop :=
  db.hasDeeperOverlap (level + 1) p.minKey p.maxKey = true ∨
    ∀ d ∈ (p.tables ++ db.overlapping level p).flatMap entries, d.tombstone = true →
      NewestIn (db.files.flatMap entries) d →
      ∀ e ∈ (db.deeperFiles (level + 1)).flatMap entries, e.tombstone = false →
        NewestIn ((db.deeperFiles (level + 1)).flatMap entries) e → e.key ≠ d.key

instance (db : DB Str) (level : Nat) (p : Pick Str) : Decidable (db.SafeMerge level p) :=
  inferInstanceAs (Decidable (_ ∨ _))

theorem DB.Valid.lt_maxLevel (hv : db.Valid) {l : Nat} {t : SSTable Str} (ht : t ∈ db.levels l) :
    l < db.maxLevel := by
  by_contra hl
  rw [hv.beyond l (not_lt.1 hl)] at ht
  cases ht

theorem DB.Valid.mem_files (hv : db.Valid) : e ∈ db.files.flatMap entries ↔ e ∈ db.versions := by
  rw [mem_entriesOf_flatMap]
  constructor
  · rintro ⟨t, ht, he⟩
    obtain ⟨l, -, htl⟩ := mem_flatMap.1 ht
    exact ⟨l, t, htl, he⟩
  · rintro ⟨l, t, htl, he⟩
    exact ⟨t, mem_flatMap.2 ⟨l, mem_range.2 (hv.lt_maxLevel htl), htl⟩, he⟩

theorem DB.Valid.mem_deeperFiles (hv : db.Valid) {l : Nat} :
    e ∈ (db.deeperFiles l).flatMap entries ↔ e ∈ db.deeperVersions l := by
  rw [mem_entriesOf_flatMap]
  constructor
  · rintro ⟨t, ht, he⟩
    obtain ⟨l', hl', htl⟩ := mem_flatMap.1 ht
    exact ⟨l', of_decide_eq_true (mem_filter.1 hl').2, t, htl, he⟩
  · rintro ⟨l', hlt, t, htl, he⟩
    refine ⟨t, mem_flatMap.2 ⟨l', ?_, htl⟩, he⟩
    exact mem_filter.2 ⟨mem_range.2 (hv.lt_maxLevel htl), decide_eq_true hlt⟩

theorem Taken.safeMerge_iff (ht : Taken db level p) : db.SafeMerge level p ↔
    db.hasDeeperOverlap (level + 1) p.minKey p.maxKey = true ∨
      ∀ d e, Newest Entry.key Entry.timestamp db.versions d → d ∈ db.mergedVersions level p →
        d.Dead → Visible Entry.key Entry.timestamp Entry.Dead (db.deeperVersions (level + 1)) e →
          e.key ≠ d.key := by
  have hv := ht.valid
  have hnew : ∀ d, NewestIn (db.files.flatMap entries) d ↔
      ∀ e ∈ db.versions, e.key = d.key → e.timestamp ≤ d.timestamp := fun d =>
    forall_congr' fun e => by rw [hv.mem_files]
  have hdeep : ∀ d, NewestIn ((db.deeperFiles (level + 1)).flatMap entries) d ↔
      ∀ e ∈ db.deeperVersions (level + 1), e.key = d.key → e.timestamp ≤ d.timestamp := fun d =>
    forall_congr' fun e => by rw [hv.mem_deeperFiles]
  refine or_congr_right ?_
  constructor
  · intro h d e hd hdm hdead he
    refine h d (mem_entriesOf_flatMap.2 hdm) hdead ((hnew d).2 hd.2) e
      (hv.mem_deeperFiles.2 he.1.1) (Bool.eq_false_iff.2 he.2) ((hdeep e).2 he.1.2)
  · intro h d hdm hdead hd e he hlive hnewest
    have hdv : d ∈ db.versions := by
      rw [ht.versions_eq]
      exact .inr (mem_entriesOf_flatMap.1 hdm)
    exact h d e ⟨hdv, (hnew d).1 hd⟩ (mem_entriesOf_flatMap.1 hdm) hdead
      ⟨⟨hv.mem_deeperFiles.1 he, (hdeep e).1 hnewest⟩, Bool.eq_false_iff.1 hlive⟩

/-- A compaction keeps what the levels show exactly when it is safe to drop the tombstones. -/
theorem Compacted.shows_iff (hc : Compacted db db' level p new) (ht : Taken db level p)
    (hdist : db.DistinctTimes) (hnew : db.NewerAbove) :
    (∀ e, db'.Shows e ↔ db.Shows e) ↔ db.SafeMerge level p := by
  have hout : ∀ e, e ∈ db.output level p ↔
      e ∈ collect ((p.tables ++ db.overlapping level p).flatMap SSTable.entries) ∧
        (!e.tombstone || db.hasDeeperOverlap (level + 1) p.minKey p.maxKey) = true := fun e =>
    mem_filter
  have hdist' : ∀ e ∈ db.keptVersions level p ∪ db.mergedVersions level p,
      ∀ e' ∈ db.keptVersions level p ∪ db.mergedVersions level p,
        e.key = e'.key → e.timestamp = e'.timestamp → e = e' := by
    rw [← ht.versions_eq]
    exact hdist
  have hcollect : ∀ e, Newest Entry.key Entry.timestamp (db.mergedVersions level p) e →
      e ∈ collect ((p.tables ++ db.overlapping level p).flatMap SSTable.entries) := by
    intro e he
    obtain ⟨x, hx, hxk⟩ := exists_mem_collect (mem_entriesOf_flatMap.2 he.1)
    have hxe : x = e := Newest.unique (fun e he e' he' => hdist' e (.inr he) e' (.inr he'))
      (newest_of_mem_collect hx) he hxk
    exact hxe ▸ hx
  have hmerge := visible_merge_iff Entry.Dead {e | e ∈ db.output level p} hdist'
    (fun e he => newest_of_mem_collect ((hout e).1 he).1)
    (fun e he => by
      by_cases hdead : e.Dead
      · exact .inr hdead
      · left
        refine (hout e).2 ⟨hcollect e he, ?_⟩
        rw [Bool.eq_false_iff.2 hdead]
        rfl)
    (fun e he => by
      obtain ⟨x, hx, hxk⟩ := exists_mem_collect (mem_entriesOf_flatMap.2 he)
      exact ⟨x, newest_of_mem_collect hx, hxk⟩)
  rw [← ht.versions_eq, ← hc.versions_eq ht] at hmerge
  rw [ht.safeMerge_iff]
  refine hmerge.trans ?_
  constructor
  · intro h
    by_cases hdeep : db.hasDeeperOverlap (level + 1) p.minKey p.maxKey = true
    · exact .inl hdeep
    · right
      intro d e hd hdm hdead he hk
      refine h d e hd hdm (fun hdo => ?_) hdead ⟨⟨mem_kept_of_deeper he.1.1, ?_⟩, he.2⟩ hk
      · have hflag := ((hout d).1 hdo).2
        rw [hdead, Bool.eq_false_iff.2 hdeep] at hflag
        cases hflag
      · intro e' he' hk'
        exact he.1.2 e' (ht.deeper_of_kept hnew hd hdm he' (hk'.trans hk)) hk'
  · rintro (hdeep | hsafe) d e hd hdm hdo hdead he hk
    · refine hdo ((hout d).2 ⟨hcollect d ?_, ?_⟩)
      · exact hd.mono (ht.versions_eq ▸ Set.subset_union_right) hdm
      · rw [hdeep, Bool.or_true]
    · refine hsafe d e hd hdm hdead ⟨⟨ht.deeper_of_kept hnew hd hdm he.1.1 hk, ?_⟩, he.2⟩ hk
      intro e' he' hk'
      exact he.1.2 e' (mem_kept_of_deeper he') hk'

end Solocoder.LSM
