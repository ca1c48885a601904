import Solocoder.LSM.Proofs.LevelProofs

/-!
# Reads of the store

`Get` is right as long as every place it looks at has newer versions than the places behind it. On
level 0 this order can break: its tables are ordered by `MinKey`, and the last one is asked first.
-/

namespace Solocoder.LSM

open Lib List Function Option SSTable DB

variable {Str : Type} [GoString Str] {env : Env Str} {db db' : DB Str}

namespace DB

def memory (db : DB Str) : List (List (Entry Str)) :=
  db.memTable.data :: db.immutable.reverse.map MemTable.data

def memoryVersions (db : DB Str) : Set (Entry Str) := {e | ∃ m ∈ db.memory, e ∈ m}

def allVersions (db : DB Str) : Set (Entry Str) := db.memoryVersions ∪ db.versions

end DB

/-- Two tables of level 0 with a common key: the newer one has the greater `MinKey`. -/
def StackedPair (t t' : SSTable Str) : Prop :=
  (∀ e ∈ t.entries, ∀ e' ∈ t'.entries, e.key = e'.key →
    e.timestamp < e'.timestamp ∧ t.minKey < t'.minKey) ∨
  ∀ e ∈ t.entries, ∀ e' ∈ t'.entries, e.key = e'.key →
    e'.timestamp < e.timestamp ∧ t'.minKey < t.minKey

theorem StackedPair.symm {t t' : SSTable Str} (h : StackedPair t t') : StackedPair t' t := by
  rcases h with h | h
  · exact .inr fun e he e' he' hk => h e' he' e he hk.symm
  · exact .inl fun e he e' he' hk => h e' he' e he hk.symm

/-- What every step keeps of the levels, whatever the times of the writes. -/
structure Leveled (db : DB Str) : Prop where
  maxLevel : 0 < db.config.maxLevel
  valid : db.Valid
  disjoint : ∀ l, 1 ≤ l → Disjoint (db.levels l)

/-- The order of versions that `Get` relies on. -/
structure Sound (db : DB Str) : Prop extends Leveled db where
  newer : db.NewerAbove
  stacked : (db.levels 0).Pairwise StackedPair
  memory : db.memory.Pairwise fun a b => Above Entry.key Entry.timestamp {e | e ∈ a} {e | e ∈ b}
  above : Above Entry.key Entry.timestamp db.memoryVersions db.versions
  flushing : db.flushing = none

/-! ## The search -/

section Search

theorem answers_lookup {es : List (Entry Str)} (hk : Keyed es) (key : Str) :
    Answers Entry.key Entry.timestamp key {e | e ∈ es} (lookup es key) := by
  constructor
  · intro e he
    obtain ⟨hmem, hkey⟩ := (lookup_eq_some hk).1 he
    refine ⟨⟨hmem, fun e' he' hkk => ?_⟩, hkey⟩
    rw [hk.unique he' hmem hkk]
  · intro hn e he
    exact lookup_eq_none.1 hn e he

theorem answers_table (t : SSTable Str) (key : Str) :
    Answers Entry.key Entry.timestamp key {e | e ∈ t.entries} (t.get key) := by
  have hget : t.get key = lookup t.entries key := by
    ext e
    rw [get_eq_some, lookup_eq_some t.keyed]
  rw [hget]
  exact answers_lookup t.keyed key

theorem Sound.level_zero (hs : Sound db) : (db.levels 0).reverse.Pairwise fun t t' =>
    Above Entry.key Entry.timestamp {e | e ∈ t.entries} {e | e ∈ t'.entries} := by
  rw [pairwise_reverse]
  refine (Pairwise.and (hs.valid.ordered 0) hs.stacked).imp fun {t t'} h => ?_
  intro e he e' he' hk
  rcases h.2 with hst | hst
  · exact (hst e' he' e he hk.symm).1
  · exact absurd (hst e' he' e he hk.symm).2 h.1.not_gt

theorem Sound.answers_level (hs : Sound db) (l : Nat) (key : Str) :
    Answers Entry.key Entry.timestamp key (db.levelVersions l) (Level.get l (db.levels l) key) := by
  by_cases hl : l = 0
  · subst hl
    have h := answers_findSome? (k := key) (f := fun t : SSTable Str => t.get key)
      (fun t _ => answers_table t key) hs.level_zero
    have hset : {e | ∃ t ∈ (db.levels 0).reverse, e ∈ {e | e ∈ t.entries}} = db.levelVersions 0 := by
      simp [levelVersions]
    rwa [hset] at h
  · have hd := hs.disjoint l (Nat.one_le_iff_ne_zero.2 hl)
    have ho := hs.valid.ordered l
    constructor
    · intro e he
      obtain ⟨t, ht, het, hk⟩ := (Level.get_eq_some hl ho hd).1 he
      refine ⟨⟨⟨t, ht, het⟩, ?_⟩, hk⟩
      rintro e' ⟨t', ht', het'⟩ hkk
      obtain rfl := Taken.eq_of_common_key hd ht' ht het' het hkk
      rw [t'.keyed.unique het' het hkk]
    · rintro hn e ⟨t, ht, het⟩ hk
      have hsome := (Level.get_eq_some hl ho hd).2 ⟨t, ht, het, hk⟩
      rw [hn] at hsome
      cases hsome

theorem Sound.answers_levels (hs : Sound db) (key : Str) :
    Answers Entry.key Entry.timestamp key db.versions
      ((range db.maxLevel).findSome? fun l => Level.get l (db.levels l) key) := by
  have h := answers_findSome? (k := key) (l := range db.maxLevel)
    (fun l _ => hs.answers_level l key)
    (pairwise_lt_range.imp fun hlt => hs.newer _ _ hlt)
  have hset : {e | ∃ l ∈ range db.maxLevel, e ∈ db.levelVersions l} = db.versions := by
    ext e
    constructor
    · rintro ⟨l, -, he⟩
      exact ⟨l, he⟩
    · rintro ⟨l, t, ht, he⟩
      exact ⟨l, mem_range.2 (hs.valid.lt_maxLevel ht), t, ht, he⟩
  rwa [hset] at h

theorem keyed_of_mem_memory {m : List (Entry Str)} (hm : m ∈ db.memory) : Keyed m := by
  rcases mem_cons.1 hm with rfl | hm
  · exact db.memTable.keyed
  · obtain ⟨mt, -, rfl⟩ := mem_map.1 hm
    exact mt.keyed

theorem search_eq (hf : db.flushing = none) (key : Str) :
    db.search key = (db.memory.findSome? fun m => lookup m key).or
      ((range db.maxLevel).findSome? fun l => Level.get l (db.levels l) key) := by
  rw [search, hf, memory, findSome?_cons, findSome?_map]
  show ((lookup db.memTable.data key).or _) = _
  cases lookup db.memTable.data key with
  | none => rfl
  | some e => rfl

theorem Sound.answers_search (hs : Sound db) (key : Str) :
    Answers Entry.key Entry.timestamp key db.allVersions (db.search key) := by
  rw [search_eq hs.flushing]
  have hmem := answers_findSome? (k := key) (f := fun m : List (Entry Str) => lookup m key)
    (fun m hm => answers_lookup (keyed_of_mem_memory hm) key) hs.memory
  exact hmem.or (hs.answers_levels key) hs.above

end Search

/-! ## Times -/

section Times

theorem Sound.distinctTimes (hs : Sound db) : db.DistinctTimes := by
  rintro e ⟨l, t, ht, he⟩ e' ⟨l', t', ht', he'⟩ hk htime
  rcases lt_trichotomy l l' with hlt | rfl | hlt
  · exact absurd htime (hs.newer l l' hlt e ⟨t, ht, he⟩ e' ⟨t', ht', he'⟩ hk).ne'
  · have htt : t = t' := by
      by_cases hl : l = 0
      · subst hl
        by_contra hne
        have : Std.Symm fun t t' : SSTable Str => StackedPair t t' := ⟨fun _ _ h => h.symm⟩
        rcases Pairwise.forall hs.stacked ht ht' hne with h | h
        · exact (h e he e' he' hk).1.ne htime
        · exact (h e he e' he' hk).1.ne' htime
      · exact Taken.eq_of_common_key (hs.disjoint l (Nat.one_le_iff_ne_zero.2 hl)) ht ht' he he' hk
    subst htt
    exact t.keyed.unique he he' hk
  · exact absurd htime (hs.newer l' l hlt e' ⟨t', ht', he'⟩ e ⟨t, ht, he⟩ hk.symm).ne

theorem Sound.distinct_memory (hs : Sound db) {e e' : Entry Str} (he : e ∈ db.memoryVersions)
    (he' : e' ∈ db.memoryVersions) (hk : e.key = e'.key) (htime : e.timestamp = e'.timestamp) :
    e = e' := by
  obtain ⟨m, hm, he⟩ := he
  obtain ⟨m', hm', he'⟩ := he'
  obtain ⟨i, hi, rfl⟩ := getElem_of_mem hm
  obtain ⟨j, hj, rfl⟩ := getElem_of_mem hm'
  have hlt := pairwise_iff_getElem.1 hs.memory
  rcases lt_trichotomy i j with hij | rfl | hij
  · exact absurd htime (hlt i j hi hj hij e he e' he' hk).ne'
  · exact (keyed_of_mem_memory hm).unique he he' hk
  · exact absurd htime (hlt j i hj hi hij e' he' e he hk.symm).ne

theorem Sound.distinct (hs : Sound db) : ∀ e ∈ db.allVersions, ∀ e' ∈ db.allVersions,
    e.key = e'.key → e.timestamp = e'.timestamp → e = e' := by
  rintro e (he | he) e' (he' | he') hk htime
  · exact hs.distinct_memory he he' hk htime
  · exact absurd htime (hs.above e he e' he' hk).ne'
  · exact absurd htime (hs.above e' he' e he hk.symm).ne
  · exact hs.distinctTimes e he e' he' hk htime

end Times

/-! ## What the store shows -/

def DB.Live (db : DB Str) (e : Entry Str) : Prop :=
  Visible Entry.key Entry.timestamp Entry.Dead db.allVersions e

def Holds (db : DB Str) (f : Str → Option Str) : Prop :=
  ∀ k, k ≠ ⊥ → ∀ v, f k = some v ↔ ∃ e, db.Live e ∧ e.key = k ∧ e.value = v

theorem Holds.congr {f : Str → Option Str} (hf : Holds db f) (h : ∀ e, db'.Live e ↔ db.Live e) :
    Holds db' f := by
  intro k hk v
  rw [hf k hk v]
  exact exists_congr fun e => by rw [h]

/-- What `Get` returns. -/
def answer : Option Str → Except DBError Str
  | some v => .ok v
  | none => .error .keyNotFound

theorem Sound.get_eq (hs : Sound db) (ho : db.closed = false) {f : Str → Option Str}
    (hf : Holds db f) {k : Str} (hk : k ≠ ⊥) : db.get k = answer (f k) := by
  have hans := hs.answers_search k
  rw [DB.get, if_neg hk, ho]
  have hlive : ∀ v, f k = some v ↔ ∃ e, db.Live e ∧ e.key = k ∧ e.value = v := hf k hk
  cases hsearch : db.search k with
  | none =>
    have hnone : f k = none := by
      rw [eq_none_iff_forall_ne_some]
      intro v hv
      obtain ⟨e, he, hek, -⟩ := (hlive v).1 hv
      exact hans.2 hsearch e he.1.1 hek
    rw [hnone]
    rfl
  | some e =>
    obtain ⟨hnew, hek⟩ := hans.1 e hsearch
    show (if e.tombstone = true then _ else _) = _
    by_cases hdead : e.tombstone = true
    · have hnone : f k = none := by
        rw [eq_none_iff_forall_ne_some]
        intro v hv
        obtain ⟨x, hx, hxk, -⟩ := (hlive v).1 hv
        have hxe : x = e := Newest.unique hs.distinct hx.1 hnew (hxk.trans hek.symm)
        exact hx.2 (hxe ▸ hdead)
      rw [if_pos hdead, hnone]
      rfl
    · have hsome : f k = some e.value := (hlive e.value).2 ⟨e, ⟨hnew, hdead⟩, hek, rfl⟩
      rw [if_neg hdead, hsome]
      rfl

/-! ## The steps -/

section Steps

variable {e entry : Entry Str} {t : SSTable Str} {level : Nat} {p : Pick Str}
  {new : List (SSTable Str)}

theorem mem_memoryVersions : e ∈ db.memoryVersions ↔
    e ∈ db.memTable.data ∨ ∃ mt ∈ db.immutable, e ∈ mt.data := by
  simp [memoryVersions, memory]

theorem mem_store {mt : MemTable Str} {y : Entry Str} :
    y ∈ (mt.store entry).data ↔ y = entry ∨ (y ∈ mt.data ∧ y.key ≠ entry.key) := by
  have h : y ∈ upsert (fun _ e => e) entry mt.data ↔ _ := mem_upsert mt.keyed
  have helim : ((lookup mt.data entry.key).elim entry fun _ => entry) = entry := by
    cases lookup mt.data entry.key <;> rfl
  rw [helim] at h
  exact h.trans or_comm

theorem mem_allVersions_store {y : Entry Str}
    (hy : y ∈ allVersions { db with memTable := db.memTable.store entry }) :
    y = entry ∨ y ∈ db.allVersions := by
  rcases hy with hy | hy
  · rcases mem_memoryVersions.1 hy with hy | hy
    · exact (mem_store.1 hy).imp_right fun h => .inl (mem_memoryVersions.2 (.inl h.1))
    · exact .inr (.inl (mem_memoryVersions.2 (.inr hy)))
  · exact .inr (.inr hy)

theorem Leveled.congr (h : Leveled db) (hconf : db'.config = db.config)
    (hlev : db'.levels = db.levels) (hseq : db'.seqNum = db.seqNum) : Leveled db' :=
  ⟨hconf ▸ h.maxLevel, h.valid.congr hlev hseq (by rw [DB.maxLevel, hconf]; rfl), hlev ▸ h.disjoint⟩

theorem Sound.of_memory (hs : Sound db) (hconf : db'.config = db.config)
    (hlev : db'.levels = db.levels) (hseq : db'.seqNum = db.seqNum) (hflush : db'.flushing = none)
    (hmem : db'.memory.Pairwise fun a b =>
      Above Entry.key Entry.timestamp {e | e ∈ a} {e | e ∈ b})
    (habove : Above Entry.key Entry.timestamp db'.memoryVersions db.versions) : Sound db' :=
  have hver : db'.versions = db.versions := by rw [versions, versions]; simp [levelVersions, hlev]
  { hs.toLeveled.congr hconf hlev hseq with
    newer := by
      intro l l' hll
      rw [levelVersions, levelVersions, hlev]
      exact hs.newer l l' hll
    stacked := by rw [hlev]; exact hs.stacked
    memory := hmem
    above := by rw [hver]; exact habove
    flushing := hflush }

theorem Sound.store (hs : Sound db) (hnow : ∀ e ∈ db.allVersions, e.timestamp < entry.timestamp) :
    Sound { db with memTable := db.memTable.store entry } := by
  obtain ⟨hfirst, hrest⟩ := pairwise_cons.1 hs.memory
  refine hs.of_memory rfl rfl rfl hs.flushing ?_ ?_
  · refine pairwise_cons.2 ⟨fun m hm e he e' he' hk => ?_, hrest⟩
    rcases mem_store.1 he with rfl | ⟨he, -⟩
    · exact hnow e' (.inl ⟨m, mem_cons_of_mem _ hm, he'⟩)
    · exact hfirst m hm e he e' he' hk
  · intro e he e' he' hk
    rcases mem_memoryVersions.1 he with he | ⟨mt, hmt, he⟩
    · rcases mem_store.1 he with rfl | ⟨he, -⟩
      · exact hnow e' (.inr he')
      · exact hs.above e (mem_memoryVersions.2 (.inl he)) e' he' hk
    · exact hs.above e (mem_memoryVersions.2 (.inr ⟨mt, hmt, he⟩)) e' he' hk

theorem live_store (hnow : ∀ e ∈ db.allVersions, e.timestamp < entry.timestamp) :
    Live { db with memTable := db.memTable.store entry } e ↔
      (e = entry ∧ entry.tombstone = false) ∨ (db.Live e ∧ e.key ≠ entry.key) := by
  have hself : entry ∈ allVersions { db with memTable := db.memTable.store entry } :=
    .inl (mem_memoryVersions.2 (.inl (mem_store.2 (.inl rfl))))
  have hsup : ∀ x ∈ db.allVersions, x.key ≠ entry.key →
      x ∈ allVersions { db with memTable := db.memTable.store entry } := by
    rintro x (hx | hx) hne
    · left
      rcases mem_memoryVersions.1 hx with hx | hx
      · exact mem_memoryVersions.2 (.inl (mem_store.2 (.inr ⟨hx, hne⟩)))
      · exact mem_memoryVersions.2 (.inr hx)
    · exact .inr hx
  constructor
  · rintro ⟨⟨he, hmax⟩, hlive⟩
    by_cases hk : e.key = entry.key
    · left
      rcases mem_allVersions_store he with rfl | hold
      · exact ⟨rfl, Bool.eq_false_iff.2 hlive⟩
      · exact absurd (hmax entry hself hk.symm) (hnow e hold).not_ge
    · right
      have hold : e ∈ db.allVersions := (mem_allVersions_store he).resolve_left fun h => hk (h ▸ rfl)
      refine ⟨⟨⟨hold, fun x hx hxk => ?_⟩, hlive⟩, hk⟩
      exact hmax x (hsup x hx fun h => hk (hxk.symm.trans h)) hxk
  · rintro (⟨rfl, hlive⟩ | ⟨⟨⟨he, hmax⟩, hlive⟩, hk⟩)
    · refine ⟨⟨hself, fun x hx _ => ?_⟩, Bool.eq_false_iff.1 hlive⟩
      rcases mem_allVersions_store hx with rfl | hold
      · exact le_rfl
      · exact (hnow x hold).le
    · refine ⟨⟨hsup e he hk, fun x hx hxk => ?_⟩, hlive⟩
      exact hmax x ((mem_allVersions_store hx).resolve_left fun h => hk (hxk.symm.trans (h ▸ rfl)))
        hxk

theorem memory_rotate : db.rotate.memory = [] :: db.memory := by
  simp [DB.rotate, memory, MemTable.newMemTable]

theorem memoryVersions_rotate : db.rotate.memoryVersions = db.memoryVersions := by
  simp [memoryVersions, memory_rotate]

theorem allVersions_rotate : db.rotate.allVersions = db.allVersions := by
  rw [allVersions, memoryVersions_rotate]
  rfl

theorem Sound.rotate (hs : Sound db) : Sound db.rotate := by
  refine hs.of_memory rfl rfl rfl hs.flushing ?_ ?_
  · rw [memory_rotate]
    refine pairwise_cons.2 ⟨fun m _ e he => ?_, hs.memory⟩
    cases he
  · rw [memoryVersions_rotate]
    exact hs.above

/-- The table of the memtable that is flushed next comes behind those of level 0 that it shares a key
with. -/
def DB.FlushSafe (db : DB Str) : Prop :=
  ∀ mt ∈ db.immutable.head?, ∀ t ∈ db.levels 0,
    (∃ e ∈ t.entries, ∃ e' ∈ mt.data, e.key = e'.key) → ∀ e' ∈ mt.data, t.minKey < e'.key

instance (db : DB Str) : Decidable db.FlushSafe :=
  inferInstanceAs (Decidable (∀ mt ∈ db.immutable.head?, _))

theorem flush_nil (h : db.immutable = []) : db.flush env = db := by rw [flush, h]

/-- The state without the oldest frozen memtable. -/
def DB.thawed (db : DB Str) : DB Str :=
  { db with immutable := db.immutable.tail, flushing := none }

theorem flush_eq {mt : MemTable Str} {rest : List (MemTable Str)} (h : db.immutable = mt :: rest) :
    db.flush env = db.thawed.flushMemTable env mt := by
  rw [flush, h]
  simp only [flushMemTable, thawed, h, tail_cons]
  cases newSSTable 0 db.seqNum mt.data <;> rfl

theorem Added.memory (ha : Added db db' t) : db'.memory = db.memory := by
  rw [ha.same]
  rfl

theorem Added.mem_versions (ha : Added db db' t) :
    e ∈ db'.versions ↔ e ∈ db.versions ∨ e ∈ t.entries := by
  constructor
  · rintro ⟨l, x, hx, he⟩
    rcases ha.mem_levels.1 hx with h | ⟨-, rfl⟩
    · exact .inl ⟨l, x, h, he⟩
    · exact .inr he
  · rintro (⟨l, x, hx, he⟩ | he)
    · exact ⟨l, x, ha.mem_levels.2 (.inl hx), he⟩
    · exact ⟨0, t, ha.mem_levels.2 (.inr ⟨rfl, rfl⟩), he⟩

theorem Added.leveled (ha : Added db db' t) (h : Leveled db) : Leveled db' := by
  have hpos : 0 < db.maxLevel := by
    have := h.maxLevel
    rw [maxLevel]
    omega
  exact ⟨by rw [ha.same]; exact h.maxLevel, ha.valid h.valid (by simp [ha.level, hpos]),
    ha.disjoint h.disjoint⟩

theorem Sound.added (hs : Sound db) (ha : Added db db' t)
    (hover : Above Entry.key Entry.timestamp db.memoryVersions {e | e ∈ t.entries})
    (hunder : Above Entry.key Entry.timestamp {e | e ∈ t.entries} db.versions)
    (hstack : ∀ x ∈ db.levels 0, (∃ e ∈ x.entries, ∃ e' ∈ t.entries, e.key = e'.key) → x.minKey <
      t.minKey) : Sound db' :=
  { ha.leveled hs.toLeveled with
    newer := by
      rintro l l' hll e ⟨x, hx, he⟩ e' ⟨x', hx', he'⟩ hk
      rcases ha.mem_levels.1 hx' with h' | ⟨rfl, -⟩
      · rcases ha.mem_levels.1 hx with h | ⟨-, rfl⟩
        · exact hs.newer l l' hll e ⟨x, h, he⟩ e' ⟨x', h', he'⟩ hk
        · exact hunder e he e' ⟨l', x', h', he'⟩ hk
      · exact absurd hll (Nat.not_lt_zero l)
    stacked := by
      refine (Perm.pairwise_iff StackedPair.symm (ha.perm 0)).2 ?_
      refine pairwise_append.2 ⟨hs.stacked, pairwise_singleton _ _, fun x hx y hy => ?_⟩
      rw [mem_singleton.1 hy]
      left
      intro e he e' he' hk
      exact ⟨hunder e' he' e ⟨0, x, hx, he⟩ hk.symm, hstack x hx ⟨e, he, e', he', hk⟩⟩
    memory := by rw [ha.memory]; exact hs.memory
    above := by
      intro e he e' he' hk
      rw [memoryVersions, ha.memory] at he
      rcases ha.mem_versions.1 he' with he' | he'
      · exact hs.above e he e' he' hk
      · exact hover e he e' he' hk
    flushing := by rw [ha.same]; exact hs.flushing }

theorem Sound.flush (env : Env Str) (hs : Sound db) (hsafe : db.FlushSafe) :
    Sound (db.flush env) ∧ (db.flush env).allVersions = db.allVersions := by
  cases himm : db.immutable with
  | nil =>
    rw [flush_nil himm]
    exact ⟨hs, rfl⟩
  | cons mt rest =>
    have hmemory : db.memory = db.thawed.memory ++ [mt.data] := by
      simp [DB.memory, thawed, himm]
    obtain ⟨hmem1, -, hmem2⟩ := pairwise_append.1 (hmemory ▸ hs.memory)
    have hsplit : ∀ e, e ∈ db.memoryVersions ↔ e ∈ db.thawed.memoryVersions ∨ e ∈ mt.data := by
      rw [memoryVersions, hmemory]
      simp [memoryVersions, or_and_right, exists_or]
    have hbase : Sound db.thawed :=
      hs.of_memory rfl rfl rfl rfl hmem1 fun e he => hs.above e ((hsplit e).2 (.inl he))
    rw [flush_eq himm]
    rcases flushMemTable_cases env db.thawed mt with ⟨hnil, hsame⟩ | ⟨t, hent, ha⟩
    · rw [hsame]
      refine ⟨hbase, ?_⟩
      ext e
      simp [allVersions, hsplit, hnil, versions, levelVersions, thawed]
    · refine ⟨hbase.added ha ?_ ?_ ?_, ?_⟩
      · rintro e ⟨m, hm, he⟩ e' he' hk
        rw [hent] at he'
        exact hmem2 m hm mt.data (mem_singleton_self _) e he e' he' hk
      · intro e he e' he' hk
        rw [hent] at he
        exact hs.above e ((hsplit e).2 (.inr he)) e' he' hk
      · rintro x hx ⟨e, he, e', he', hk⟩
        obtain ⟨y, hy, hyk⟩ := t.exists_minKey
        rw [hent] at he' hy
        rw [← hyk]
        exact hsafe mt (by rw [himm]; rfl) x hx ⟨e, he, e', he', hk⟩ y hy
      · ext e
        have hver : db.thawed.versions = db.versions := rfl
        rw [allVersions, allVersions, Set.mem_union, Set.mem_union, ha.mem_versions, hent,
          hsplit, memoryVersions, ha.memory, ← memoryVersions, hver]
        tauto

/-- The level can be compacted: there is a next level, and the tombstones that may be dropped hide
nothing. -/
def DB.CanCompact (db : DB Str) (level : Nat) : Prop :=
  level < db.maxLevel ∧ ∀ p ∈ pick level (db.levels level),
    level + 1 < db.maxLevel ∧ db.SafeMerge level p

instance (db : DB Str) (level : Nat) : Decidable (db.CanCompact level) :=
  inferInstanceAs (Decidable (_ ∧ ∀ p ∈ pick level (db.levels level), _))

theorem lt_maxLevel_of_compactLevel (hc : db.compactLevel env level = some db') :
    level < db.maxLevel := by
  by_contra hl
  rw [compactLevel, if_neg hl] at hc
  cases hc

theorem next_lt_of_compactLevel (hc : db.compactLevel env level = some db')
    (hp : pick level (db.levels level) = some p) : level + 1 < db.maxLevel := by
  by_contra hnext
  rw [compactLevel, if_pos (lt_maxLevel_of_compactLevel hc), hp] at hc
  simp only [if_neg hnext] at hc
  cases hc

theorem compactLevel_of_pick_none (hl : level < db.maxLevel)
    (hp : pick level (db.levels level) = none) : db.compactLevel env level = some db := by
  rw [compactLevel, if_pos hl, hp]

namespace Compacted

variable (hc : Compacted db db' level p new)
include hc

theorem memory : db'.memory = db.memory := by
  rw [hc.same]
  rfl

theorem versions_subset (ht : Taken db level p) : db'.versions ⊆ db.versions := by
  rw [hc.versions_eq ht, ht.versions_eq]
  exact Set.union_subset_union_right _ fun e he => mem_merged_of_output he

theorem leveled (ht : Taken db level p) (hl : level + 1 < db.maxLevel) (h : Leveled db) :
    Leveled db' :=
  ⟨by rw [hc.same]; exact h.maxLevel, hc.valid h.valid fun t ht => hc.newLevel t ht ▸ hl,
    hc.disjoint ht⟩

theorem sound (ht : Taken db level p) (hl : level + 1 < db.maxLevel) (hs : Sound db) : Sound db' :=
  { hc.leveled ht hl hs.toLeveled with
    newer := hc.newerAbove ht hs.newer
    stacked := by
      have hnone : (new.filter fun t => decide (t.level = 0)) = [] :=
        filter_eq_nil_iff.2 fun t ht => by simp [hc.newLevel t ht]
      refine (Perm.pairwise_iff StackedPair.symm (hc.levels 0)).2 ?_
      rw [hnone, append_nil]
      exact hs.stacked.sublist filter_sublist
    memory := by rw [hc.memory]; exact hs.memory
    above := by
      rw [memoryVersions, hc.memory]
      exact fun e he e' he' => hs.above e he e' (hc.versions_subset ht he')
    flushing := by rw [hc.same]; exact hs.flushing }

end Compacted

theorem Sound.compact (env : Env Str) (hs : Sound db) (hcan : db.CanCompact level) :
    ∃ db', db.compactLevel env level = some db' ∧ Sound db' ∧ (∀ e, db'.Live e ↔ db.Live e) ∧
      db'.closed = db.closed ∧ db'.allVersions ⊆ db.allVersions := by
  obtain ⟨hl, hpick⟩ := hcan
  cases hp : pick level (db.levels level) with
  | none => exact ⟨db, compactLevel_of_pick_none hl hp, hs, fun e => Iff.rfl, rfl, subset_rfl⟩
  | some p =>
    obtain ⟨hnext, hsafe⟩ := hpick p hp
    have ht : Taken db level p := ⟨hs.valid, hs.disjoint, hp⟩
    obtain ⟨db', new, hcomp, hc⟩ := compactLevel_spec env hnext hp
    have hshow := (hc.shows_iff ht hs.distinctTimes hs.newer).2 hsafe
    have hmem : db'.memoryVersions = db.memoryVersions := by
      rw [memoryVersions, hc.memory]
      rfl
    have hs' := hc.sound ht hnext hs
    refine ⟨db', hcomp, hs', fun e => ?_, by rw [hc.same], ?_⟩
    · have h1 := visible_union_iff Entry.Dead hs'.above (e := e)
      have h2 := visible_union_iff Entry.Dead hs.above (e := e)
      rw [Live, Live, allVersions, allVersions, h1, h2, hmem]
      exact or_congr_right (and_congr_left fun _ => hshow e)
    · rw [allVersions, hmem]
      exact Set.union_subset_union_right _ (hc.versions_subset ht)

theorem flush_rest (env : Env Str) (db : DB Str) : (db.flush env).config = db.config ∧
    (db.flush env).memTable = db.memTable ∧ (db.flush env).immutable = db.immutable.tail ∧
    (db.flush env).closed = db.closed := by
  cases himm : db.immutable with
  | nil =>
    rw [flush_nil himm, himm]
    exact ⟨rfl, rfl, rfl, rfl⟩
  | cons mt rest =>
    rw [flush_eq himm]
    rcases flushMemTable_cases env db.thawed mt with ⟨-, hsame⟩ | ⟨t, -, ha⟩
    · rw [hsame, thawed, himm]
      exact ⟨rfl, rfl, rfl, rfl⟩
    · rw [ha.same, thawed, himm]
      exact ⟨rfl, rfl, rfl, rfl⟩

theorem Sound.flushes (hs : Sound db) {n : Nat} (hsafe : ∀ i < n, (db.flushes env i).FlushSafe) :
    Sound (db.flushes env n) ∧ (db.flushes env n).allVersions = db.allVersions ∧
      (db.flushes env n).config = db.config ∧ (db.flushes env n).memTable = db.memTable ∧
      (db.flushes env n).immutable = db.immutable.drop n := by
  induction n with
  | zero => exact ⟨hs, rfl, rfl, rfl, rfl⟩
  | succ n ih =>
    obtain ⟨h1, h2, h3, h4, h5⟩ := ih fun i hi => hsafe i (Nat.lt_succ_of_lt hi)
    obtain ⟨hs', hv⟩ := h1.flush env (hsafe n (Nat.lt_succ_self n))
    obtain ⟨g1, g2, g3, -⟩ := flush_rest env (db.flushes env n)
    refine ⟨hs', hv.trans h2, g1.trans h3, g2.trans h4, g3.trans ?_⟩
    rw [h5, tail_drop]

/-- Every memtable that `Close` writes comes behind the tables of level 0 that it shares a key
with. -/
def DB.CloseSafe (env : Env Str) (db : DB Str) : Prop :=
  ∀ i < db.closing.immutable.length, (db.closing.flushes env i).FlushSafe

instance (db : DB Str) : Decidable (db.CloseSafe env) :=
  inferInstanceAs (Decidable (∀ i < db.closing.immutable.length, _))

theorem Sound.closing (hs : Sound db) : Sound db.closing ∧ db.closing.allVersions = db.allVersions ∧
    db.closing.config = db.config ∧ db.closing.memTable.data = [] := by
  have hclosed : Sound { db with closed := true } :=
    hs.of_memory rfl rfl rfl hs.flushing hs.memory hs.above
  rw [DB.closing]
  by_cases h : 0 < db.memTable.data.length
  · rw [if_pos h]
    exact ⟨hclosed.rotate, allVersions_rotate, rfl, rfl⟩
  · rw [if_neg h]
    exact ⟨hclosed, rfl, rfl, length_eq_zero_iff.1 (Nat.eq_zero_of_not_pos h)⟩

namespace Reopened

variable (hr : Reopened db db')
include hr

theorem mem_versions {l : Nat} : e ∈ db'.levelVersions l ↔ e ∈ db.levelVersions l :=
  exists_congr fun _ => and_congr_left fun _ => (hr.levels l).mem_iff

theorem memory : db'.memory = [[]] := by
  rw [DB.memory, hr.memTable, hr.immutable]
  rfl

theorem leveled (h : Leveled db) : Leveled db' := by
  refine ⟨?_, hr.valid, fun l hl => ?_⟩
  · have hmax := hr.maxLevel
    have := h.maxLevel
    rw [DB.maxLevel, DB.maxLevel] at hmax
    omega
  · exact (Perm.pairwise_iff (fun h => h.symm) (hr.levels l)).2 (h.disjoint l hl)

theorem sound (hs : Sound db) : Sound db' :=
  { hr.leveled hs.toLeveled with
    newer := fun l l' hll e he e' he' => hs.newer l l' hll e (hr.mem_versions.1 he) e'
      (hr.mem_versions.1 he')
    stacked := (Perm.pairwise_iff StackedPair.symm (hr.levels 0)).2 hs.stacked
    memory := by
      rw [hr.memory]
      exact pairwise_singleton _ _
    above := by
      rintro e ⟨m, hm, he⟩
      rw [hr.memory, mem_singleton] at hm
      subst hm
      cases he
    flushing := hr.flushing }

theorem allVersions (hm : db.memory = [[]]) : db'.allVersions = db.allVersions := by
  have hver : db'.versions = db.versions := by
    ext e
    exact exists_congr fun l => hr.mem_versions
  rw [DB.allVersions, DB.allVersions, memoryVersions, memoryVersions, hr.memory, hm, hver]

end Reopened

theorem Sound.reopen (hs : Sound db) (hsafe : db.CloseSafe env) :
    Sound (db.reopen env) ∧ (db.reopen env).allVersions = db.allVersions ∧
      (db.reopen env).closed = false := by
  obtain ⟨hs1, hv1, hc1, hm1⟩ := hs.closing
  obtain ⟨hs2, hv2, hc2, hm2, hi2⟩ := hs1.flushes hsafe
  have hconf : (db.close env).config = db.config := hc2.trans hc1
  have hmem : (db.close env).memory = [[]] := by
    have himm : (db.close env).immutable = [] := by
      show (db.closing.flushes env _).immutable = []
      rw [hi2, drop_length]
    have hdata : (db.close env).memTable.data = [] := by
      show (db.closing.flushes env _).memTable.data = []
      rw [hm2, hm1]
    rw [DB.memory, hdata, himm]
    rfl
  have hr : Reopened (db.close env) (newDB env (db.close env).config (db.close env).files) :=
    newDB_spec env hs2.valid hs2.maxLevel
  rw [hconf] at hr
  exact ⟨hr.sound hs2, (hr.allVersions hmem).trans (hv2.trans hv1), hr.opened⟩

end Steps

/-! ## Runs -/

section Runs

theorem runCompactionFrom_run {fuel level : Nat} (h : runCompactionFrom env fuel db level = some db') :
    ∃ levels : List Nat, db.run env (levels.map Op.compact) = some db' := by
  induction fuel generalizing db level with
  | zero => cases h
  | succ fuel ih =>
    rw [runCompactionFrom] at h
    split_ifs at h with hl hneeds
    · obtain ⟨db1, h1, h2⟩ := bind_eq_some_iff.1 h
      obtain ⟨levels, hrun⟩ := ih h2
      refine ⟨level :: levels, ?_⟩
      show (db.compactLevel env level).bind _ = some db'
      rw [h1]
      exact hrun
    · exact ih h
    · exact ⟨[], h⟩

/-- The map after a step, as the caller sees it. -/
def Op.apply (f : Str → Option Str) : Op Str → Str → Option Str
  | .put _ key value => update f key (some value)
  | .delete _ key => update f key none
  | _ => f

/-- What was written last, for every key. -/
def lastWrites (ops : List (Op Str)) : Str → Option Str := ops.foldl Op.apply fun _ => none

/-- The time of a write. -/
def Op.time? : Op Str → Option Int
  | .put now _ _ => some now
  | .delete now _ => some now
  | _ => none

/-- The step meets the condition in the state before it. -/
def DB.StepSafe (env : Env Str) (db : DB Str) : Op Str → Prop
  | .flush => db.FlushSafe
  | .compact level => db.CanCompact level
  | .reopen => db.CloseSafe env
  | _ => True

instance (db : DB Str) : (op : Op Str) → Decidable (db.StepSafe env op)
  | .flush => inferInstanceAs (Decidable db.FlushSafe)
  | .compact level => inferInstanceAs (Decidable (db.CanCompact level))
  | .reopen => inferInstanceAs (Decidable (db.CloseSafe env))
  | .put .. => .isTrue trivial
  | .delete .. => .isTrue trivial
  | .rotate => .isTrue trivial

/-- Every step of the run is safe. -/
def DB.RunSafe (env : Env Str) (db : DB Str) : List (Op Str) → Prop
  | [] => True
  | op :: ops => db.StepSafe env op ∧ ∀ db' ∈ db.step env op, db'.RunSafe env ops

instance decidableRunSafe : (db : DB Str) → (ops : List (Op Str)) → Decidable (db.RunSafe env ops)
  | _, [] => .isTrue trivial
  | db, op :: ops =>
    have : ∀ db' : DB Str, Decidable (db'.RunSafe env ops) := fun db' => decidableRunSafe db' ops
    inferInstanceAs (Decidable (db.StepSafe env op ∧ ∀ db' ∈ db.step env op, db'.RunSafe env ops))

/-- The state agrees with the map `f` and is older than the writes of `ops`. -/
structure Tracks (db : DB Str) (f : Str → Option Str) (ops : List (Op Str)) : Prop where
  sound : Sound db
  opened : db.closed = false
  holds : Holds db f
  older : ∀ e ∈ db.allVersions, ∀ now ∈ ops.filterMap Op.time?, e.timestamp < now

variable {f : Str → Option Str} {ops : List (Op Str)} {op : Op Str}

theorem Tracks.of_versions {ops' : List (Op Str)} (ht : Tracks db f ops) (hs : Sound db')
    (ho : db'.closed = false) (hv : db'.allVersions = db.allVersions)
    (hops : ∀ now ∈ ops'.filterMap Op.time?, now ∈ ops.filterMap Op.time?) : Tracks db' f ops' :=
  { sound := hs
    opened := ho
    holds := ht.holds.congr fun e => by rw [Live, Live, hv]
    older := fun e he now hnow => ht.older e (hv ▸ he) now (hops now hnow) }

theorem Tracks.store {entry : Entry Str} (ht : Tracks db f (op :: ops))
    (hop : op.time? = some entry.timestamp)
    (hlater : ∀ now ∈ ops.filterMap Op.time?, entry.timestamp < now) :
    Tracks { db with memTable := db.memTable.store entry }
      (update f entry.key (if entry.tombstone then none else some entry.value)) ops := by
  have hnow : ∀ e ∈ db.allVersions, e.timestamp < entry.timestamp := fun e he =>
    ht.older e he _ (by simp [hop])
  exact
    { sound := ht.sound.store hnow
      opened := ht.opened
      holds := by
        intro k hk v
        simp only [live_store hnow]
        by_cases hkey : k = entry.key
        · subst hkey
          constructor
          · intro h
            cases htomb : entry.tombstone with
            | true => simp [htomb] at h
            | false => exact ⟨entry, .inl ⟨rfl, rfl⟩, rfl, by simpa [htomb] using h⟩
          · rintro ⟨e, ⟨rfl, htomb⟩ | ⟨-, hne⟩, hek, hev⟩
            · simp [htomb, hev]
            · exact absurd hek hne
        · rw [update_of_ne hkey, ht.holds k hk v]
          constructor
          · rintro ⟨e, he, hek, hev⟩
            exact ⟨e, .inr ⟨he, hek ▸ hkey⟩, hek, hev⟩
          · rintro ⟨e, ⟨rfl, -⟩ | ⟨he, -⟩, hek, hev⟩
            · exact absurd hek.symm hkey
            · exact ⟨e, he, hek, hev⟩
      older := by
        intro e he now hmem
        rcases mem_allVersions_store he with rfl | he
        · exact hlater now hmem
        · exact (hnow e he).trans (hlater now hmem) }

theorem Tracks.write (entry : Entry Str) (ht : Tracks db f (op :: ops))
    (hop : op.time? = some entry.timestamp)
    (hlater : ∀ now ∈ ops.filterMap Op.time?, entry.timestamp < now) :
    ∃ db', (match db.write entry.key fun mt => mt.store entry with
        | .ok db => some db
        | .error _ => some db) = some db' ∧
      Tracks db' (update f entry.key (if entry.tombstone then none else some entry.value))
        ops := by
  by_cases hk : entry.key = ⊥
  · refine ⟨db, by rw [DB.write, if_pos hk], ht.sound, ht.opened, fun k hk' v => ?_, fun e he now hm => ?_⟩
    · rw [update_of_ne (hk ▸ hk')]
      exact ht.holds k hk' v
    · exact ht.older e he now (by simp [hop, hm])
  · have hst := ht.store hop hlater
    rw [DB.write, if_neg hk, if_neg (by simp [ht.opened])]
    refine ⟨_, rfl, ?_⟩
    by_cases hfull : (db.memTable.store entry).shouldFlush = true
    · rw [if_pos hfull]
      exact hst.of_versions hst.sound.rotate hst.opened allVersions_rotate fun now h => h
    · rw [if_neg hfull]
      exact hst

theorem Tracks.step (ht : Tracks db f (op :: ops))
    (htimes : ((op :: ops).filterMap Op.time?).Pairwise (· < ·)) (hsafe : db.StepSafe env op) :
    ∃ db', db.step env op = some db' ∧ Tracks db' (op.apply f) ops := by
  cases op with
  | put now key value =>
    have hlater : ∀ t ∈ ops.filterMap Op.time?, now < t := (pairwise_cons.1 htimes).1
    exact ht.write { key := key, value := value, tombstone := false, timestamp := now } rfl hlater
  | delete now key =>
    have hlater : ∀ t ∈ ops.filterMap Op.time?, now < t := (pairwise_cons.1 htimes).1
    exact ht.write { key := key, value := ⊥, tombstone := true, timestamp := now } rfl hlater
  | rotate =>
    exact ⟨_, rfl, ht.of_versions ht.sound.rotate ht.opened allVersions_rotate fun now h => h⟩
  | flush =>
    obtain ⟨hs, hv⟩ := ht.sound.flush env hsafe
    refine ⟨_, rfl, ht.of_versions hs ?_ hv fun now h => h⟩
    exact (flush_rest env db).2.2.2.trans ht.opened
  | compact level =>
    obtain ⟨db', hcomp, hs, hlive, hclosed, hsub⟩ := ht.sound.compact env hsafe
    refine ⟨db', hcomp, hs, hclosed.trans ht.opened, ht.holds.congr hlive, fun e he now hm => ?_⟩
    exact ht.older e (hsub he) now hm
  | reopen =>
    obtain ⟨hs, hv, ho⟩ := ht.sound.reopen hsafe
    exact ⟨_, rfl, ht.of_versions hs ho hv fun now h => h⟩

theorem Tracks.run (ht : Tracks db f ops) (htimes : (ops.filterMap Op.time?).Pairwise (· < ·))
    (hsafe : db.RunSafe env ops) :
    ∃ db', db.run env ops = some db' ∧ Tracks db' (ops.foldl Op.apply f) [] := by
  induction ops generalizing db f with
  | nil => exact ⟨db, rfl, ht⟩
  | cons op ops ih =>
    obtain ⟨db1, hstep, ht1⟩ := ht.step htimes hsafe.1
    have htimes' : (ops.filterMap Op.time?).Pairwise (· < ·) :=
      htimes.sublist ((sublist_cons_self op ops).filterMap _)
    obtain ⟨db', hrun, ht'⟩ := ih ht1 htimes' (hsafe.2 db1 hstep)
    refine ⟨db', ?_, ht'⟩
    show (db.step env op).bind _ = some db'
    rw [hstep]
    exact hrun

theorem newDB_nil (env : Env Str) (config : Config) :
    newDB env config [] = { blank config.validate with seqNum := 1 } := by
  rw [newDB_eq, (env.readDir_perm []).eq_nil]
  rfl

theorem tracks_newDB (env : Env Str) (config : Config) (ops : List (Op Str)) :
    Tracks (newDB env config []) (fun _ => none) ops := by
  rw [newDB_nil]
  have hnone : ∀ e, e ∉ allVersions ({ blank config.validate with seqNum := 1 } : DB Str) := by
    rintro e (⟨m, hm, he⟩ | ⟨l, t, ht, -⟩)
    · obtain rfl : m = [] := by simpa [memory, blank, MemTable.newMemTable] using hm
      cases he
    · cases ht
  have hvalid : Valid ({ blank config.validate with seqNum := 1 } : DB Str) :=
    { ordered := fun l => Pairwise.nil
      level := nofun
      fresh := nofun
      names := fun l => nodup_nil
      beyond := fun l _ => rfl }
  exact
    { sound :=
        { maxLevel := config.validate_maxLevel
          valid := hvalid
          disjoint := fun l _ => Pairwise.nil
          newer := nofun
          stacked := Pairwise.nil
          memory := pairwise_singleton _ _
          above := fun e he => absurd (.inl he) (hnone e)
          flushing := rfl }
      opened := rfl
      holds := fun k _ v => by
        refine ⟨nofun, ?_⟩
        rintro ⟨e, he, -⟩
        exact absurd he.1.1 (hnone e)
      older := fun e he => absurd he (hnone e) }

theorem run_tracks (env : Env Str) (config : Config) (ops : List (Op Str))
    (htimes : (ops.filterMap Op.time?).Pairwise (· < ·))
    (hsafe : (newDB env config []).RunSafe env ops) :
    ∃ db, (newDB env config []).run env ops = some db ∧ Tracks db (lastWrites ops) [] :=
  (tracks_newDB env config ops).run htimes hsafe

/-- If every flushed memtable comes behind the tables of level 0 it shares a key with, and no
compaction drops a tombstone that hides a version, `Get` returns the last write. -/
theorem get_eq_lastWrites (env : Env Str) (config : Config) (ops : List (Op Str))
    (htimes : (ops.filterMap Op.time?).Pairwise (· < ·))
    (hsafe : (newDB env config []).RunSafe env ops) :
    ∃ db, (newDB env config []).run env ops = some db ∧
      ∀ k, k ≠ ⊥ → db.get k = answer (lastWrites ops k) := by
  obtain ⟨db, hrun, ht⟩ := run_tracks env config ops htimes hsafe
  refine ⟨db, hrun, fun k hk => ?_⟩
  exact ht.sound.get_eq ht.opened ht.holds hk

/-- `sort.Slice` as an insertion sort, and directories listed by file names. -/
def insertionEnv : Env Str :=
  { sortTables := insertionSort fun a b => a.minKey ≤ b.minKey
    sort_perm := perm_insertionSort _
    sort_sorted := fun tables =>
      have : Std.Total fun a b : SSTable Str => a.minKey ≤ b.minKey := ⟨fun _ _ => le_total _ _⟩
      have : IsTrans (SSTable Str) fun a b => a.minKey ≤ b.minKey := ⟨fun _ _ _ => le_trans⟩
      pairwise_insertionSort _ tables
    readDir := insertionSort fun a b => a.filename.2 ≤ b.filename.2
    readDir_perm := perm_insertionSort _ }

def smallConfig : Config :=
  { memTableSize := 22, maxLevel := 3, levelMaxFiles := [1, 1, 1], targetFileSize := 1024 }

/-- Writes that are flushed in the order of their keys, a compaction, a deletion and a restart. -/
def orderedRun : List (Op Bytes) :=
  [.put 1 [97] [49], .put 2 [98] [49], .flush, .put 3 [98] [50], .put 4 [99] [50], .flush,
    .compact 0, .delete 5 [98], .reopen]

/-- A store with one frozen memtable, which holds the key `"b"`. -/
def frozenOne : DB Bytes :=
  { blank smallConfig with immutable := [(MemTable.newMemTable 22).put 1 [98] [49]] }

set_option maxRecDepth 100000 in
theorem get_eq_lastWrites_orderedRun :
    ∃ db, (newDB insertionEnv smallConfig []).run insertionEnv orderedRun = some db ∧
      ∀ k, k ≠ ⊥ → db.get k = answer (lastWrites orderedRun k) :=
  get_eq_lastWrites insertionEnv smallConfig orderedRun (by decide) (by decide)

/-- The table with the old value of `"b"` begins with `"b"`, the one with the new value with
`"a"`. -/
def staleRun : List (Op Bytes) :=
  [.put 1 [98] [48, 48, 48, 48, 48, 48, 48, 48, 48, 48, 48, 48], .flush, .put 2 [97] [49],
    .put 3 [98] [50], .flush]

set_option maxRecDepth 100000 in
theorem get_fails_for_staleRun :
    (staleRun.filterMap Op.time?).Pairwise (· < ·) ∧ lastWrites staleRun [98] = some [50] ∧
      ((newDB insertionEnv smallConfig []).run insertionEnv staleRun).map (fun db => db.get [98]) =
        some (.ok [48, 48, 48, 48, 48, 48, 48, 48, 48, 48, 48, 48]) := by
  decide

end Runs

/-! ## The levels of every run -/

section Levels

variable (h : Leveled db)
include h

theorem Leveled.flush : Leveled (db.flush env) := by
  cases himm : db.immutable with
  | nil =>
    rw [DB.flush, himm]
    exact h
  | cons mt rest =>
    have hb : Leveled db.thawed := h.congr rfl rfl rfl
    rw [flush_eq himm]
    rcases flushMemTable_cases env _ mt with ⟨-, hsame⟩ | ⟨t, -, ha⟩
    · rw [hsame]
      exact hb
    · exact ha.leveled hb

theorem Leveled.flushes (n : Nat) : Leveled (db.flushes env n) := by
  induction n with
  | zero => exact h
  | succ n ih => exact ih.flush

omit h in
theorem config_flushes (n : Nat) : (db.flushes env n).config = db.config := by
  induction n with
  | zero => rfl
  | succ n ih => exact (flush_rest env _).1.trans ih

theorem Leveled.compact {level : Nat} (hc : db.compactLevel env level = some db') :
    Leveled db' := by
  cases hp : pick level (db.levels level) with
  | none =>
    rw [compactLevel_of_pick_none (lt_maxLevel_of_compactLevel hc) hp] at hc
    exact some_inj.1 hc ▸ h
  | some p =>
    have hnext := next_lt_of_compactLevel hc hp
    obtain ⟨db1, new, hcomp, hcd⟩ := compactLevel_spec env hnext hp
    obtain rfl := some_inj.1 (hc.symm.trans hcomp)
    exact hcd.leveled ⟨h.valid, h.disjoint, hp⟩ hnext h

theorem Leveled.reopen : Leveled (db.reopen env) := by
  have hcl : Leveled db.closing ∧ db.closing.config = db.config := by
    rw [closing]
    split_ifs
    · exact ⟨h.congr rfl rfl rfl, rfl⟩
    · exact ⟨h.congr rfl rfl rfl, rfl⟩
  have hc : Leveled (db.close env) := hcl.1.flushes _
  have hconf : (db.close env).config = db.config := (config_flushes _).trans hcl.2
  have hr := newDB_spec env hc.valid hc.maxLevel
  rw [hconf] at hr
  exact hr.leveled hc

theorem Leveled.write {key : Str} {f : MemTable Str → MemTable Str} (hw : (match db.write key f with
      | .ok db => some db
      | .error _ => some db) = some db') : Leveled db' := by
  rw [DB.write] at hw
  split_ifs at hw <;> obtain rfl := some_inj.1 hw
  · exact h
  · exact h
  · split_ifs
    · exact h.congr rfl rfl rfl
    · exact h.congr rfl rfl rfl

theorem Leveled.step {op : Op Str} (hs : db.step env op = some db') : Leveled db' := by
  cases op with
  | put now key value => exact h.write hs
  | delete now key => exact h.write hs
  | rotate => exact some_inj.1 hs ▸ h.congr rfl rfl rfl
  | flush => exact some_inj.1 hs ▸ h.flush
  | compact level => exact h.compact hs
  | reopen => exact some_inj.1 hs ▸ h.reopen

theorem Leveled.run {ops : List (Op Str)} (hr : db.run env ops = some db') : Leveled db' := by
  induction ops generalizing db with
  | nil => exact some_inj.1 hr ▸ h
  | cons op ops ih =>
    obtain ⟨db1, h1, h2⟩ := bind_eq_some_iff.1 hr
    exact ih (h.step h1) h2

omit h

/-- In every state of a run, the tables of a level from 1 on are in order and apart, so the binary
search of `Get` finds whatever one of them holds. -/
theorem run_levels (config : Config) {ops : List (Op Str)}
    (hr : (newDB env config []).run env ops = some db) {l : Nat} (hl : 1 ≤ l) :
    Ordered (db.levels l) ∧ Disjoint (db.levels l) ∧ ∀ key e,
      Level.get l (db.levels l) key = some e ↔ ∃ t ∈ db.levels l, e ∈ t.entries ∧ e.key = key := by
  have h := (tracks_newDB env config []).sound.toLeveled.run hr
  refine ⟨h.valid.ordered l, h.disjoint l hl, ?_⟩
  intro key e
  exact Level.get_eq_some (Nat.one_le_iff_ne_zero.1 hl) (h.valid.ordered l) (h.disjoint l hl)

set_option maxRecDepth 100000 in
theorem run_levels_orderedRun :
    ∃ db, (newDB insertionEnv smallConfig []).run insertionEnv orderedRun = some db ∧
      Disjoint (db.levels 1) := by
  obtain ⟨db, hr, -⟩ := run_tracks insertionEnv smallConfig orderedRun (by decide) (by decide)
  exact ⟨db, hr, (run_levels smallConfig hr le_rfl).2.1⟩

end Levels

/-! ## What compactions keep -/

/-- A compaction keeps what the levels show exactly when there is a next level and the tombstones
that may be dropped hide nothing. -/
theorem compactLevel_shows_iff (env : Env Str) {db : DB Str} (hv : db.Valid)
    (hd : ∀ l, 1 ≤ l → Disjoint (db.levels l)) (ht : db.DistinctTimes) (hn : db.NewerAbove)
    (level : Nat) :
    (∃ db', db.compactLevel env level = some db' ∧ ∀ e, db'.Shows e ↔ db.Shows e) ↔
      db.CanCompact level := by
  constructor
  · rintro ⟨db', hcomp, hshow⟩
    refine ⟨lt_maxLevel_of_compactLevel hcomp, fun p hp => ?_⟩
    have hnext := next_lt_of_compactLevel hcomp hp
    refine ⟨hnext, ?_⟩
    obtain ⟨db'', new, hcomp', hc⟩ := compactLevel_spec env hnext hp
    rw [hcomp, some_inj] at hcomp'
    subst hcomp'
    exact (hc.shows_iff ⟨hv, hd, hp⟩ ht hn).1 hshow
  · rintro ⟨hl, hcan⟩
    cases hp : pick level (db.levels level) with
    | none => exact ⟨db, compactLevel_of_pick_none hl hp, fun e => Iff.rfl⟩
    | some p =>
      obtain ⟨hnext, hsafe⟩ := hcan p hp
      obtain ⟨db', new, hcomp, hc⟩ := compactLevel_spec env hnext hp
      exact ⟨db', hcomp, (hc.shows_iff ⟨hv, hd, hp⟩ ht hn).2 hsafe⟩

def deletedRun : List (Op Bytes) :=
  [.put 1 [98] [49], .rotate, .flush, .compact 0, .delete 2 [98], .rotate, .flush]

set_option maxRecDepth 100000 in
theorem compactLevel_shows_deletedRun :
    ∃ db, (newDB insertionEnv smallConfig []).run insertionEnv deletedRun = some db ∧
      ∃ db', db.compactLevel insertionEnv 0 = some db' ∧ ∀ e, db'.Shows e ↔ db.Shows e := by
  obtain ⟨db, hrun, ht⟩ := run_tracks insertionEnv smallConfig deletedRun (by decide) (by decide)
  have hcan : ∀ db ∈ (newDB insertionEnv smallConfig []).run insertionEnv deletedRun,
      db.CanCompact 0 := by decide
  have hs := ht.sound
  exact ⟨db, hrun, (compactLevel_shows_iff insertionEnv hs.valid hs.disjoint hs.distinctTimes hs.newer
    0).2 (hcan db hrun)⟩

/-- A value of `"a"` on level 2, under its tombstone on level 1, and `"b"` on level 0. -/
def hiddenRun : List (Op Bytes) :=
  [.put 1 [97] [49], .rotate, .flush, .compact 0, .compact 1, .delete 2 [97],
    .put 3 [99] [49], .rotate, .flush, .compact 0, .put 4 [98] [49], .rotate, .flush]

theorem DB.Valid.shows_iff (hv : db.Valid) {e : Entry Str} : db.Shows e ↔
    e ∈ db.files.flatMap entries ∧ NewestIn (db.files.flatMap entries) e ∧
      e.tombstone = false := by
  have hnew : NewestIn (db.files.flatMap entries) e ↔
      ∀ e' ∈ db.versions, e'.key = e.key → e'.timestamp ≤ e.timestamp :=
    forall_congr' fun e' => by rw [hv.mem_files]
  rw [hv.mem_files, hnew, ← and_assoc]
  exact and_congr_right fun _ => Bool.eq_false_iff.symm

set_option maxRecDepth 100000 in
theorem compactLevel_fails_for_hiddenRun :
    ∃ db db' : DB Bytes, db.Valid ∧ (∀ l, 1 ≤ l → Disjoint (db.levels l)) ∧ db.DistinctTimes ∧
      db.NewerAbove ∧ db.compactLevel insertionEnv 0 = some db' ∧
      ¬ db.Shows ⟨[97], [49], false, 1⟩ ∧ db'.Shows ⟨[97], [49], false, 1⟩ := by
  obtain ⟨db, hrun, ht⟩ := run_tracks insertionEnv smallConfig hiddenRun (by decide) (by decide)
  have hs := ht.sound
  obtain ⟨p, hp, hnext⟩ : ∃ p, pick 0 (db.levels 0) = some p ∧ 0 + 1 < db.maxLevel := by
    have h : ∀ db ∈ (newDB insertionEnv smallConfig []).run insertionEnv hiddenRun,
        (pick 0 (db.levels 0)).isSome ∧ 0 + 1 < db.maxLevel := by decide
    obtain ⟨h1, h2⟩ := h db hrun
    obtain ⟨p, hp⟩ := isSome_iff_exists.1 h1
    exact ⟨p, hp, h2⟩
  have htaken : Taken db 0 p := ⟨hs.valid, hs.disjoint, hp⟩
  obtain ⟨db', new, hcomp, hc⟩ := compactLevel_spec insertionEnv hnext hp
  refine ⟨db, db', hs.valid, hs.disjoint, hs.distinctTimes, hs.newer, hcomp, ?_, ?_⟩
  · rw [hs.valid.shows_iff]
    have h : ∀ db ∈ (newDB insertionEnv smallConfig []).run insertionEnv hiddenRun,
        ¬ NewestIn (db.files.flatMap entries) ⟨[97], [49], false, 1⟩ := by decide
    exact fun hcontra => h db hrun hcontra.2.1
  · rw [(hc.sound htaken hnext hs).valid.shows_iff]
    have h : ∀ db ∈ (newDB insertionEnv smallConfig []).run insertionEnv hiddenRun,
        ∀ db' ∈ db.compactLevel insertionEnv 0,
          (⟨[97], [49], false, 1⟩ : Entry Bytes) ∈ db'.files.flatMap entries ∧
            NewestIn (db'.files.flatMap entries) ⟨[97], [49], false, 1⟩ := by decide
    obtain ⟨h1, h2⟩ := h db hrun db' hcomp
    exact ⟨h1, h2, rfl⟩

end Solocoder.LSM
