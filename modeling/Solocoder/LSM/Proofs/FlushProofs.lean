import Solocoder.LSM.Proofs.ReadProofs

/-!
# Failed flushes

A memtable leaves `immutable` before its file is written, and an error is only logged.
-/

namespace Solocoder.LSM

open List Function SSTable Option Level

variable {Str : Type} [GoString Str] {env : Env Str} {db db' : DB Str}

/-- The contents of the memtables that are written, oldest first. -/
def DB.written (db : DB Str) (outcomes : List Bool) : List (List (Entry Str)) :=
  ((db.immutable.zip outcomes).filter fun r => r.2 && r.1.data ≠ []).map fun r => r.1.data

/-- The state `db'` is `db` with the frozen memtables `imm` and the tables `new` on level 0. -/
structure Drained (env : Env Str) (db db' : DB Str) (imm : List (MemTable Str))
    (new : List (SSTable Str)) : Prop where
  memTable : db'.memTable = db.memTable
  immutable : db'.immutable = imm
  maxLevel : db'.maxLevel = db.maxLevel
  closed : db'.closed = db.closed
  zero : db'.levels 0 = new.foldl (addTable env) (db.levels 0)
  other : ∀ l, l ≠ 0 → db'.levels l = db.levels l

theorem drained_round (env : Env Str) (w : Bool) (mt : MemTable Str) {imm : List (MemTable Str)}
    (db : DB Str) (h : db.immutable = imm) :
    ∃ new, new.map SSTable.entries = (if w && mt.data ≠ [] then [mt.data] else []) ∧
      Drained env db { db.flushMemTableIf env w mt with flushing := none } imm new := by
  have hsame : Drained env db { db with flushing := none } imm [] := ⟨rfl, h, rfl, rfl, rfl, fun _ _ => rfl⟩
  by_cases hne : mt.data = []
  · refine ⟨[], by simp [hne], ?_⟩
    rw [DB.flushMemTableIf, if_pos (.inr hne), DB.flushMemTable, hne]
    exact hsame
  cases w with
  | false =>
    refine ⟨[], by simp, ?_⟩
    rw [DB.flushMemTableIf, if_neg (by simp [hne])]
    exact ⟨rfl, h, rfl, rfl, rfl, fun _ _ => rfl⟩
  | true =>
    obtain ⟨t, ht, -, -, hent⟩ := newSSTable_of_keyed 0 db.seqNum mt.keyed hne
    refine ⟨[t], by simp [hne, hent], ?_⟩
    rw [DB.flushMemTableIf, if_pos (.inl rfl), DB.flushMemTable, ht]
    exact ⟨rfl, h, rfl, rfl, rfl, fun l hl => update_of_ne hl _ _⟩

theorem drained_flushImmutableIf (env : Env Str) (db : DB Str) {outcomes : List Bool}
    (h : outcomes.length = db.immutable.length) :
    ∃ new, new.map SSTable.entries = db.written outcomes ∧
      Drained env db (db.flushImmutableIf env outcomes) [] new ∧
      (db.immutable ≠ [] → (db.flushImmutableIf env outcomes).flushing = none) := by
  induction outcomes generalizing db with
  | nil =>
    have himm := length_eq_zero_iff.1 h.symm
    exact ⟨[], by simp [DB.written], ⟨rfl, himm, rfl, rfl, rfl, fun _ _ => rfl⟩, fun hne => absurd himm hne⟩
  | cons w rest ih =>
    cases himm : db.immutable with
    | nil => simp [himm] at h
    | cons mt imm =>
      obtain ⟨new, hnew, hd⟩ := drained_round env w mt
        { db with immutable := imm, flushing := some mt } rfl
      rw [DB.flushImmutableIf, himm]
      obtain ⟨more, hmore, hd', hf⟩ := ih { DB.flushMemTableIf env
        { db with immutable := imm, flushing := some mt } w mt with flushing := none } (by
          rw [hd.immutable]
          simpa [himm] using h)
      refine ⟨new ++ more, ?_, ⟨hd'.memTable.trans hd.memTable, hd'.immutable,
        hd'.maxLevel.trans hd.maxLevel, hd'.closed.trans hd.closed, ?_, fun l hl => (hd'.other l hl).trans (hd.other l hl)⟩, ?_⟩
      · rw [map_append, hnew, hmore, DB.written, DB.written, himm, hd.immutable, zip_cons_cons, filter_cons]
        split_ifs <;> simp_all
      · rw [hd'.zero, hd.zero, foldl_append]
      · intro _
        by_cases hi : imm = []
        · have hr : rest = [] := by simpa [himm, hi] using h
          rw [hr]
          rfl
        · exact hf (by rw [hd.immutable]; exact hi)

theorem foldl_addTable (env : Env Str) (ts new : List (SSTable Str)) :
    (new.foldl (addTable env) ts).Perm (ts ++ new) ∧
      (new ≠ [] → ∃ us, new.foldl (addTable env) ts = env.sortTables us) := by
  induction new generalizing ts with
  | nil => simp
  | cons t new ih =>
    obtain ⟨h1, h2⟩ := ih (addTable env ts t)
    refine ⟨h1.trans ?_, fun _ => ?_⟩
    · have hp := (env.sort_perm (ts ++ [t])).append_right new
      rwa [append_assoc] at hp
    · by_cases hne : new = []
      · exact ⟨ts ++ [t], by rw [hne]; rfl⟩
      · exact h2 hne

/-- The value that a reader sees. -/
def Entry.shown (e : Entry Str) : Option Str := if e.tombstone then none else some e.value

omit [GoString Str] in
theorem answer_shown (e : Entry Str) :
    answer e.shown = if e.tombstone then .error .keyNotFound else .ok e.value := by
  rw [Entry.shown]
  split <;> rfl

omit [GoString Str] in
theorem answer_injective : Function.Injective (@answer Str)
  | none, none, _ => rfl
  | some _, some _, rfl => rfl

/-- The entry that the levels have for the key. -/
def DB.stored (db : DB Str) (key : Str) : Option (Entry Str) :=
  (List.range db.maxLevel).findSome? fun l => Level.get l (db.levels l) key

section Levels

variable {new : List (SSTable Str)} {key : Str} (hd : Drained env db db' [] new)

theorem level_zero_eq_none {tables : List (SSTable Str)} :
    Level.get 0 tables key = none ↔ ∀ t ∈ tables, t.get key = none := by
  show tables.reverse.findSome? _ = none ↔ _
  simp only [findSome?_eq_none_iff, mem_reverse]

/-- `Get` answers from the last table of level 0 that holds the key. -/
theorem exists_last_table {F : List (SSTable Str)} {R : SSTable Str → SSTable Str → Prop} {key : Str}
    {e : Entry Str} (hR : F.Pairwise R) (h : Level.get 0 F key = some e) :
    ∃ t ∈ F, t.get key = some e ∧ ∀ t' ∈ F, ∀ x, t'.get key = some x → t' = t ∨ R t' t := by
  obtain ⟨l1, t, l2, hF, hte, hl1⟩ := findSome?_eq_some_iff.1 h
  have hmem : ∀ t', t' ∈ F ↔ t' ∈ l1 ∨ t' = t ∨ t' ∈ l2 := by
    intro t'
    rw [← mem_reverse, hF, mem_append, mem_cons]
  refine ⟨t, (hmem t).2 (.inr (.inl rfl)), hte, fun t' ht' x hx => ?_⟩
  rcases (hmem t').1 ht' with ht' | rfl | ht'
  · rw [hl1 t' ht'] at hx
    cases hx
  · exact .inl rfl
  · rw [← pairwise_reverse, hF] at hR
    exact .inr ((pairwise_cons.1 (pairwise_append.1 hR).2.1).1 t' ht')

include hd

theorem Drained.get_eq (hf : db'.flushing = none)
    (hopen : db.closed = false) (hkey : key ≠ ⊥) (hmem : ∀ x ∈ db.memTable.data, x.key ≠ key) :
    db'.get key = answer ((db'.stored key).bind Entry.shown) := by
  have hsearch : db'.search key = db'.stored key := by
    rw [LSM.search_eq hf, DB.memory, hd.immutable, hd.memTable]
    show ([db.memTable.data].findSome? _).or _ = _
    rw [findSome?_singleton, lookup_eq_none.2 hmem]
    rfl
  rw [DB.get, if_neg hkey, hd.closed, hopen, hsearch]
  cases db'.stored key with
  | none => rfl
  | some e => exact (answer_shown e).symm

theorem Drained.stored_eq (h : new = [] ∨ ∀ t ∈ db.levels 0 ++ new, t.get key = none) :
    db'.stored key = db.stored key := by
  have hlevel : ∀ l, Level.get l (db'.levels l) key = Level.get l (db.levels l) key := by
    intro l
    by_cases hl : l = 0
    · subst hl
      rcases h with rfl | hnone
      · rw [hd.zero, foldl_nil]
      · have hperm := (foldl_addTable env (db.levels 0) new).1
        rw [← hd.zero] at hperm
        rw [level_zero_eq_none.2 fun t ht => hnone t (hperm.mem_iff.1 ht),
          level_zero_eq_none.2 fun t ht => hnone t (mem_append_left _ ht)]
    · rw [hd.other l hl]
  simp only [DB.stored, hd.maxLevel, hlevel]

theorem Drained.exists_last {R : SSTable Str → SSTable Str → Prop}
    (hR : ∀ tables, (env.sortTables tables).Pairwise R) (hm : 0 < db.maxLevel) (hnew : new ≠ [])
    {t : SSTable Str} (ht : t ∈ db.levels 0 ++ new) {x : Entry Str} (hx : t.get key = some x) :
    ∃ a ∈ db.levels 0 ++ new, ∃ y, db'.stored key = some y ∧ a.get key = some y ∧
      ∀ t' ∈ db.levels 0 ++ new, ∀ x, t'.get key = some x → t' = a ∨ R t' a := by
  obtain ⟨hperm, hsort⟩ := foldl_addTable env (db.levels 0) new
  obtain ⟨tables, hsorted⟩ := hsort hnew
  rw [← hd.zero] at hperm hsorted
  cases hy : Level.get 0 (db'.levels 0) key with
  | none =>
    rw [level_zero_eq_none.1 hy t (hperm.mem_iff.2 ht)] at hx
    cases hx
  | some y =>
    have hstored : db'.stored key = some y := by
      rw [DB.stored, hd.maxLevel, ← Nat.succ_pred_eq_of_pos hm, Nat.succ_eq_add_one,
        range_succ_eq_map, findSome?_cons, hy]
    rw [hsorted] at hy hperm
    obtain ⟨a, ha, hay, hlast⟩ := exists_last_table (hR tables) hy
    exact ⟨a, hperm.mem_iff.1 ha, y, hstored, hay, fun t' ht' => hlast t' (hperm.mem_iff.2 ht')⟩

end Levels

/-- The entries `es'` begin before `es`. -/
def Before (es' es : List (Entry Str)) : Prop := ∃ x ∈ es', ∀ y ∈ es, x.key < y.key

instance (es' es : List (Entry Str)) : Decidable (Before es' es) :=
  inferInstanceAs (Decidable (∃ x ∈ es', _))

theorem before_entries {t t' : SSTable Str} : Before t'.entries t.entries ↔ t'.minKey < t.minKey := by
  constructor
  · rintro ⟨x, hx, h⟩
    obtain ⟨y, hy, hk⟩ := t.exists_minKey
    exact (minKey_le hx).trans_lt (hk ▸ h y hy)
  · intro h
    obtain ⟨x, hx, hk⟩ := t'.exists_minKey
    exact ⟨x, hx, fun y hy => (hk ▸ h).trans_le (minKey_le hy)⟩

/-- The key of `e` is not in the memtable, and `e` is the newest one of its versions, in a frozen
memtable. -/
structure DB.NewestFrozen (db : DB Str) (e : Entry Str) : Prop where
  frozen : ∃ mt ∈ db.immutable, e ∈ mt.data
  memTable : ∀ x ∈ db.memTable.data, x.key ≠ e.key
  immutable : ∀ mt ∈ db.immutable, ∀ x ∈ mt.data, x.key = e.key → x = e ∨ x.timestamp < e.timestamp
  levels : ∀ x ∈ db.versions, x.key = e.key → x.timestamp < e.timestamp

def SSTable.Agrees (e : Entry Str) (t : SSTable Str) : Prop :=
  (t.get e.key).map Entry.shown = some e.shown

/-- An order of the tables by `MinKey` in which, of those with equal ones, the tables that agree with
`e` come first. -/
def TieLe (e : Entry Str) (a b : SSTable Str) : Prop :=
  a.minKey < b.minKey ∨ a.minKey = b.minKey ∧ (a.Agrees e ∨ ¬ b.Agrees e)

instance (e : Entry Str) (t : SSTable Str) : Decidable (t.Agrees e) :=
  inferInstanceAs (Decidable (_ = _))

instance (e : Entry Str) : DecidableRel (TieLe e) :=
  fun _ _ => inferInstanceAs (Decidable (_ ∨ _ ∧ _))

theorem sorted_tieLe (e : Entry Str) (tables : List (SSTable Str)) :
    (tables.insertionSort (TieLe e)).Pairwise (TieLe e) := by
  have : Std.Total (TieLe e) := by
    refine ⟨fun a b => ?_⟩
    rcases lt_trichotomy a.minKey b.minKey with h | h | h
    · exact .inl (.inl h)
    · by_cases ha : a.Agrees e
      · exact .inl (.inr ⟨h, .inl ha⟩)
      · exact .inr (.inr ⟨h.symm, .inr ha⟩)
    · exact .inr (.inl h)
  have : IsTrans (SSTable Str) (TieLe e) := by
    refine ⟨fun a b c hab hbc => ?_⟩
    unfold TieLe at *
    grind
  exact pairwise_insertionSort _ tables

def tieEnv (e : Entry Str) : Env Str :=
  { sortTables := List.insertionSort (TieLe e)
    sort_perm := perm_insertionSort _
    sort_sorted := fun tables => (sorted_tieLe e tables).imp fun h => h.elim le_of_lt fun h => h.1.le
    readDir := id
    readDir_perm := fun _ => .refl _ }

/-- Level 0 with what the flush wrote. -/
def DB.zero (db : DB Str) (outcomes : List Bool) : List (List (Entry Str)) :=
  (db.levels 0).map SSTable.entries ++ db.written outcomes

/-- After the flush a reader still sees what `e` shows. -/
structure DB.StillShown (db : DB Str) (outcomes : List Bool) (e : Entry Str) : Prop where
  stored : (db.written outcomes = [] ∨ ∀ es ∈ db.zero outcomes, ∀ x ∈ es, x.key ≠ e.key) →
    (db.stored e.key).bind Entry.shown = e.shown
  sorted : db.written outcomes ≠ [] → ∀ es ∈ db.zero outcomes, ∀ x ∈ es, x.key = e.key →
    x.shown ≠ e.shown → ∃ es' ∈ db.zero outcomes, ∃ y ∈ es', y.key = e.key ∧ y.shown = e.shown ∧
      Before es es'

section StillShown

variable {outcomes : List Bool} {e : Entry Str} {new : List (SSTable Str)}
  (hnew : new.map SSTable.entries = db.written outcomes)
include hnew

theorem DB.mem_zero {es : List (Entry Str)} :
    es ∈ db.zero outcomes ↔ ∃ t ∈ db.levels 0 ++ new, t.entries = es := by
  rw [zero, ← hnew, ← map_append, List.mem_map]

theorem DB.zero_unread_iff {key : Str} :
    (db.written outcomes = [] ∨ ∀ es ∈ db.zero outcomes, ∀ x ∈ es, x.key ≠ key) ↔
      (new = [] ∨ ∀ t ∈ db.levels 0 ++ new, t.get key = none) := by
  rw [← hnew, map_eq_nil_iff]
  refine or_congr_right ⟨fun h t ht => eq_none_iff_forall_ne_some.2 fun x hx => ?_, ?_⟩
  · obtain ⟨hmem, hk⟩ := get_eq_some.1 hx
    exact h _ ((mem_zero hnew).2 ⟨t, ht, rfl⟩) x hmem hk
  · intro h es hes x hx hk
    obtain ⟨t, ht, rfl⟩ := (mem_zero hnew).1 hes
    exact eq_none_iff_forall_ne_some.1 (h t ht) x (get_eq_some.2 ⟨hx, hk⟩)

variable (hm : 0 < db.maxLevel)
include hm

theorem DB.StillShown.shown (h : db.StillShown outcomes e) (hd : Drained env db db' [] new) :
    (db'.stored e.key).bind Entry.shown = e.shown := by
  by_cases hnone : new = [] ∨ ∀ t ∈ db.levels 0 ++ new, t.get e.key = none
  · rw [hd.stored_eq hnone]
    exact h.stored ((zero_unread_iff hnew).2 hnone)
  · push Not at hnone
    obtain ⟨hwritten, t, ht, hsome⟩ := hnone
    obtain ⟨x, hx⟩ := ne_none_iff_exists'.1 hsome
    obtain ⟨a, ha, y, hy, hay, hlast⟩ := hd.exists_last env.sort_sorted hm hwritten ht hx
    rw [hy, bind_some]
    by_contra hwrong
    obtain ⟨hmem, hk⟩ := get_eq_some.1 hay
    -- a table behind the last one says the same as `e`
    obtain ⟨es, hes, z, hz, hzk, -, hbefore⟩ := h.sorted (by rwa [← hnew, ne_eq, map_eq_nil_iff]) _
      ((mem_zero hnew).2 ⟨a, ha, rfl⟩) y hmem hk hwrong
    obtain ⟨b, hb, rfl⟩ := (mem_zero hnew).1 hes
    have hlt := before_entries.1 hbefore
    rcases hlast b hb z (get_eq_some.2 ⟨hz, hzk⟩) with rfl | hle
    · exact lt_irrefl _ hlt
    · exact hle.not_gt hlt

theorem DB.stillShown_of_shown (hd : Drained (tieEnv e) db db' [] new)
    (h : (db'.stored e.key).bind Entry.shown = e.shown) : db.StillShown outcomes e := by
  constructor
  · intro hnone
    rwa [← hd.stored_eq ((zero_unread_iff hnew).1 hnone)]
  · intro hwritten es hes x hx hk hwrong
    obtain ⟨t, ht, rfl⟩ := (mem_zero hnew).1 hes
    have hx := get_eq_some.2 ⟨hx, hk⟩
    rw [← hnew, ne_eq, map_eq_nil_iff] at hwritten
    obtain ⟨a, ha, y, hy, hay, hlast⟩ := hd.exists_last (sorted_tieLe e) hm hwritten ht hx
    rw [hy, bind_some] at h
    have hagrees : a.Agrees e := by rw [SSTable.Agrees, hay, map_some, h]
    have hnot : ¬ t.Agrees e := by
      rw [SSTable.Agrees, hx, map_some, some_inj]
      exact hwrong
    obtain ⟨hmem, hk⟩ := get_eq_some.1 hay
    rcases hlast t ht x hx with rfl | hlt | ⟨-, ht | ha⟩
    · exact absurd hagrees hnot
    · exact ⟨_, (mem_zero hnew).2 ⟨a, ha, rfl⟩, y, hmem, hk, h, before_entries.2 hlt⟩
    · exact absurd ht hnot
    · exact absurd hagrees ha

end StillShown

/-- Whatever the order of tables of equal `MinKey`, `Get` still answers with the newest version of a
frozen key exactly when the tables after the flush show it. -/
theorem flushImmutable_keeps_iff {outcomes : List Bool} {e : Entry Str} (hm : 0 < db.maxLevel)
    (hlen : outcomes.length = db.immutable.length) (hopen : db.closed = false) (hkey : e.key ≠ ⊥)
    (he : db.NewestFrozen e) :
    (∀ env, (db.flushImmutableIf env outcomes).get e.key =
        if e.tombstone then .error .keyNotFound else .ok e.value) ↔ db.StillShown outcomes e := by
  have hne : db.immutable ≠ [] := by
    obtain ⟨mt, hmt, -⟩ := he.frozen
    exact ne_nil_of_mem hmt
  simp only [← answer_shown]
  constructor
  · intro h
    obtain ⟨new, hnew, hd, hf⟩ := drained_flushImmutableIf (tieEnv e) db hlen
    refine DB.stillShown_of_shown hnew hm hd (answer_injective ?_)
    rw [← h, hd.get_eq (hf hne) hopen hkey he.memTable]
  · intro h env
    obtain ⟨new, hnew, hd, hf⟩ := drained_flushImmutableIf env db hlen
    rw [hd.get_eq (hf hne) hopen hkey he.memTable, h.shown hnew hm hd]

theorem newestFrozen_frozenOne : frozenOne.NewestFrozen ⟨[98], [49], false, 1⟩ :=
  { frozen := ⟨_, mem_singleton_self _, mem_singleton_self _⟩
    memTable := fun x hx => absurd hx not_mem_nil
    immutable := fun mt hmt x hx _ => by
      rw [mem_singleton.1 hmt] at hx
      exact .inl (mem_singleton.1 hx)
    levels := by
      rintro x ⟨l, t, ht, -⟩
      cases ht }

theorem flushImmutable_keeps_frozenOne : frozenOne.NewestFrozen ⟨[98], [49], false, 1⟩ ∧
    ∀ env, (frozenOne.flushImmutableIf env [true]).get [98] = .ok [49] :=
  ⟨newestFrozen_frozenOne, (flushImmutable_keeps_iff (by decide) rfl rfl (by decide)
    newestFrozen_frozenOne).2 ⟨by decide, by decide⟩⟩

theorem flushImmutable_loses_frozenOne :
    frozenOne.NewestFrozen ⟨[98], [49], false, 1⟩ ∧ frozenOne.get [98] = .ok [49] ∧
      (frozenOne.flushImmutableIf insertionEnv [false]).get [98] = .error .keyNotFound :=
  ⟨newestFrozen_frozenOne, by decide, by decide⟩

end Solocoder.LSM
