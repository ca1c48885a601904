import Mathlib.Algebra.Order.Ring.Int
import Mathlib.Data.List.Lex
import Mathlib.Data.List.Sort

/-!
# The LSM store of `internal/lsm`

A memtable is the list of its entries in the order of their keys, and a table on disk the list of
entries in its file. Files do not fail, and calls follow one another, so locks and channels are left
out; the background loops are the steps `flush` and `compact`.

`sort.Slice` may order tables of equal `MinKey` in any way, and a directory lists its files by their
names. Both orders are parameters (`Env`).
-/

namespace Solocoder.LSM

open List Function

/-- What the store uses of the strings of Go: their order, the empty string and the length. -/
class GoString (α : Type) extends LinearOrder α, OrderBot α where
  len : α → Nat

export GoString (len)

/-- The strings of Go are strings of bytes. -/
abbrev Bytes := List (Fin 256)

instance : GoString Bytes :=
  { (inferInstance : LinearOrder Bytes) with
    bot := []
    bot_le := fun l => not_lt.1 (not_lt_nil l)
    len := length }

structure Entry (Str : Type) where
  key : Str
  value : Str
  tombstone : Bool
  timestamp : Int
  deriving DecidableEq, Repr

variable {Str : Type} [GoString Str]

def Entry.size (e : Entry Str) : Nat := len e.key + len e.value + 1 + 8

variable (es : List (Entry Str)) {choose : Entry Str → Entry Str → Entry Str}

/-- The entries are in the order of their keys, with one entry for each key. -/
def Keyed : Prop := (es.map Entry.key).Pairwise (· < ·)

instance (es : List (Entry Str)) : Decidable (Keyed es) :=
  inferInstanceAs (Decidable ((es.map Entry.key).Pairwise (· < ·)))

/-- Store `e`, or what `choose` makes of the entry with its key and `e`. -/
def upsert (choose : Entry Str → Entry Str → Entry Str) (e : Entry Str) :
    List (Entry Str) → List (Entry Str)
  | [] => [e]
  | x :: es =>
    if x.key < e.key then x :: upsert choose e es
    else if x.key = e.key then choose x e :: es
    else e :: x :: es

/-- The newer one of two entries; the first one if they are of the same time. -/
def newer (x e : Entry Str) : Entry Str := if x.timestamp < e.timestamp then e else x

/-- The loop that collects entries in a map that keeps the newest one of each key; the map is then
written out in the order of the keys. -/
def collect : List (Entry Str) :=
  es.foldl (fun m e => upsert newer e m) []

/-- The entry with a key. -/
def lookup (key : Str) : Option (Entry Str) := es.find? fun e => e.key = key

omit [GoString Str] in
theorem key_newer {x e : Entry Str} (h : x.key = e.key) : (newer x e).key = e.key := by
  unfold newer
  split
  · rfl
  · exact h

theorem key_mem_upsert (hc : ∀ x e, x.key = e.key → (choose x e).key = e.key) {e y : Entry Str}
    {es : List (Entry Str)} (hy : y ∈ upsert choose e es) :
    y.key = e.key ∨ ∃ x ∈ es, y.key = x.key := by
  induction es with
  | nil =>
    left
    rw [mem_singleton.1 hy]
  | cons x es ih =>
    rw [upsert] at hy
    split_ifs at hy with hlt heq
    · rcases mem_cons.1 hy with rfl | hy
      · exact .inr ⟨y, mem_cons_self .., rfl⟩
      · rcases ih hy with h | ⟨z, hz, h⟩
        · exact .inl h
        · exact .inr ⟨z, mem_cons_of_mem x hz, h⟩
    · rcases mem_cons.1 hy with rfl | hy
      · exact .inl (hc x e heq)
      · exact .inr ⟨y, mem_cons_of_mem x hy, rfl⟩
    · rcases mem_cons.1 hy with rfl | hy
      · exact .inl rfl
      · exact .inr ⟨y, hy, rfl⟩

theorem keyed_cons {x : Entry Str} {es : List (Entry Str)} :
    Keyed (x :: es) ↔ (∀ y ∈ es, x.key < y.key) ∧ Keyed es := by
  simp [Keyed]

theorem keyed_upsert
    (hc : ∀ x e, x.key = e.key → (choose x e).key = e.key) {e : Entry Str} {es : List (Entry Str)}
    (h : Keyed es) : Keyed (upsert choose e es) := by
  induction es with
  | nil => simp [upsert, Keyed]
  | cons x es ih =>
    obtain ⟨hx, hes⟩ := keyed_cons.1 h
    rw [upsert]
    split_ifs with hlt heq
    · refine keyed_cons.2 ⟨fun y hy => ?_, ih hes⟩
      rcases key_mem_upsert hc hy with h | ⟨z, hz, h⟩
      · exact hlt.trans_eq h.symm
      · exact (hx z hz).trans_eq h.symm
    · refine keyed_cons.2 ⟨fun y hy => ?_, hes⟩
      rw [hc x e heq, ← heq]
      exact hx y hy
    · have hex : e.key < x.key := lt_of_le_of_ne (not_lt.1 hlt) fun h => heq h.symm
      exact keyed_cons.2 ⟨forall_mem_cons.2 ⟨hex, fun y hy => hex.trans (hx y hy)⟩, h⟩

theorem keyed_collect : Keyed (collect es) := by
  have hfold : ∀ m : List (Entry Str), Keyed m →
      Keyed (es.foldl (fun m e => upsert newer e m) m) := by
    induction es with
    | nil => exact fun m hm => hm
    | cons e es ih => exact fun m hm => ih _ (keyed_upsert (fun _ _ => key_newer) hm)
  exact hfold [] Pairwise.nil

/-- `MemTable`, with the entries of its skip list. -/
structure MemTable (Str : Type) [GoString Str] where
  data : List (Entry Str)
  size : Int
  maxSize : Int
  keyed : Keyed data

namespace MemTable

def newMemTable (maxSize : Int) : MemTable Str :=
  { data := [], size := 0, maxSize := maxSize, keyed := Pairwise.nil }

variable (mt : MemTable Str)

def getWithTombstone (key : Str) : Option (Entry Str) := lookup mt.data key

/-- The common part of `Put` and `Delete`: the entry replaces an older one of its key. -/
def store (entry : Entry Str) : MemTable Str :=
  let old : Int := match lookup mt.data entry.key with
    | some e => e.size
    | none => 0
  { mt with
    data := upsert (fun _ e => e) entry mt.data
    size := mt.size - old + entry.size
    keyed := keyed_upsert (fun _ _ _ => rfl) mt.keyed }

/-- `Put`, at the time `now`. -/
def put (now : Int) (key value : Str) : MemTable Str :=
  mt.store { key := key, value := value, tombstone := false, timestamp := now }

/-- `Delete`, at the time `now`. -/
def delete (now : Int) (key : Str) : MemTable Str :=
  mt.store { key := key, value := ⊥, tombstone := true, timestamp := now }

def shouldFlush : Bool := decide (mt.maxSize ≤ mt.size)

end MemTable

/-- `SSTable`: the name of the file, which consists of a level and a number, and its entries. -/
structure SSTable (Str : Type) [GoString Str] where
  level : Nat
  seqNum : Nat
  entries : List (Entry Str)
  nonempty : entries ≠ []
  keyed : Keyed entries

namespace SSTable

/-- `NewSSTable`; it fails when there are no entries. -/
def newSSTable (level seqNum : Nat) (entries : List (Entry Str)) : Option (SSTable Str) :=
  if h : collect entries ≠ [] then
    some { level := level, seqNum := seqNum, entries := collect entries, nonempty := h,
           keyed := keyed_collect entries }
  else none

variable (sst : SSTable Str)

def filename : Nat × Nat := (sst.level, sst.seqNum)

def minKey : Str := (sst.entries.head sst.nonempty).key

def maxKey : Str := (sst.entries.getLast sst.nonempty).key

def get (key : Str) : Option (Entry Str) :=
  match lookup sst.entries key with
  | none => none
  | some e => if key < sst.minKey ∨ sst.maxKey < key then none else some e

def overlapsWith (minKey maxKey : Str) : Bool :=
  !(decide (sst.maxKey < minKey) || decide (maxKey < sst.minKey))

end SSTable

/-- What the store leaves open: how tables of equal `MinKey` are ordered, and in which order a
directory lists its files. -/
structure Env (Str : Type) [GoString Str] where
  sortTables : List (SSTable Str) → List (SSTable Str)
  sort_perm : ∀ tables, (sortTables tables).Perm tables
  sort_sorted : ∀ tables, (sortTables tables).Pairwise fun a b => a.minKey ≤ b.minKey
  readDir : List (SSTable Str) → List (SSTable Str)
  readDir_perm : ∀ files, (readDir files).Perm files

namespace Level

def addTables (env : Env Str) (tables new : List (SSTable Str)) : List (SSTable Str) :=
  env.sortTables (tables ++ new)

def addTable (env : Env Str) (tables : List (SSTable Str)) (sst : SSTable Str) :
    List (SSTable Str) :=
  env.sortTables (tables ++ [sst])

def removeTables (tables removed : List (SSTable Str)) : List (SSTable Str) :=
  tables.filter fun t => !removed.any fun r => decide (r.filename = t.filename)

/-- The loop of `findTable`. -/
def findTableLoop (tables : List (SSTable Str)) (key : Str) : Nat → Int → Int → Option Nat
  | 0, _, _ => none
  | fuel + 1, low, high =>
    if low ≤ high then
      let mid := (low + high) / 2
      match tables[mid.toNat]? with
      | none => none
      | some sst =>
        if key < sst.minKey then findTableLoop tables key fuel low (mid - 1)
        else if sst.maxKey < key then findTableLoop tables key fuel (mid + 1) high
        else some mid.toNat
    else none

variable (tables : List (SSTable Str))

/-- `findTable`; the `-1` of the source is `none`. -/
def findTable (key : Str) : Option Nat :=
  findTableLoop tables key (tables.length + 1) 0 (tables.length - 1)

/-- `Get`: level 0 is searched from the last table on, the other levels by their key ranges. -/
def get (level : Nat) (tables : List (SSTable Str)) (key : Str) : Option (Entry Str) :=
  if level = 0 then tables.reverse.findSome? fun sst => sst.get key
  else
    match (findTable tables key).bind fun idx => tables[idx]? with
    | none => none
    | some sst => if sst.minKey ≤ key ∧ key ≤ sst.maxKey then sst.get key else none

def findOverlappingTables (minKey maxKey : Str) : List (SSTable Str) :=
  tables.filter fun sst => sst.overlapsWith minKey maxKey

end Level

structure Config where
  memTableSize : Int
  maxLevel : Int
  levelMaxFiles : List Int
  targetFileSize : Int
  deriving Repr

/-- The last loop of `validate`, with as many rounds as levels are missing. -/
def extendMaxFiles : Nat → List Int → List Int
  | 0, files => files
  | n + 1, files => extendMaxFiles n (files ++ [files.getLastD 0 * 2])

def Config.validate (c : Config) : Config :=
  let maxLevel := if c.maxLevel ≤ 0 then 4 else c.maxLevel
  let files := if c.levelMaxFiles.length = 0 then [4, 8, 16, 32] else c.levelMaxFiles
  { memTableSize := if c.memTableSize ≤ 0 then 2 ^ 20 else c.memTableSize
    maxLevel := maxLevel
    levelMaxFiles := extendMaxFiles (maxLevel - files.length).toNat files
    targetFileSize := if c.targetFileSize ≤ 0 then 2 ^ 19 else c.targetFileSize }

/-- `DB`; `levels` is read for the levels below `MaxLevel` only. -/
structure DB (Str : Type) [GoString Str] where
  config : Config
  memTable : MemTable Str
  immutable : List (MemTable Str)
  flushing : Option (MemTable Str)
  levels : Nat → List (SSTable Str)
  seqNum : Nat
  closed : Bool

/-- The errors of `Put`, `Delete` and `Get`. -/
inductive DBError where
  | keyNotFound
  | dbClosed
  | emptyKey
  deriving DecidableEq, Repr

namespace DB

/-- The number of levels. -/
def maxLevel (db : DB Str) : Nat := db.config.maxLevel.toNat

variable (env : Env Str) (db : DB Str) (level : Nat)

/-- The round of `loadExistingSSTables` for one file. -/
def loadTable (sst : SSTable Str) : DB Str :=
  if sst.level < db.maxLevel then
    { db with
      levels := update db.levels sst.level (Level.addTable env (db.levels sst.level) sst)
      seqNum := max db.seqNum sst.seqNum }
  else db

/-- `NewDB` on a directory with the files `files`. -/
def newDB (config : Config) (files : List (SSTable Str)) : DB Str :=
  let config := config.validate
  let db : DB Str :=
    { config := config
      memTable := .newMemTable config.memTableSize
      immutable := []
      flushing := none
      levels := fun _ => []
      seqNum := 0
      closed := false }
  let db := (env.readDir files).foldl (loadTable env) db
  { db with seqNum := db.seqNum + 1 }

/-- Freeze the memtable and begin a new one. -/
def rotate : DB Str :=
  { db with
    immutable := db.immutable ++ [db.memTable]
    memTable := .newMemTable db.config.memTableSize }

/-- The common part of `Put` and `Delete`, from the check of the key on. -/
def write (key : Str) (f : MemTable Str → MemTable Str) : Except DBError (DB Str) :=
  if key = ⊥ then .error .emptyKey
  else if db.closed then .error .dbClosed
  else
    let db := { db with memTable := f db.memTable }
    .ok (if db.memTable.shouldFlush then db.rotate else db)

def put (db : DB Str) (now : Int) (key value : Str) : Except DBError (DB Str) :=
  db.write key fun mt => mt.put now key value

def delete (db : DB Str) (now : Int) (key : Str) : Except DBError (DB Str) :=
  db.write key fun mt => mt.delete now key

/-- The entry that `Get` finds first: in the memtable, in the frozen ones from the newest on, and in
the levels. -/
def search (key : Str) : Option (Entry Str) :=
  (db.memTable.getWithTombstone key).or <|
    (db.immutable.reverse.findSome? fun mt => mt.getWithTombstone key).or <|
      (db.flushing.bind fun mt => mt.getWithTombstone key).or <|
        (range db.maxLevel).findSome? fun level => Level.get level (db.levels level) key

def get (key : Str) : Except DBError Str :=
  if key = ⊥ then .error .emptyKey
  else if db.closed then .error .dbClosed
  else
    match db.search key with
    | none => .error .keyNotFound
    | some e => if e.tombstone then .error .keyNotFound else .ok e.value

/-- `flushMemTable`, to level 0; the entries are not empty when `NewSSTable` is called. -/
def flushMemTable (mt : MemTable Str) : DB Str :=
  match SSTable.newSSTable 0 db.seqNum mt.data with
  | none => db
  | some sst =>
    { db with
      seqNum := db.seqNum + 1
      levels := update db.levels 0 (Level.addTable env (db.levels 0) sst) }

/-- One round of `flushImmutable`; the memtable is `flushing` while it is written. -/
def flush : DB Str :=
  match db.immutable with
  | [] => db
  | mt :: rest =>
    let db := { db with immutable := rest, flushing := some mt }
    { db.flushMemTable env mt with flushing := none }

/-- The first `n` rounds of `flushImmutable`. -/
def flushes (env : Env Str) (db : DB Str) : Nat → DB Str
  | 0 => db
  | n + 1 => (db.flushes env n).flush env

def flushImmutable : DB Str := db.flushes env db.immutable.length

/-- `flushMemTable`, which writes its file or fails to; it has taken its number either way. -/
def flushMemTableIf (written : Bool) (mt : MemTable Str) : DB Str :=
  if written ∨ mt.data = [] then db.flushMemTable env mt else { db with seqNum := db.seqNum + 1 }

/-- `flushImmutable` with the outcome of each of its rounds. -/
def flushImmutableIf (env : Env Str) : List Bool → DB Str → DB Str
  | [], db => db
  | written :: rest, db =>
    match db.immutable with
    | [] => db
    | mt :: imm =>
      let db := { db with immutable := imm, flushing := some mt }
      flushImmutableIf env rest { db.flushMemTableIf env written mt with flushing := none }

/-- The tables that a compaction takes from its level, with the range of their keys. -/
structure Pick (Str : Type) [GoString Str] where
  tables : List (SSTable Str)
  minKey : Str
  maxKey : Str

/-- The round for the table `t` of the loop over level 0, which started with `sst`. -/
def Pick.add (sst : SSTable Str) (p : Pick Str) (t : SSTable Str) : Pick Str :=
  if t.filename ≠ sst.filename ∧ t.overlapsWith p.minKey p.maxKey then
    { tables := p.tables ++ [t]
      minKey := if t.minKey < p.minKey then t.minKey else p.minKey
      maxKey := if p.maxKey < t.maxKey then t.maxKey else p.maxKey }
  else p

/-- The tables to merge from the level: the first one, and on level 0 all that overlap. -/
def pick (tables : List (SSTable Str)) : Option (Pick Str) :=
  match tables with
  | [] => none
  | sst :: _ =>
    let p : Pick Str := { tables := [sst], minKey := sst.minKey, maxKey := sst.maxKey }
    some (if level = 0 then tables.foldl (Pick.add sst) p else p)

def hasDeeperOverlap (nextLevel : Nat) (minKey maxKey : Str) : Bool :=
  (range db.maxLevel).any fun deeper =>
    decide (nextLevel < deeper) &&
      decide (0 < (Level.findOverlappingTables (db.levels deeper) minKey maxKey).length)

/-- The loop that cuts the merged entries into files: `cur` are the entries of the current file and
`size` is their size. -/
def cut (target : Int) : List (Entry Str) → Int → List (Entry Str) → List (List (Entry Str))
  | cur, _, [] => if cur = [] then [] else [cur]
  | cur, size, e :: es =>
    if target < size + e.size ∧ cur ≠ [] then cur :: cut target [e] e.size es
    else cut target (cur ++ [e]) (size + e.size) es

/-- The calls of `NewSSTable` for the files of a compaction. -/
def createTables (level : Nat) : Nat → List (List (Entry Str)) → Option (List (SSTable Str))
  | _, [] => some []
  | seqNum, c :: cs => do
    let sst ← SSTable.newSSTable level seqNum c
    let rest ← createTables level (seqNum + 1) cs
    some (sst :: rest)

/-- The entries that a compaction writes. -/
def mergedEntries (tablesToMerge : List (SSTable Str)) (keepTombstones : Bool) : List (Entry Str) :=
  (collect (tablesToMerge.flatMap SSTable.entries)).filter fun e => !e.tombstone || keepTombstones

/-- `compactLevel`. An index out of range makes Go panic and is `none`. -/
def compactLevel : Option (DB Str) :=
  if level < db.maxLevel then
    match pick level (db.levels level) with
    | none => some db
    | some p =>
      let nextLevel := level + 1
      if nextLevel < db.maxLevel then
        let overlapping := Level.findOverlappingTables (db.levels nextLevel) p.minKey p.maxKey
        let merged := mergedEntries (p.tables ++ overlapping)
          (db.hasDeeperOverlap nextLevel p.minKey p.maxKey)
        let current := Level.removeTables (db.levels level) p.tables
        let next := Level.removeTables (db.levels nextLevel) overlapping
        if merged.length = 0 then
          some { db with
            levels := update (update db.levels level current) nextLevel next }
        else do
          let new ← createTables nextLevel db.seqNum (cut db.config.targetFileSize [] 0 merged)
          some { db with
            levels := update (update db.levels level current) nextLevel
              (Level.addTables env next new)
            seqNum := db.seqNum + new.length }
      else none
  else none

def needsCompaction : Bool :=
  decide (db.config.levelMaxFiles.getD level 0 ≤ (db.levels level).length)

/-- The loop of `runCompaction`, from a level on. -/
def runCompactionFrom (env : Env Str) : Nat → DB Str → Nat → Option (DB Str)
  | 0, _, _ => none
  | fuel + 1, db, level =>
    if level + 1 < db.maxLevel then
      if db.needsCompaction level then
        (db.compactLevel env level).bind fun db => runCompactionFrom env fuel db level
      else runCompactionFrom env fuel db (level + 1)
    else some db

/-- `runCompaction`, with a bound on its rounds. -/
def runCompaction (fuel : Nat) (db : DB Str) : Option (DB Str) :=
  runCompactionFrom env fuel db 0

/-- The first part of `Close`: no more calls, and what is left in the memtable is frozen. -/
def closing : DB Str :=
  let db := { db with closed := true }
  if 0 < db.memTable.data.length then db.rotate else db

def close : DB Str := db.closing.flushImmutable env

/-- The files of the store. -/
def files : List (SSTable Str) := (range db.maxLevel).flatMap db.levels

/-- `Close`, and `NewDB` with the same configuration. -/
def reopen : DB Str :=
  newDB env db.config (db.close env).files

end DB

/-- A step of the store. The writes carry the time that the clock shows. -/
inductive Op (Str : Type) where
  | put (now : Int) (key value : Str)
  | delete (now : Int) (key : Str)
  | rotate
  | flush
  | compact (level : Nat)
  | reopen

/-- One step; a write with an empty key changes nothing. -/
def DB.step (env : Env Str) (db : DB Str) : Op Str → Option (DB Str)
  | .put now key value =>
    match db.put now key value with
    | .ok db => some db
    | .error _ => some db
  | .delete now key =>
    match db.delete now key with
    | .ok db => some db
    | .error _ => some db
  | .rotate => some db.rotate
  | .flush => some (db.flush env)
  | .compact level => db.compactLevel env level
  | .reopen => some (db.reopen env)

/-- A sequence of steps. -/
def DB.run (env : Env Str) (db : DB Str) : List (Op Str) → Option (DB Str)
  | [] => some db
  | op :: ops => (db.step env op).bind fun db => db.run env ops

end Solocoder.LSM
