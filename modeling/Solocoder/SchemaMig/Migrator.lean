import Mathlib.Order.Lattice.Nat

/-!
# The migrator of `internal/schemamig`

The statements of the migrations that were executed are logged. The failures of a call are given by
functions of the version; a statement that fails has no effect.
-/

namespace Solocoder.SchemaMig

structure Migration where
  version : Nat
  upSQL : String
  downSQL : String

/-- The registry keeps its versions sorted, and has each of them once. -/
structure Registry where
  all : List Migration
  sorted : all.Pairwise (·.version < ·.version)

inductive RegisterErr
  | invalidVersion
  | emptyUpSQL
  | duplicateVersion (version : Int)
deriving DecidableEq

namespace Registry

def newRegistry : Registry := ⟨[], .nil⟩

def sort (migs : List Migration) : List Migration := migs.insertionSort (·.version ≤ ·.version)

theorem pairwise_sort {migs : List Migration} (h : migs.Pairwise (·.version ≠ ·.version)) :
    (sort migs).Pairwise (·.version < ·.version) := by
  have : Std.Total fun a b : Migration => a.version ≤ b.version := ⟨fun a b => Nat.le_total _ _⟩
  have : IsTrans Migration fun a b => a.version ≤ b.version := ⟨fun a b c => Nat.le_trans⟩
  have hne : (sort migs).Pairwise (·.version ≠ ·.version) :=
    h.perm (List.perm_insertionSort _ migs).symm Ne.symm
  exact ((List.pairwise_insertionSort _ migs).and hne).imp fun h => Nat.lt_of_le_of_ne h.1 h.2

def register (r : Registry) (version : Int) (upSQL downSQL : String) :
    Except RegisterErr Registry :=
  if version ≤ 0 then .error .invalidVersion
  else if upSQL = "" then .error .emptyUpSQL
  else if h : ∃ mig ∈ r.all, mig.version = version.toNat then .error (.duplicateVersion version)
  else .ok ⟨sort (r.all ++ [⟨version.toNat, upSQL, downSQL⟩]), pairwise_sort <| by
    rw [List.pairwise_append]
    refine ⟨r.sorted.imp Nat.ne_of_lt, List.pairwise_singleton _ _, fun mig hmig new hnew heq => ?_⟩
    rw [List.mem_singleton.1 hnew] at heq
    exact h ⟨mig, hmig, heq⟩⟩

end Registry

inductive Statement
  | up (version : Nat)
  | down (version : Nat)
deriving DecidableEq

structure Database where
  applied : Finset Nat
  log : List Statement

/-- What succeeds in a call: all of the tables, the lock and the queries; the SQL of a migration; its
bookkeeping. -/
structure Outcome where
  setup : Bool
  sql : Nat → Bool
  book : Nat → Bool

inductive MigrateErr
  | setup
  | noMigrations
  | rollbackTarget
  | noDownSQL (version : Nat)
  | sqlFailed (version : Nat)
  | bookFailed (version : Nat)

namespace Database

variable (o : Outcome)

/-- The loop over migrations: one that is not left out and passes the check is executed, and then
its record is changed. -/
def migrate (skip : Migration → Bool) (check : Migration → Option MigrateErr)
    (stmt : Nat → Statement) (record : Nat → Finset Nat → Finset Nat) :
    List Migration → Database → Database × List Nat × Option MigrateErr
  | [], db => (db, [], none)
  | mig :: migs, db =>
    if skip mig then migrate skip check stmt record migs db
    else
      match check mig with
      | some err => (db, [], some err)
      | none =>
        if !o.sql mig.version then (db, [], some (.sqlFailed mig.version))
        else if !o.book mig.version then
          ({ db with log := db.log ++ [stmt mig.version] }, [], some (.bookFailed mig.version))
        else
          let (db, versions, err) := migrate skip check stmt record migs
            ⟨record mig.version db.applied, db.log ++ [stmt mig.version]⟩
          (db, mig.version :: versions, err)

/-- The loop of `Up` and `UpTo`. -/
def upLoop (applied : Finset Nat) :
    List Migration → Database → Database × List Nat × Option MigrateErr :=
  migrate o (·.version ∈ applied) (fun _ => none) .up insert

/-- The loop of `rollbackInternal`, from the last migration on. -/
def downLoop (applied : Finset Nat) :
    List Migration → Database → Database × List Nat × Option MigrateErr :=
  migrate o (·.version ∉ applied)
    (fun mig => if mig.downSQL = "" then some (.noDownSQL mig.version) else none) .down
    fun version applied => applied.erase version

variable (r : Registry) (db : Database)

def up : Database × List Nat × Option MigrateErr :=
  if !o.setup then (db, [], some .setup)
  else if r.all = [] then (db, [], some .noMigrations)
  else db.upLoop o db.applied r.all

def upTo (target : Int) : Database × List Nat × Option MigrateErr :=
  if !o.setup then (db, [], some .setup)
  else db.upLoop o db.applied (r.all.takeWhile (·.version ≤ target))

def rollback (target : Int) : Database × List Nat × Option MigrateErr :=
  let current := db.applied.sup id
  if !o.setup then (db, [], some .setup)
  else if current < target then (db, [], some .rollbackTarget)
  else if target = current then (db, [], none)
  else db.downLoop o db.applied (r.all.reverse.takeWhile (target < ·.version))

end Database

end Solocoder.SchemaMig
