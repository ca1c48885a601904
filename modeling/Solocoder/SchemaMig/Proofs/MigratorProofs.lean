import Solocoder.Lib.Folds
import Solocoder.Lib.Runs
import Solocoder.SchemaMig.Migrator

/-!
# The records of the migrations

A call stops at the first failure. Only a failure of the bookkeeping itself leaves a statement that
was executed without its record.
-/

namespace Solocoder.SchemaMig

open Lib List

variable {r : Registry} {db : Database} {vs done : List Nat}

def Registry.versions (r : Registry) : List Nat := r.all.map (·.version)

theorem Registry.versions_sorted (r : Registry) : r.versions.Pairwise (· < ·) :=
  pairwise_map.2 r.sorted

namespace Database

/-- A version is recorded if and only if it was applied once more than it was rolled back. -/
def Mirrors (db : Database) : Prop :=
  ∀ v, v ∈ db.applied ↔ db.log.count (.up v) = db.log.count (.down v) + 1

/-- A recorded version was applied once more than it was rolled back, and any other one as often. -/
def Balanced (db : Database) : Prop :=
  ∀ v, db.log.count (.up v) = db.log.count (.down v) + if v ∈ db.applied then 1 else 0

theorem Balanced.mirrors (h : db.Balanced) : db.Mirrors := by
  intro v
  have := h v
  split at this <;> simp_all

def Lower (r : Registry) (db : Database) : Prop :=
  ∀ v ∈ db.applied, v ∈ r.versions ∧ ∀ w ∈ r.versions, w < v → w ∈ db.applied

/-- Migrations are applied in increasing order, each one above all that are recorded, or they are
rolled back in decreasing order, each one when the recorded ones above it have been rolled back. -/
def Orders (db db' : Database) : Prop :=
  ∃ vs : List Nat, db'.log = db.log ++ vs.map .up ∧ vs.Pairwise (· < ·) ∧
      (∀ v ∈ vs, ∀ w ∈ db.applied, w < v) ∨
    db'.log = db.log ++ vs.map .down ∧ vs.Pairwise (· > ·) ∧
      ∀ v ∈ vs, v ∈ db.applied ∧ ∀ w ∈ db.applied, v < w → w ∈ vs

theorem migrate_spec (o : Outcome) (skip : Migration → Bool) (check : Migration → Option MigrateErr)
    (stmt : Nat → Statement) (record : Nat → Finset Nat → Finset Nat) (migs : List Migration)
    (db : Database) : ∃ vs done, vs <+: (migs.filter (!skip ·)).map (·.version) ∧ done <+: vs ∧
      ((∀ v, o.book v) → done = vs) ∧ (db.migrate o skip check stmt record migs).1 =
        ⟨done.foldl (fun a v => record v a) db.applied, db.log ++ vs.map stmt⟩ := by
  have hstop : ∀ (db : Database) {l : List Nat}, ∃ vs done, vs <+: l ∧ done <+: vs ∧
      ((∀ v, o.book v) → done = vs) ∧ db = ⟨done.foldl (fun a v => record v a) db.applied, db.log ++ vs.map stmt⟩ :=
    fun _ => ⟨[], [], nil_prefix, nil_prefix, fun _ => rfl, by simp⟩
  induction migs generalizing db with
  | nil => exact hstop db
  | cons mig migs ih =>
    rw [migrate]
    by_cases hs : skip mig
    · rw [if_pos hs, filter_cons_of_neg (by simpa using hs)]
      exact ih db
    rw [if_neg hs, filter_cons_of_pos (by simpa using hs), map_cons]
    split
    · exact hstop db
    split_ifs with hsql hbook
    · exact hstop db
    · refine ⟨[mig.version], [], prefix_append _ _, nil_prefix, fun h => ?_, rfl⟩
      simp [h] at hbook
    · obtain ⟨vs, done, hvs, hdone, hall, heq⟩ :=
        ih ⟨record mig.version db.applied, db.log ++ [stmt mig.version]⟩
      refine ⟨mig.version :: vs, mig.version :: done, (prefix_cons_inj _).2 hvs,
        (prefix_cons_inj _).2 hdone, fun h => by rw [hall h], ?_⟩
      simp [heq]

theorem mem_of_prefix {R : Nat → Nat → Prop} {l : List Nat} (hl : l.Pairwise R) (h : vs <+: l)
    {v w : Nat} (hv : v ∈ vs) (hw : w ∈ l) (hnot : ¬ R v w) : w ∈ vs := by
  obtain ⟨rest, rfl⟩ := h
  rcases mem_append.1 hw with hw | hw
  · exact hw
  · exact absurd ((pairwise_append.1 hl).2.2 v hv w hw) hnot

/-- What a call does to a database whose records are a lower part of the registry. -/
structure Moves (r : Registry) (book : Prop) (db db' : Database) : Prop where
  orders : Orders db db'
  lower : db'.Lower r
  balanced : book → db.Balanced → db'.Balanced

section Moves

variable {book : Prop} (h : db.Lower r)
include h

theorem Moves.none : Moves r book db db :=
  ⟨⟨[], .inl ⟨by simp, .nil, nofun⟩⟩, h, fun _ h => h⟩

variable (hdone : done <+: vs) (hbook : book → done = vs)
include hdone hbook

theorem Moves.up (hvs : vs <+: r.versions.filter (· ∉ db.applied)) :
    Moves r book db ⟨done.foldl (fun a v => insert v a) db.applied, db.log ++ vs.map .up⟩ := by
  have hsorted := r.versions_sorted.filter (· ∉ db.applied)
  have hmem : ∀ v ∈ vs, v ∈ r.versions ∧ v ∉ db.applied := by simpa using fun v hv => hvs.subset hv
  have hpair := hsorted.sublist hvs.sublist
  refine ⟨⟨vs, .inl ⟨rfl, hpair, fun v hv w hw => ?_⟩⟩, fun v hv => ?_, fun hb hbal v => ?_⟩
  · by_contra hle
    refine (hmem v hv).2 ?_
    rcases (not_lt.1 hle).lt_or_eq with hlt | rfl
    · exact (h w hw).2 v (hmem v hv).1 hlt
    · exact hw
  · simp only [mem_foldl_insert] at hv ⊢
    rcases hv with hv | hv
    · exact ⟨(h v hv).1, fun w hw hlt => .inl ((h v hv).2 w hw hlt)⟩
    · refine ⟨(hmem v (hdone.subset hv)).1, fun w hw hlt => or_iff_not_imp_left.2 fun hnew => ?_⟩
      exact mem_of_prefix hsorted (hdone.trans hvs) hv (mem_filter.2 ⟨hw, by simpa using hnew⟩)
        hlt.not_gt
  · obtain rfl := hbook hb
    have hbal := hbal v
    have hup := count_map_of_injective done _ (fun _ _ => Statement.up.inj) v
    have hdown : (done.map Statement.up).count (.down v) = 0 := count_eq_zero.2 (by simp)
    simp only [count_append, hup, hdown, hpair.nodup.count, mem_foldl_insert]
    by_cases hv : v ∈ done
    · simp_all
    · simp [hv, hbal]

theorem Moves.down (hvs : vs <+: r.versions.reverse.filter (· ∈ db.applied)) :
    Moves r book db ⟨done.foldl (fun a v => a.erase v) db.applied, db.log ++ vs.map .down⟩ := by
  have hsorted := (pairwise_reverse.2 r.versions_sorted).filter (· ∈ db.applied)
  have hmem : ∀ v ∈ vs, v ∈ r.versions ∧ v ∈ db.applied := by simpa using fun v hv => hvs.subset hv
  have hpair := hsorted.sublist hvs.sublist
  have habove : ∀ {us}, us <+: vs → ∀ v ∈ us, ∀ w ∈ db.applied, v < w → w ∈ us := by
    intro us hus v hv w hw hlt
    refine mem_of_prefix hsorted (hus.trans hvs) hv ?_ hlt.not_gt
    simpa [hw] using (h w hw).1
  refine ⟨⟨vs, .inr ⟨rfl, hpair, fun v hv => ⟨(hmem v hv).2, habove prefix_rfl v hv⟩⟩⟩,
    fun v hv => ?_, fun hb hbal v => ?_⟩
  · simp only [mem_foldl_erase] at hv ⊢
    refine ⟨(h v hv.1).1, fun w hw hlt => ⟨(h v hv.1).2 w hw hlt, fun hgone => ?_⟩⟩
    exact hv.2 (habove hdone w hgone v hv.1 hlt)
  · obtain rfl := hbook hb
    have hbal := hbal v
    have hdown := count_map_of_injective done _ (fun _ _ => Statement.down.inj) v
    have hup : (done.map Statement.down).count (.up v) = 0 := count_eq_zero.2 (by simp)
    simp only [count_append, hup, hdown, hpair.nodup.count, mem_foldl_erase]
    by_cases hv : v ∈ done
    · simp_all
    · simp [hv, hbal]

end Moves

/-- The calls of a migrator. -/
inductive Call
  | up (o : Outcome)
  | upTo (o : Outcome) (target : Int)
  | rollback (o : Outcome) (target : Int)

/-- What the statements of a call come to. -/
def Call.outcome : Call → Outcome
  | .up o | .upTo o _ | .rollback o _ => o

/-- The database after a call. -/
def step (r : Registry) (db : Database) : Call → Database
  | .up o => (db.up o r).1
  | .upTo o target => (db.upTo o r target).1
  | .rollback o target => (db.rollback o r target).1

section Step

variable (h : db.Lower r)
include h

theorem moves_upLoop {o : Outcome} {migs : List Migration} (hmigs : migs <+: r.all) :
    Moves r (∀ v, o.book v) db (db.upLoop o db.applied migs).1 := by
  obtain ⟨vs, done, hvs, hdone, hbook, heq⟩ := migrate_spec o (·.version ∈ db.applied)
    (fun _ => none) .up insert migs db
  rw [upLoop, heq]
  refine .up h hdone hbook (hvs.trans ?_)
  rw [Registry.versions, filter_map]
  simpa [Function.comp_def] using (hmigs.filter _).map _

theorem moves_downLoop {o : Outcome} {migs : List Migration} (hmigs : migs <+: r.all.reverse) :
    Moves r (∀ v, o.book v) db (db.downLoop o db.applied migs).1 := by
  unfold downLoop
  generalize hcheck : (fun mig : Migration => if mig.downSQL = "" then
    some (MigrateErr.noDownSQL mig.version) else none) = check
  obtain ⟨vs, done, hvs, hdone, hbook, heq⟩ := migrate_spec o (·.version ∉ db.applied) check
    .down (fun v a => a.erase v) migs db
  rw [heq]
  refine .down h hdone hbook (hvs.trans ?_)
  rw [Registry.versions, ← map_reverse, filter_map]
  simpa [Function.comp_def] using (hmigs.filter _).map _

theorem moves_step (call : Call) : Moves r (∀ v, call.outcome.book v) db (db.step r call) := by
  cases call with
  | up o =>
    simp only [step, Database.up]
    split_ifs
    exacts [.none h, .none h, moves_upLoop h prefix_rfl]
  | upTo o target =>
    simp only [step, upTo]
    split_ifs
    exacts [.none h, moves_upLoop h ( takeWhile_prefix _)]
  | rollback o target =>
    simp only [step, rollback]
    split_ifs
    exacts [.none h, .none h, .none h, moves_downLoop h ( takeWhile_prefix _)]

end Step

/-- As long as the bookkeeping succeeds, it mirrors what was executed. The order is kept by every call
of every run, whatever fails. -/
theorem mirrors_and_orders (r : Registry) :
    (∀ db, Runs (step r) (fun _ call => ∀ v, call.outcome.book v) ⟨∅, []⟩ db → db.Mirrors) ∧
      ∀ db, Runs (step r) (fun _ _ => True) ⟨∅, []⟩ db → ∀ call, Orders db (db.step r call) := by
  have hinit : Lower r ⟨∅, []⟩ := nofun
  constructor
  · intro db hrun
    refine (hrun.invariant (P := fun db => Lower r db ∧ Balanced db) ⟨hinit, fun _ => rfl⟩ ?_).2.mirrors
    intro db call hdb hok
    have hmoves := moves_step hdb.1 call
    exact ⟨hmoves.lower, hmoves.balanced hok hdb.2⟩
  · intro db hrun call
    have hlower := hrun.invariant hinit fun db call hdb _ => (moves_step hdb call).lower
    exact (moves_step hlower call).orders

def threeMigrations : Registry :=
  ⟨[⟨1, "create", "drop"⟩, ⟨2, "insert", ""⟩, ⟨3, "alter", "restore"⟩], by decide⟩

example : (do
    let r ← Registry.newRegistry.register 3 "alter" "restore"
    let r ← r.register 1 "create" "drop"
    r.register 2 "insert" "").map Registry.all = .ok threeMigrations.all := by
  rfl

def fourCalls : List Call :=
  let ok : Outcome := ⟨true, fun _ => true, fun _ => true⟩
  [.upTo ok 1, .up { ok with sql := (· ≠ 3) }, .up ok, .rollback ok 0]

theorem mirrors_and_orders_fourCalls :
    let db := fourCalls.foldl (step threeMigrations) ⟨∅, []⟩
    db.applied = {1, 2} ∧ db.log = [.up 1, .up 2, .up 3, .down 3] ∧ db.Mirrors ∧
      Orders db (db.step threeMigrations (.up ⟨true, fun _ => true, fun _ => false⟩)) :=
  ⟨by decide, by decide,
    (mirrors_and_orders _).1 (fourCalls.foldl _ _) (Runs.init.steps
      ⟨fun _ => rfl, fun _ => rfl, fun _ => rfl, fun _ => rfl, trivial⟩),
    (mirrors_and_orders _).2 (fourCalls.foldl _ _) (Runs.init.steps
      ⟨trivial, trivial, trivial, trivial, trivial⟩) _⟩

/-- The record of a migration that was executed fails. -/
theorem not_mirrors_and_orders :
    ¬ (step threeMigrations ⟨∅, []⟩ (.up ⟨true, fun _ => true, fun _ => false⟩)).Mirrors :=
  fun h => absurd ((h 1).mpr (by decide)) (by decide)

end Database

end Solocoder.SchemaMig
