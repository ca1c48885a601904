import Solocoder.Orchestration.Scheduler
import Solocoder.Orchestration.Proofs.GraphProofs
import Solocoder.Lib.Countdown

/-!
# Proofs: the order of the tasks in a run

A task whose count has come to zero is in a channel, with a goroutine, or processed. The count is
what its dependencies have not yet marked, so it comes to zero once, when all of them are processed.
-/

namespace Solocoder.Orchestration

open Lib.Countdown List Function Run Orchestrator AList TaskStatus

/-! ## Where a task is -/

structure Places where
  taskCh : Nat
  spawned : Nat
  active : Nat
  sending : Nat
  completed : Nat
  processed : Nat
  dispatched : Nat
  started : Nat

def Run.places (s : Run) (id : String) : Places :=
  ⟨s.taskCh.count id, s.spawned.count id, s.active.count id, s.sending.count id,
    s.completed.count id, s.processed.count id, s.dispatched.count id, s.started.count id⟩

def Run.tracked (s : Run) : List String :=
  s.taskCh ++ s.spawned ++ s.active ++ s.sending ++ s.completed ++ s.processed

def Places.total (p : Places) : Nat :=
  p.taskCh + p.spawned + p.active + p.sending + p.completed + p.processed

theorem Run.count_tracked (s : Run) (id : String) : s.tracked.count id = (s.places id).total := by
  simp only [tracked, count_append, places, Places.total]

variable {id : String} {l taskSet rest : List String}

theorem Run.mem_tracked {s : Run} : id ∈ s.tracked ↔ 0 < (s.places id).total := by
  rw [← count_tracked, count_pos_iff]

def Cleared (o : Orchestrator) (results : String → TaskResult) (id : String) : Prop :=
  ∀ dep ∈ o.deps id, (results dep).status = .success

def Hindered (o : Orchestrator) (results : String → TaskResult) (id : String) : Prop :=
  ∃ dep ∈ o.deps id, (results dep).status.Bad

def TaskStatus.Final (status : TaskStatus) : Prop := status = .success ∨ status.Bad

/-- The status of a task that has ended is final and agrees with its dependencies. -/
structure Ended (o : Orchestrator) (results : String → TaskResult) (id : String) : Prop where
  final : (results id).status.Final
  skipped : (results id).status = .skipped → Hindered o results id

section Update

variable {o : Orchestrator} {results : String → TaskResult} {id x : String} {r : TaskResult}
  (hx : ¬ (results x).status.Final)
include hx

theorem Cleared.update (h : Cleared o results id) : Cleared o (update results x r) id := by
  intro dep hdep
  have hne : dep ≠ x := by
    rintro rfl
    exact hx (.inl (h dep hdep))
  rw [update_of_ne hne]
  exact h dep hdep

theorem Hindered.update (h : Hindered o results id) : Hindered o (update results x r) id := by
  obtain ⟨dep, hdep, hbad⟩ := h
  have hne : dep ≠ x := by
    rintro rfl
    exact hx (.inr hbad)
  exact ⟨dep, hdep, by rwa [update_of_ne hne]⟩

theorem Ended.update (h : Ended o results id) : Ended o (update results x r) id := by
  have hne : id ≠ x := by
    rintro rfl
    exact hx h.final
  have heq : Function.update results x r id = results id := update_of_ne hne _ _
  refine ⟨by rw [heq]; exact h.final, fun hskip => ?_⟩
  rw [heq] at hskip
  exact (h.skipped hskip).update hx

end Update

theorem not_final_pending : ¬ Final .pending := by
  unfold Final Bad
  decide

theorem not_final_running : ¬ Final .running := by
  unfold Final Bad
  decide

theorem executeResult_status (maxRetry : Int) (attempt : Nat → Attempt) (result : TaskResult) :
    (executeResult maxRetry attempt result).status.Final ∧
      (executeResult maxRetry attempt result).status ≠ .skipped := by
  unfold executeResult Final Bad
  dsimp only
  split <;> simp

/-! ## The invariant -/

/-- What every state of a run keeps for a task that occurs in the places `p`, and `due` times among
those that have come to the count zero and are still to be sent to a channel. -/
structure Placed (o : Orchestrator) (results : String → TaskResult) (ready : Int) (p : Places)
    (due : Nat) (id : String) : Prop where
  once : p.total + due ≤ 1
  known : 0 < p.total + due → id ∈ o.tasks
  released : id ∈ o.tasks → (0 < p.total + due ↔ ready = 0)
  pending : p.active + p.sending + p.completed + p.processed = 0 → (results id).status = .pending
  running : 0 < p.active → (results id).status = .running
  cleared : 0 < p.taskCh + p.spawned + p.active + p.started → Cleared o results id
  ended : 0 < p.sending + p.completed + p.processed → Ended o results id
  dispatched : p.dispatched + p.taskCh ≤ p.total
  started : p.started + p.spawned ≤ p.dispatched

/-- What every state of a run keeps. -/
structure Sound (o : Orchestrator) (due : List String) (s : Run) : Prop where
  placed : ∀ id, Placed o s.results (s.readyCount id) (s.places id) (due.count id) id
  /-- The count of a task, and the marks that are left for it and those still to be made. -/
  ready : ∀ id ∈ o.tasks, s.readyCount id + ((s.processed.flatMap o.succs).count id : Int) =
    (o.deps id).length + (s.work.count id : Int)
  completedCount : s.completedCount = s.processed.length

variable {o : Orchestrator} {order due : List String} {s s' : Run} {id x : String}

theorem Placed.update {results : String → TaskResult} {ready : Int} {p : Places} {n : Nat}
    {r : TaskResult} (hx : ¬ (results x).status.Final) (hne : id ≠ x)
    (h : Placed o results ready p n id) : Placed o (update results x r) ready p n id :=
  { h with
    pending := by rw [update_of_ne hne]; exact h.pending
    running := by rw [update_of_ne hne]; exact h.running
    cleared := fun hp => (h.cleared hp).update hx
    ended := fun hp => (h.ended hp).update hx }

theorem Sound.move {due' : List String} (h : Sound o due s) (x : String)
    (hother : ∀ id ≠ x, s'.places id = s.places id ∧ due'.count id = due.count id ∧
      s'.readyCount id = s.readyCount id)
    (hresults : s'.results = s.results ∨
      ¬ (s.results x).status.Final ∧ ∃ r, s'.results = update s.results x r)
    (hx : Placed o s'.results (s'.readyCount x) (s'.places x) (due'.count x) x) (id : String) :
    Placed o s'.results (s'.readyCount id) (s'.places id) (due'.count id) id := by
  by_cases hid : id = x
  · rwa [hid]
  · obtain ⟨hplaces, hdue, hready⟩ := hother id hid
    rw [hplaces, hdue, hready]
    rcases hresults with heq | ⟨hopen, r, heq⟩
    · exact heq ▸ h.placed id
    · exact heq ▸ (h.placed id).update hopen hid

theorem Sound.nodup_tracked (h : Sound o due s) : (s.tracked ++ due).Nodup := by
  refine nodup_iff_count_le_one.2 fun a => ?_
  rw [count_append, count_tracked]
  exact (h.placed a).once

theorem Sound.nodup_processed (h : Sound o due s) : s.processed.Nodup :=
  h.nodup_tracked.of_append_left.of_append_right

theorem Sound.processed_of_ready (hb : o.Built order) (h : Sound o due s) (hid : id ∈ o.tasks)
    (hzero : s.readyCount id = 0) :
    s.work.count id = 0 ∧ ∀ d ∈ o.deps id, d ∈ s.processed ∧ order.idxOf d < order.idxOf id := by
  have hcount : ∀ d, (o.succs d).count id =
      if order.idxOf d < order.idxOf id then (o.deps id).count d else 0 := fun d => hb.count d id
  have hle := count_flatMap_le hcount h.nodup_processed
  have hready := h.ready id hid
  refine ⟨by omega, ?_⟩
  exact (count_flatMap_eq_length_iff hcount h.nodup_processed).1 (by omega)

/-! ## Releasing a task -/

theorem shouldSkip_cases (o : Orchestrator) (results : String → TaskResult) (id : String) :
    (∃ dep err, o.shouldSkip results id = some (dep, err) ∧ Hindered o results id) ∨
      o.shouldSkip results id = none ∧ ∀ dep ∈ o.deps id, ¬ (results dep).status.Bad := by
  unfold shouldSkip
  cases hfind : (o.deps id).find? fun dep => (results dep).status.Bad with
  | none =>
    refine .inr ⟨rfl, fun dep hdep => ?_⟩
    simpa using find?_eq_none.1 hfind dep hdep
  | some dep =>
    refine .inl ⟨dep, _, rfl, dep, mem_of_find?_eq_some hfind, ?_⟩
    simpa using find?_some hfind

theorem Sound.release (hb : o.Built order) (h : Sound o (x :: due) s) {capacity : Nat}
    (hrel : o.release capacity s x = some s') : Sound o due s' ∧ s'.readyCount = s.readyCount := by
  obtain ⟨once, known, released, pending, -, -, -, dispatched, started⟩ := h.placed x
  rw [count_cons_self] at once known released
  simp only [Places.total, places] at once known released pending dispatched started
  have hxt := known (by omega)
  have hpending := pending (by omega)
  have hopen : ¬ (s.results x).status.Final := hpending ▸ not_final_pending
  unfold Orchestrator.release at hrel
  rcases shouldSkip_cases o s.results x with ⟨dep, err, hskip, hhind⟩ | ⟨hskip, hok⟩
  · simp only [hskip, Option.ite_none_right_eq_some, Option.some.injEq] at hrel
    obtain ⟨-, rfl⟩ := hrel
    refine ⟨⟨h.move x (fun id hid => ?_) (.inr ⟨hopen, _, rfl⟩) ?_, h.ready, h.completedCount⟩, rfl⟩
    · simp [places, skip, hid.symm]
    · have hended : Ended o (s.skip x dep err).results x :=
        ⟨by simp [skip, Final, Bad], fun _ => hhind.update hopen⟩
      constructor <;> grind [places, Places.total, skip]
  · simp only [hskip, Option.ite_none_right_eq_some, Option.some.injEq] at hrel
    obtain ⟨-, rfl⟩ := hrel
    -- every dependency has been processed, so it has ended, and none has ended badly
    have hclear : Cleared o s.results x := by
      intro dep hdep
      have hproc := ((h.processed_of_ready hb hxt ((released hxt).1 (by omega))).2 dep hdep).1
      refine ((h.placed dep).ended ?_).final.resolve_right (hok dep hdep)
      exact Nat.add_pos_right _ (count_pos_iff.2 hproc)
    refine ⟨⟨h.move x (fun id hid => ?_) (.inl rfl) ?_, h.ready, h.completedCount⟩, rfl⟩
    · simp [places, enqueue, hid.symm]
    · constructor <;> grind [places, Places.total, enqueue]

/-! ## Room in the channels -/

theorem Sound.length_le (h : Sound o due s) :
    s.tracked.length + due.length ≤ o.tasks.keys.length := by
  have hsub : s.tracked ++ due ⊆ o.tasks.keys := by
    intro a ha
    refine mem_keys.1 ((h.placed a).known ?_)
    rwa [← count_tracked, ← count_append, count_pos_iff]
  have hle := (subperm_of_subset h.nodup_tracked hsub).length_le
  rwa [length_append] at hle

theorem Run.length_tracked (s : Run) :
    s.tracked.length = s.taskCh.length + s.spawned.length + s.active.length + s.sending.length +
      s.completed.length + s.processed.length := by
  simp only [tracked, length_append]

theorem Sound.exists_release (h : Sound o (x :: due) s) :
    ∃ s', o.release o.tasks.keys.length s x = some s' := by
  have hle := h.length_le
  rw [length_tracked, length_cons] at hle
  unfold Orchestrator.release
  split
  · exact ⟨_, if_pos (by omega)⟩
  · exact ⟨_, if_pos (by omega)⟩

/-! ## The start of a run -/

theorem Sound.initial (hset : taskSet.Perm o.tasks.keys) (hcomplete : o.Complete) : Sound o
      (taskSet.filter fun id => (o.initial (fun _ => pendingResult) taskSet).readyCount id = 0)
      (o.initial (fun _ => pendingResult) taskSet) := by
  have hmem : ∀ id, id ∈ taskSet ↔ id ∈ o.tasks := fun id => hset.mem_iff
  have hnodup : taskSet.Nodup := hset.symm.nodup_iff.1 o.tasks.keys_nodup
  have hready : ∀ id, (o.deps id).countP (· ∈ taskSet) = (o.deps id).length := by
    intro id
    refine countP_eq_length.2 fun dep hdep => ?_
    simpa [hmem] using hcomplete id dep hdep
  refine ⟨fun id => ?_, by simp [Orchestrator.initial, hready], rfl⟩
  have hone := nodup_iff_count_le_one.1 (hnodup.filter fun id =>
    (o.initial (fun _ => pendingResult) taskSet).readyCount id = 0) id
  have hdue : 0 < (taskSet.filter fun id =>
      (o.initial (fun _ => pendingResult) taskSet).readyCount id = 0).count id ↔
        id ∈ o.tasks ∧ (o.initial (fun _ => pendingResult) taskSet).readyCount id = 0 := by
    rw [count_pos_iff, mem_filter, hmem, decide_eq_true_iff]
  constructor <;> grind [places, Places.total, Orchestrator.initial, pendingResult]

theorem Sound.releaseReady (hb : o.Built order) (ids : List String)
    (h : Sound o (ids.filter fun id => s.readyCount id = 0) s) :
    ∃ s', o.releaseReady o.tasks.keys.length ids s = some s' ∧ Sound o [] s' := by
  induction ids generalizing s with
  | nil => exact ⟨s, rfl, h⟩
  | cons id ids ih =>
    unfold releaseReady
    by_cases hzero : s.readyCount id = 0
    · rw [filter_cons_of_pos (by simpa using hzero)] at h
      obtain ⟨s1, hrel⟩ := h.exists_release
      obtain ⟨hs1, hcount⟩ := h.release hb hrel
      obtain ⟨s', hrest, hs'⟩ := ih (s := s1) (by rwa [hcount])
      exact ⟨s', by rw [if_pos hzero, hrel]; exact hrest, hs'⟩
    · rw [filter_cons_of_neg (by simpa using hzero)] at h
      obtain ⟨s', hrest, hs'⟩ := ih h
      exact ⟨s', by rw [if_neg hzero]; exact hrest, hs'⟩

theorem Sound.start (hb : o.Built order) (hset : taskSet.Perm o.tasks.keys)
    (hcomplete : o.Complete) : ∃ s, o.start (fun _ => pendingResult) taskSet = some s ∧
      Sound o [] s := by
  unfold Orchestrator.start
  rw [hset.length_eq]
  exact (Sound.initial hset hcomplete).releaseReady hb taskSet

/-! ## Steps -/

theorem step_cases {e : Event} (h : o.step taskSet s e = some s') :
    (∃ id rest, s.taskCh = id :: rest ∧ s' = s.spawn id rest) ∨
    (∃ id ∈ s.spawned, s' = s.begin id) ∨
    (∃ id ∈ s.active, ∃ maxRetry attempt,
      s' = s.finish id (executeResult maxRetry attempt (s.results id))) ∨
    (∃ id ∈ s.sending, s' = s.announce id) ∨
    (∃ id rest, s.work = [] ∧ s.completed = id :: rest ∧ s' = s.receive id rest (o.succs id)) ∨
    (∃ x rest, s.work = x :: rest ∧ x ∉ taskSet ∧ s' = { s with work := rest }) ∨
    (∃ x rest, s.work = x :: rest ∧ x ∈ taskSet ∧ s.readyCount x - 1 ≠ 0 ∧
      s' = s.countDown x rest) ∨
    (∃ x rest, s.work = x :: rest ∧ x ∈ taskSet ∧ s.readyCount x - 1 = 0 ∧
      o.release taskSet.length (s.countDown x rest) x = some s') := by
  unfold step at h
  cases e <;> grind

theorem Sound.countDown (hb : o.Built order) (h : Sound o [] s) (hwork : s.work = x :: rest)
    (hxt : x ∈ o.tasks) :
    Sound o (if s.readyCount x - 1 = 0 then [x] else []) (s.countDown x rest) := by
  have hnot : s.readyCount x ≠ 0 := by
    intro hzero
    have hnone := (h.processed_of_ready hb hxt hzero).1
    rw [hwork, count_cons_self] at hnone
    omega
  refine ⟨h.move x (fun id hid => ⟨rfl, ?_, update_of_ne hid ..⟩) (.inl rfl) ?_, fun id hid => ?_,
    h.completedCount⟩
  · split <;> simp [hid.symm]
  · obtain ⟨once, known, released, pending, running, cleared, ended, dispatched, started⟩ :=
      h.placed x
    have hself : (s.countDown x rest).readyCount x = s.readyCount x - 1 := update_self ..
    constructor <;> grind [places, Places.total, Run.countDown]
  · have hready := h.ready id hid
    rw [hwork, count_cons] at hready
    rcases eq_or_ne id x with rfl | hid
    · simp [Run.countDown] at hready ⊢
      omega
    · simpa [Run.countDown, hid, hid.symm] using hready

section

variable (h : Sound o [] s)
include h

theorem Sound.spawn (hch : s.taskCh = x :: rest) : Sound o [] (s.spawn x rest) := by
  refine ⟨h.move x (fun id hid => ?_) (.inl rfl) ?_, h.ready, h.completedCount⟩
  · simp [places, Run.spawn, hch, hid.symm]
  · obtain ⟨once, known, released, pending, running, cleared, ended, dispatched, started⟩ :=
      h.placed x
    constructor <;> grind [places, Places.total, Run.spawn]

theorem Sound.begin (hx : x ∈ s.spawned) : Sound o [] (s.begin x) := by
  obtain ⟨once, known, released, pending, running, cleared, ended, dispatched, started⟩ :=
    h.placed x
  have hpos := count_pos_iff.2 hx
  have hopen : ¬ (s.results x).status.Final :=
    pending (by grind [places, Places.total]) ▸ not_final_pending
  have hclear : Cleared o (s.begin x).results x := (cleared (by grind [places])).update hopen
  have hself : ((s.begin x).results x).status = .running := by simp [Run.begin]
  refine ⟨h.move x (fun id hid => ?_) (.inr ⟨hopen, _, rfl⟩) ?_, h.ready, h.completedCount⟩
  · simp [places, Run.begin, hid, hid.symm]
  · constructor <;> grind [places, Places.total, Run.begin]

theorem Sound.finish (hx : x ∈ s.active) {result : TaskResult} (hfinal : result.status.Final)
    (hskip : result.status ≠ .skipped) : Sound o [] (s.finish x result) := by
  obtain ⟨once, known, released, pending, running, cleared, ended, dispatched, started⟩ :=
    h.placed x
  have hpos := count_pos_iff.2 hx
  have hopen : ¬ (s.results x).status.Final := running hpos ▸ not_final_running
  have hclear : Cleared o (s.finish x result).results x := (cleared (by grind [places])).update hopen
  have hself : (s.finish x result).results x = result := update_self ..
  have hended : Ended o (s.finish x result).results x :=
    ⟨by rwa [hself], fun hs => absurd (by rwa [hself] at hs) hskip⟩
  refine ⟨h.move x (fun id hid => ?_) (.inr ⟨hopen, _, rfl⟩) ?_, h.ready, h.completedCount⟩
  · simp [places, Run.finish, hid, hid.symm]
  · constructor <;> grind [places, Places.total, Run.finish]

theorem Sound.announce (hx : x ∈ s.sending) : Sound o [] (s.announce x) := by
  have hpos := count_pos_iff.2 hx
  refine ⟨h.move x (fun id hid => ?_) (.inl rfl) ?_, h.ready, h.completedCount⟩
  · simp [places, Run.announce, hid, hid.symm]
  · obtain ⟨once, known, released, pending, running, cleared, ended, dispatched, started⟩ :=
      h.placed x
    constructor <;> grind [places, Places.total, Run.announce]

theorem Sound.receive (hwork : s.work = []) (hch : s.completed = x :: rest) :
    Sound o [] (s.receive x rest (o.succs x)) := by
  refine ⟨h.move x (fun id hid => ?_) (.inl rfl) ?_, fun a ha => ?_, ?_⟩
  · simp [places, Run.receive, hch, hid.symm]
  · obtain ⟨once, known, released, pending, running, cleared, ended, dispatched, started⟩ :=
      h.placed x
    constructor <;> grind [places, Places.total, Run.receive]
  · -- the marks of the received task are all still to be made
    have hready := h.ready a ha
    rw [hwork, count_nil] at hready
    simp only [Run.receive, flatMap_append, flatMap_singleton, count_append]
    omega
  · simp [Run.receive, h.completedCount]

end

theorem Sound.step (hb : o.Built order) (h : Sound o [] s) {e : Event}
    (hstep : o.step o.tasks.keys s e = some s') : Sound o [] s' := by
  rcases step_cases hstep with ⟨id, rest, hch, rfl⟩ | ⟨id, hid, rfl⟩ |
    ⟨id, hid, maxRetry, attempt, rfl⟩ | ⟨id, hid, rfl⟩ | ⟨id, rest, hwork, hch, rfl⟩ |
    ⟨x, rest, hwork, hx, rfl⟩ | ⟨x, rest, hwork, hx, hcount, rfl⟩ |
    ⟨x, rest, hwork, hx, hcount, hrel⟩
  · exact h.spawn hch
  · exact h.begin hid
  · obtain ⟨hfinal, hskip⟩ := executeResult_status maxRetry attempt (s.results id)
    exact h.finish hid hfinal hskip
  · exact h.announce hid
  · exact h.receive hwork hch
  · -- no task of that name: no count is kept for it
    refine { h with ready := fun a ha => ?_ }
    have hready := h.ready a ha
    have hne : x ≠ a := by
      rintro rfl
      exact hx (mem_keys.1 ha)
    rwa [hwork, count_cons_of_ne hne] at hready
  · have hdown := h.countDown hb hwork (mem_keys.2 hx)
    rwa [if_neg hcount] at hdown
  · have hdown := h.countDown hb hwork (mem_keys.2 hx)
    rw [if_pos hcount] at hdown
    exact (hdown.release hb hrel).1

theorem Orchestrator.Reachable.steps (events : List Event) (hs : o.Reachable s)
    (h : o.steps o.tasks.keys s events = some s') : o.Reachable s' := by
  induction events generalizing s with
  | nil =>
    cases h
    exact hs
  | cons e events ih =>
    obtain ⟨s1, hstep, hrest⟩ := Option.bind_eq_some_iff.1 h
    exact ih (hs.step hstep) hrest

theorem Sound.reachable (hb : o.Built order) (hcomplete : o.Complete) (h : o.Reachable s) :
    Sound o [] s := by
  induction h with
  | start horder h =>
    obtain ⟨s, hs, hsound⟩ := Sound.start hb horder hcomplete
    rwa [Option.some.inj (hs.symm.trans h)] at hsound
  | step _ h ih => exact ih.step hb h

theorem Sound.ended_of_skipped (h : Sound o [] s) (hskip : (s.results id).status = .skipped) :
    Ended o s.results id := by
  obtain ⟨-, -, -, pending, running, -, ended, -, -⟩ := h.placed id
  refine ended (Nat.pos_of_ne_zero fun hzero => ?_)
  by_cases hactive : 0 < (s.places id).active
  · rw [running hactive] at hskip
    cases hskip
  · rw [pending (by omega)] at hskip
    cases hskip

/-- In a run of an accepted graph, tasks start after all their dependencies succeeded, are skipped
only because of one that did not, and are dispatched once. -/
theorem tasks_run_in_order (calls : List (String × List String)) (order order' : List String)
    (horder : order.Perm (newOrchestrator.addTasks calls).tasks.keys)
    (horder' : order'.Perm (newOrchestrator.addTasks calls).tasks.keys)
    (haccept : (newOrchestrator.addTasks calls).validateDAG order order' = some none) (s : Run)
    (hs : (newOrchestrator.addTasks calls).Reachable s) :
    (∀ id ∈ s.started, ∀ dep ∈ (newOrchestrator.addTasks calls).deps id,
        (s.results dep).status = .success) ∧
      (∀ id, (s.results id).status = .skipped →
        ∃ dep ∈ (newOrchestrator.addTasks calls).deps id, (s.results dep).status = .failed ∨
          (s.results dep).status = .timeout ∨ (s.results dep).status = .skipped) ∧
      s.dispatched.Nodup ∧ s.started.Nodup := by
  obtain ⟨built, hbuilt⟩ := Built.new.addTasks calls
  have hcomplete := (validateDAG_eq_nil calls horder horder').1 haccept
  have hsound := Sound.reachable hbuilt hcomplete hs
  refine ⟨fun id hid => (hsound.placed id).cleared (Nat.add_pos_right _ (count_pos_iff.2 hid)),
    fun id hskip => (hsound.ended_of_skipped hskip).skipped hskip, ?_, ?_⟩ <;>
  · refine nodup_iff_count_le_one.2 fun id => ?_
    obtain ⟨once, -, -, -, -, -, -, dispatched, started⟩ := hsound.placed id
    simp only [places] at once dispatched started
    omega

/-- The second task lists its dependency twice. -/
theorem tasks_run_in_order_repeatedDependency :
    ∃ s, (newOrchestrator.addTasks [("a", []), ("b", ["a", "a"])]).Reachable s ∧
      s.started = ["a", "b"] ∧ (s.results "a").status = .success := by
  have horder : ["a", "b"].Perm
      (newOrchestrator.addTasks [("a", []), ("b", ["a", "a"])]).tasks.keys := by decide
  have hs := (Reachable.start horder rfl).steps
    [.dispatch, .begin "a", .finish "a" 0 fun _ => .ok, .announce "a", .receive, .advance,
      .advance, .dispatch, .begin "b"] rfl
  exact ⟨_, hs, rfl, (tasks_run_in_order _ _ _ horder horder (by decide) _ hs).1 "b" (by decide)
    "a" (by decide)⟩

end Solocoder.Orchestration
