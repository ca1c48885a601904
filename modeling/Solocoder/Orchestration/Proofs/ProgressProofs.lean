import Mathlib.Data.Prod.Lex
import Solocoder.Orchestration.Proofs.SchedulerProofs

/-!
# Proofs: progress of a run

A task that was added before one of its dependencies is never marked by it: its count never comes to
zero and the run gets stuck.
-/

namespace Solocoder.Orchestration

open Lib.Countdown List Run Sound AList Orchestrator.Reachable Orchestrator

/-- Something is still to be done. -/
def Run.Busy (s : Run) : Prop :=
  s.taskCh ≠ [] ∨ s.spawned ≠ [] ∨ s.active ≠ [] ∨ s.sending ≠ [] ∨ s.completed ≠ [] ∨ s.work ≠ []

namespace Orchestrator

/-- Each call of `AddTask` that is accepted names only dependencies that exist already. -/
def AddedInOrder : Orchestrator → List (String × List String) → Prop
  | _, [] => True
  | o, (id, ds) :: calls =>
    ((o.addTask id ds).2 = none → ∀ dep ∈ ds, dep ∈ o.tasks) ∧
      AddedInOrder (o.addTask id ds).1 calls

variable {o : Orchestrator} {order : List String}

theorem Built.addTasks_linked (h : Built o order) (calls : List (String × List String)) :
    ∃ order', Built (o.addTasks calls) order' ∧
      (Linked (o.addTasks calls) order' ↔ Linked o order ∧ AddedInOrder o calls) := by
  unfold Orchestrator.addTasks
  induction calls generalizing o order with
  | nil => exact ⟨order, h, by simp [AddedInOrder]⟩
  | cons call calls ih =>
    obtain ⟨id, ds⟩ := call
    rw [foldl_cons]
    unfold AddedInOrder
    rcases addTask_cases o id ds with ⟨heq, herr⟩ | ⟨hnew, hok, htasks⟩
    · obtain ⟨order', hbuilt, hiff⟩ := ih h
      rw [heq]
      refine ⟨order', hbuilt, hiff.trans ?_⟩
      simp [herr]
    · obtain ⟨order', hbuilt, hiff⟩ := ih (h.add htasks hnew)
      refine ⟨order', hbuilt, hiff.trans ?_⟩
      rw [h.linked_add htasks hnew]
      simp [hok, and_assoc]

end Orchestrator

variable {o : Orchestrator} {order : List String} {s s' : Run} {id x : String}

theorem Sound.exists_step (hb : o.Built order) (h : Sound o [] s)
    (hcount : s.completedCount < o.tasks.keys.length) (hbusy : s.Busy) :
    ∃ e s', o.step o.tasks.keys s e = some s' := by
  cases hwork : s.work with
  | cons x rest =>
    refine ⟨.advance, ?_⟩
    unfold Orchestrator.step
    simp only [hwork]
    split
    · rename_i hx
      have hdown := h.countDown hb hwork (mem_keys.2 hx)
      split
      · rename_i hzero
        rw [if_pos hzero] at hdown
        exact hdown.exists_release
      · exact ⟨_, rfl⟩
    · exact ⟨_, rfl⟩
  | nil =>
    have hle := h.length_le
    rw [length_tracked, length_nil] at hle
    rcases hbusy with hne | hne | hne | hne | hne | hne
    · obtain ⟨id, rest, hch⟩ := exists_cons_of_ne_nil hne
      exact ⟨.dispatch, s.spawn id rest, by simp [Orchestrator.step, hwork, hcount, hch]⟩
    · obtain ⟨id, hid⟩ := exists_mem_of_ne_nil _ hne
      exact ⟨.begin id, s.begin id, by simp [Orchestrator.step, hid]⟩
    · obtain ⟨id, hid⟩ := exists_mem_of_ne_nil _ hne
      exact ⟨.finish id 0 fun _ => .ok, _, by simp [Orchestrator.step, hid]; rfl⟩
    · obtain ⟨id, hid⟩ := exists_mem_of_ne_nil _ hne
      have hpos := length_pos_iff.2 hne
      exact ⟨.announce id, s.announce id, if_pos ⟨hid, by omega⟩⟩
    · obtain ⟨id, rest, hch⟩ := exists_cons_of_ne_nil hne
      exact ⟨.receive, s.receive id rest (o.succs id),
        by simp [Orchestrator.step, hwork, hcount, hch]⟩
    · exact absurd hwork hne

def Run.stages (s : Run) : Nat :=
  s.taskCh.length + 2 * s.spawned.length + 3 * s.active.length + 4 * s.sending.length +
    5 * s.completed.length + 6 * s.processed.length

theorem release_stages {capacity : Nat} (h : o.release capacity s x = some s') :
    s.stages < s'.stages := by
  unfold Orchestrator.release at h
  grind [stages, skip, enqueue]

/-- A step takes some task further, or goes through one more successor. -/
theorem step_stages {taskSet : List String} {e : Event} (h : o.step taskSet s e = some s') :
    s.stages < s'.stages ∨ s.stages = s'.stages ∧ s'.work.length < s.work.length := by
  rcases step_cases h with ⟨id, rest, hch, rfl⟩ | ⟨id, hid, rfl⟩ |
    ⟨id, hid, maxRetry, attempt, rfl⟩ | ⟨id, hid, rfl⟩ | ⟨id, rest, hwork, hch, rfl⟩ |
    ⟨x, rest, hwork, hx, rfl⟩ | ⟨x, rest, hwork, hx, hcount, rfl⟩ |
    ⟨x, rest, hwork, hx, hcount, hrel⟩
  · exact .inl (by grind [stages, Run.spawn])
  · exact .inl (by grind [stages, Run.begin])
  · exact .inl (by grind [stages, Run.finish])
  · exact .inl (by grind [stages, Run.announce])
  · exact .inl (by grind [stages, Run.receive])
  · exact .inr ⟨rfl, by simp [hwork]⟩
  · exact .inr ⟨rfl, by simp [hwork, Run.countDown]⟩
  · exact .inl (release_stages hrel : (s.countDown x rest).stages < _)

theorem Sound.stages_le (h : Sound o [] s) : s.stages ≤ 6 * o.tasks.keys.length := by
  have hle := h.length_le
  rw [length_tracked, length_nil] at hle
  unfold stages
  omega

theorem exists_rest (hb : o.Built order) (hcomplete : o.Complete) (hs : o.Reachable s) :
    ∃ t, o.Reachable t ∧ ¬ (t.completedCount < o.tasks.keys.length ∧ t.Busy) := by
  by_contra hnone
  have hall : ∀ t, o.Reachable t → t.completedCount < o.tasks.keys.length ∧ t.Busy := by
    intro t ht
    by_contra hnot
    exact hnone ⟨t, ht, hnot⟩
  have hdescent : ∀ (m : ℕ ×ₗ ℕ) (t : Run), o.Reachable t →
      toLex (6 * o.tasks.keys.length - t.stages, t.work.length) = m → False := by
    intro m
    induction m using WellFoundedLT.induction with
    | _ m ih =>
    rintro t ht rfl
    obtain ⟨hcount, hbusy⟩ := hall t ht
    obtain ⟨e, t', hstep⟩ := (reachable hb hcomplete ht).exists_step hb hcount hbusy
    have ht' : o.Reachable t' := ht.step hstep
    have hle := (reachable hb hcomplete ht').stages_le
    refine ih _ (Prod.Lex.toLex_lt_toLex.2 ?_) t' ht' rfl
    rcases step_stages hstep with hlt | ⟨heq, hlt⟩
    · exact .inl (by omega)
    · exact .inr ⟨by rw [heq], hlt⟩
  exact hdescent _ s hs rfl

theorem Sound.notMem_tracked (hb : o.Built order) (h : Sound o [] s) {dep : String}
    (hdep : dep ∈ o.deps id) (hlate : ¬ order.idxOf dep < order.idxOf id) : id ∉ s.tracked := by
  intro hid
  have hpos := Nat.add_pos_left (mem_tracked.1 hid) (([] : List String).count id)
  have hidt := (h.placed id).known hpos
  exact hlate ((h.processed_of_ready hb hidt (((h.placed id).released hidt).1 hpos)).2 dep hdep).2

theorem Sound.completedCount_lt (h : Sound o [] s) (hid : id ∈ o.tasks) (hnot : id ∉ s.tracked) :
    s.completedCount < o.tasks.keys.length := by
  have hsub : id :: s.tracked ⊆ o.tasks.keys :=
    cons_subset.2 ⟨mem_keys.1 hid, fun a ha =>
      mem_keys.1 ((h.placed a).known (Nat.add_pos_left (mem_tracked.1 ha) _))⟩
  have hnodup : (id :: s.tracked).Nodup := nodup_cons.2 ⟨hnot, by simpa using h.nodup_tracked⟩
  have hle := (subperm_of_subset hnodup hsub).length_le
  rw [length_cons, length_tracked] at hle
  rw [h.completedCount]
  omega

theorem Sound.mem_processed (hb : o.Built order) (hlinked : o.Linked order)
    (hcomplete : o.Complete) (h : Sound o [] s) (hrest : ¬ s.Busy) (id : String)
    (hid : id ∈ o.tasks) : id ∈ s.processed := by
  unfold Busy at hrest
  simp only [not_or, ne_eq, not_not] at hrest
  obtain ⟨hch, hspawned, hactive, hsending, hcompleted, hwork⟩ := hrest
  induction hk : order.idxOf id using Nat.strong_induction_on generalizing id with
  | _ k ih =>
  have hdeps : ∀ d ∈ o.deps id, d ∈ s.processed ∧ order.idxOf d < order.idxOf id := by
    intro d hd
    have hlt := hlinked id d hd
    exact ⟨ih (order.idxOf d) (hk ▸ hlt) d (hcomplete id d hd) rfl, hlt⟩
  have hcount : (s.processed.flatMap o.succs).count id = (o.deps id).length :=
    (count_flatMap_eq_length_iff (fun d => hb.count d id) h.nodup_processed).2 hdeps
  have hready := h.ready id hid
  rw [hwork, count_nil, hcount] at hready
  have hpos := ((h.placed id).released hid).2 (by omega)
  simpa [places, Places.total, hch, hspawned, hactive, hsending, hcompleted] using hpos

/-- The scheduler of `Run` never gets stuck exactly when every task was added after all its
dependencies. -/
theorem never_stuck_iff (calls : List (String × List String))
    (hcomplete : (newOrchestrator.addTasks calls).Complete) :
    (∀ s, (newOrchestrator.addTasks calls).Reachable s →
        s.completedCount < (newOrchestrator.addTasks calls).tasks.keys.length → s.Busy) ↔
      newOrchestrator.AddedInOrder calls := by
  obtain ⟨order, hbuilt, hiff⟩ := Built.new.addTasks_linked calls
  have hempty : newOrchestrator.Linked [] := fun id dep hdep => absurd hdep not_mem_nil
  rw [and_iff_right hempty] at hiff
  rw [← hiff]
  constructor
  · intro hall id dep hdep
    by_contra hlate
    have hid := mem_of_mem_deps hdep
    obtain ⟨s, hstart, -⟩ := start hbuilt (List.Perm.refl _) hcomplete
    obtain ⟨t, ht, hrest⟩ := exists_rest hbuilt hcomplete (.start (List.Perm.refl _) hstart)
    have hsound := reachable hbuilt hcomplete ht
    have hlt := hsound.completedCount_lt hid (hsound.notMem_tracked hbuilt hdep hlate)
    exact hrest ⟨hlt, hall t ht hlt⟩
  · intro hlinked s hs hlt
    by_contra hrest
    have hsound := reachable hbuilt hcomplete hs
    have hsub : (newOrchestrator.addTasks calls).tasks.keys ⊆ s.processed := fun id hid =>
      hsound.mem_processed hbuilt hlinked hcomplete hrest id (mem_keys.2 hid)
    have hle := (subperm_of_subset (keys_nodup _) hsub).length_le
    rw [hsound.completedCount] at hlt
    omega

/-- The task that has been processed makes the other one ready. -/
theorem never_stuck_dependencyFirst :
    ∃ s, (newOrchestrator.addTasks [("a", []), ("b", ["a"])]).Reachable s ∧
      s.completedCount = 1 ∧ s.Busy := by
  have horder : ["a", "b"].Perm
      (newOrchestrator.addTasks [("a", []), ("b", ["a"])]).tasks.keys := by decide
  have hs := (start horder rfl).steps
    [.dispatch, .begin "a", .finish "a" 0 fun _ => .ok, .announce "a", .receive, .advance] rfl
  have hinOrder : newOrchestrator.AddedInOrder [("a", []), ("b", ["a"])] := by
    refine ⟨fun _ => ?_, fun _ => ?_, trivial⟩ <;> decide
  exact ⟨_, hs, rfl, (never_stuck_iff _ (complete_of_keys (by decide))).2 hinOrder _ hs
    (by decide)⟩

/-- The second task is the dependency of the first: it runs, and the first one never does. -/
theorem stuck_dependencyLast : (newOrchestrator.addTasks [("b", ["a"]), ("a", [])]).Complete ∧
      (newOrchestrator.addTasks [("b", ["a"]), ("a", [])]).Acyclic ∧
      ∃ s, (newOrchestrator.addTasks [("b", ["a"]), ("a", [])]).Reachable s ∧
        s.completedCount < (newOrchestrator.addTasks [("b", ["a"]), ("a", [])]).tasks.keys.length ∧
        ¬ s.Busy := by
  have horder : ["a", "b"].Perm
      (newOrchestrator.addTasks [("b", ["a"]), ("a", [])]).tasks.keys := by decide
  have hs := (start horder rfl).steps
    [.dispatch, .begin "a", .finish "a" 0 fun _ => .ok, .announce "a", .receive] rfl
  refine ⟨complete_of_keys (by decide),
    acyclic_of_rank (fun id => if id = "b" then 1 else 0) (by decide),
    _, hs, by decide, ?_⟩
  rintro (h | h | h | h | h | h) <;> exact h rfl

end Solocoder.Orchestration
