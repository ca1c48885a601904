import Solocoder.Orchestration.Graph

/-!
# Proofs: the task graph

`AddTask` makes a task a successor of the dependencies that exist when it is added. Successors are
therefore added later than what they depend on, and the search along them never meets a cycle.
-/

namespace Solocoder.Orchestration

open List Function Option AList

namespace Orchestrator

/-- Every dependency is a task. -/
def Complete (o : Orchestrator) : Prop := ∀ id, ∀ dep ∈ o.deps id, dep ∈ o.tasks

/-- `dep` is a dependency of `id`. -/
def DependsOn (o : Orchestrator) (id dep : String) : Prop := dep ∈ o.deps id

/-- No task depends on itself. -/
def Acyclic (o : Orchestrator) : Prop := ∀ id, ¬ Relation.TransGen o.DependsOn id id

variable {o : Orchestrator} {order : List String} {id d : String} {ds : List String}

/-- The tasks of `o` were added in this order. -/
structure Built (o : Orchestrator) (order : List String) : Prop where
  nodup : order.Nodup
  mem : ∀ id, id ∈ order ↔ id ∈ o.tasks
  count : ∀ d id, (o.succs d).count id =
    if order.idxOf d < order.idxOf id then (o.deps id).count d else 0

theorem deps_of_notMem (h : id ∉ o.tasks) : o.deps id = [] := by
  unfold deps
  rw [lookup_eq_none.2 h]
  rfl

theorem mem_of_mem_deps (h : d ∈ o.deps id) : id ∈ o.tasks := by
  by_contra hnot
  rw [deps_of_notMem hnot] at h
  exact not_mem_nil h

theorem complete_of_keys (h : ∀ id ∈ o.tasks.keys, ∀ dep ∈ o.deps id, dep ∈ o.tasks) : o.Complete :=
  fun id dep hdep => h id (mem_keys.1 (mem_of_mem_deps hdep)) dep hdep

theorem acyclic_of_rank (rank : String → Nat)
    (h : ∀ id ∈ o.tasks.keys, ∀ dep ∈ o.deps id, rank dep < rank id) : o.Acyclic := by
  have hstep : ∀ {x y}, o.DependsOn x y → rank y < rank x :=
    fun hdep => h _ (mem_keys.1 (mem_of_mem_deps hdep)) _ hdep
  have htrans : ∀ {x y}, Relation.TransGen o.DependsOn x y → rank y < rank x := by
    intro x y hxy
    induction hxy with
    | single hdep => exact hstep hdep
    | tail _ hdep ih => exact Nat.lt_trans (hstep hdep) ih
  intro id hid
  exact Nat.lt_irrefl _ (htrans hid)

theorem lookup_linkDependencies (tasks : Tasks) (id d : String) (ds : List String) :
    (ds.foldl (linkDependency id) tasks).lookup d = (tasks.lookup d).map fun task =>
        { task with successors := task.successors ++ replicate (ds.count d) id } := by
  induction ds generalizing tasks with
  | nil => simp
  | cons dep ds ih =>
    rw [foldl_cons, ih]
    unfold linkDependency
    cases hdep : tasks.lookup dep with
    | none =>
      by_cases hd : dep = d
      · subst hd
        simp [hdep]
      · simp [count_cons_of_ne hd]
    | some depTask =>
      by_cases hd : dep = d
      · subst hd
        simp [hdep, replicate_succ]
      · simp [lookup_insert_ne (Ne.symm hd), count_cons_of_ne hd]

theorem addTask_cases (o : Orchestrator) (id : String) (ds : List String) :
    ((o.addTask id ds).1 = o ∧ (o.addTask id ds).2 ≠ none) ∨
      id ∉ o.tasks ∧ (o.addTask id ds).2 = none ∧ (o.addTask id ds).1.tasks =
          (ds.foldl (linkDependency id) o.tasks).insert id ⟨ds, [], 0⟩ := by
  unfold addTask
  split_ifs with hempty hold hself
  · exact .inl ⟨rfl, nofun⟩
  · exact .inl ⟨rfl, nofun⟩
  · exact .inl ⟨rfl, nofun⟩
  · exact .inr ⟨hold, rfl, rfl⟩

theorem idxOf_concat (order : List String) (id z : String) : (order ++ [id]).idxOf z =
      if z ∈ order then order.idxOf z else if z = id then order.length else order.length + 1 := by
  split
  · exact idxOf_append_of_mem ‹_›
  · rw [idxOf_append_of_notMem ‹_›]
    by_cases hz : z = id <;> simp [hz]

section Add

variable {o' : Orchestrator}
  (htasks : o'.tasks = (ds.foldl (linkDependency id) o.tasks).insert id ⟨ds, [], 0⟩)
include htasks

variable (x : String)

theorem deps_add : o'.deps x = if x = id then ds else o.deps x := by
  unfold deps
  rw [htasks]
  by_cases hx : x = id
  · subst hx
    simp
  · rw [lookup_insert_ne hx, lookup_linkDependencies, if_neg hx]
    cases o.tasks.lookup x <;> rfl

theorem succs_add : o'.succs x = if x = id then [] else if x ∈ o.tasks then
      o.succs x ++ replicate (ds.count x) id else [] := by
  unfold succs
  rw [htasks]
  by_cases hx : x = id
  · subst hx
    simp
  · rw [lookup_insert_ne hx, lookup_linkDependencies, if_neg hx]
    cases hlookup : o.tasks.lookup x with
    | none => simp [lookup_eq_none.1 hlookup]
    | some task =>
      have hmem : x ∈ o.tasks := lookup_isSome.1 (by rw [hlookup]; rfl)
      simp [hmem]

theorem mem_add : x ∈ o'.tasks ↔ x = id ∨ x ∈ o.tasks := by
  rw [htasks, mem_insert, ← lookup_isSome, lookup_linkDependencies, isSome_map, lookup_isSome]

theorem Built.add (h : Built o order) (hnew : id ∉ o.tasks) : Built o' (order ++ [id]) := by
  have hid : id ∉ order := fun hid => hnew ((h.mem id).1 hid)
  refine ⟨?_, ?_, ?_⟩
  · exact nodup_append.2 ⟨h.nodup, nodup_singleton id, fun a ha b hb hab =>
      hid (by rw [← mem_singleton.1 hb, ← hab]; exact ha)⟩
  · intro x
    rw [mem_add htasks, mem_append, h.mem, mem_singleton, or_comm]
  · intro x y
    have hold := h.count x y
    have hlt : ∀ z ∈ order, order.idxOf z < order.length :=
      fun z hz => idxOf_lt_length_of_mem hz
    rw [succs_add htasks, deps_add htasks, idxOf_concat, idxOf_concat]
    have hnil : ∀ z, z ∉ order → o.deps z = [] :=
      fun z hz => deps_of_notMem fun hmem => hz ((h.mem z).2 hmem)
    by_cases hx : x = id
    · -- the new task has no successors
      subst hx
      by_cases hy : y ∈ order
      · have hle := Nat.le_of_lt (hlt y hy)
        simp [hid, hy, Nat.not_lt.2 hle]
      · by_cases hyx : y = x
        · simp [hyx]
        · simp [hyx, hnil y hy]
    · by_cases hxo : x ∈ order
      · have := hlt x hxo
        rw [if_neg hx, if_pos ((h.mem x).1 hxo), if_pos hxo, count_append, hold]
        by_cases hy : y = id
        · subst hy
          simp [hid, this, hnil y hid]
        · have hcount : (replicate (ds.count x) id).count y = 0 :=
            count_eq_zero.2 fun hmem => hy (eq_of_mem_replicate hmem)
          by_cases hyo : y ∈ order
          · simp [hcount, hy, hyo]
          · simp [hcount, hy, hnil y hyo]
      · have hy : (if y ∈ order then order.idxOf y else if y = id then order.length
            else order.length + 1) ≤ order.length + 1 := by
          split
          · have := hlt y ‹_›
            omega
          · split <;> omega
        rw [if_neg hx, if_neg fun hmem => hxo ((h.mem x).2 hmem), if_neg hxo, if_neg hx,
          if_neg (Nat.not_lt.2 hy), count_nil]

/-- Every dependency was added before the task. -/
def Linked (o : Orchestrator) (order : List String) : Prop :=
  ∀ id, ∀ dep ∈ o.deps id, order.idxOf dep < order.idxOf id

theorem Built.linked_add (h : Built o order) (hnew : id ∉ o.tasks) :
    Linked o' (order ++ [id]) ↔ Linked o order ∧ ∀ dep ∈ ds, dep ∈ o.tasks := by
  have hid : id ∉ order := fun hid => hnew ((h.mem id).1 hid)
  have hlt : ∀ z ∈ order, order.idxOf z < order.length :=
    fun z hz => idxOf_lt_length_of_mem hz
  unfold Linked
  simp only [deps_add htasks, idxOf_concat]
  constructor
  · intro hall
    refine ⟨fun x dep hdep => ?_, fun dep hdep => ?_⟩
    · have hx : x ∈ order := (h.mem x).2 (mem_of_mem_deps hdep)
      have hne : x ≠ id := fun heq => hid (heq ▸ hx)
      have hlink := hall x dep (by rwa [if_neg hne])
      have := hlt x hx
      split at hlink
      · exact hlink
      · split at hlink <;> omega
    · have hlink := hall id dep (by rwa [if_pos rfl])
      rw [if_pos rfl] at hlink
      rw [← h.mem]
      by_contra hnot
      rw [if_neg hnot] at hlink
      split at hlink <;> omega
  · rintro ⟨hlinked, hexist⟩ x dep hdep
    by_cases hx : x = id
    · subst hx
      rw [if_pos rfl] at hdep
      have hdo : dep ∈ order := (h.mem dep).2 (hexist dep hdep)
      rw [if_pos hdo, if_neg hid, if_pos rfl]
      exact hlt dep hdo
    · rw [if_neg hx] at hdep
      have hxo : x ∈ order := (h.mem x).2 (mem_of_mem_deps hdep)
      have hlink := hlinked x dep hdep
      have hdo : dep ∈ order := by
        have := hlt x hxo
        exact idxOf_lt_length_iff.1 (by omega)
      rwa [if_pos hdo, if_pos hxo]

end Add

theorem Built.new : Built newOrchestrator [] :=
  ⟨nodup_nil, fun _ => by simp [newOrchestrator], fun _ _ => by simp [succs, newOrchestrator]⟩

theorem Built.addTasks (h : Built o order) (calls : List (String × List String)) :
    ∃ order', Built (o.addTasks calls) order' := by
  unfold Orchestrator.addTasks
  induction calls generalizing o order with
  | nil => exact ⟨order, h⟩
  | cons call calls ih =>
    rw [foldl_cons]
    rcases addTask_cases o call.1 call.2 with ⟨heq, -⟩ | ⟨hnew, -, htasks⟩
    · rw [heq]
      exact ih h
    · exact ih (h.add htasks hnew)

theorem Built.of_mem_succs (h : Built o order) (hs : id ∈ o.succs d) :
    order.idxOf d < order.idxOf id ∧ d ∈ o.deps id := by
  have hpos : 0 < (o.succs d).count id := count_pos_iff.2 hs
  rw [h.count] at hpos
  split at hpos
  · exact ⟨‹_›, count_pos_iff.1 hpos⟩
  · exact absurd hpos (Nat.lt_irrefl 0)

theorem Built.length_keys (h : Built o order) : o.tasks.keys.length = order.length := by
  refine Perm.length_eq ((perm_ext_iff_of_nodup o.tasks.keys_nodup h.nodup).2 fun x => ?_)
  rw [h.mem]
  rfl

theorem visitSuccessors_eq {visit : String → Marks → Option (Bool × Marks)}
    {recStack : String → Bool} {successors : List String}
    (hfree : ∀ s ∈ successors, recStack s = false)
    (hvisit : ∀ s ∈ successors, ∀ visited,
      ∃ visited', visit s ⟨visited, recStack⟩ = some (false, ⟨visited', recStack⟩))
    (visited : String → Bool) :
    ∃ visited', visitSuccessors visit successors ⟨visited, recStack⟩ =
      some (false, ⟨visited', recStack⟩) := by
  induction successors generalizing visited with
  | nil => exact ⟨visited, rfl⟩
  | cons s successors ih =>
    have hrest := ih (fun x hx => hfree x (mem_cons_of_mem _ hx))
      (fun x hx => hvisit x (mem_cons_of_mem _ hx))
    unfold visitSuccessors
    cases hs : visited s with
    | false =>
      obtain ⟨visited1, hcall⟩ := hvisit s mem_cons_self visited
      obtain ⟨visited', heq⟩ := hrest visited1
      exact ⟨visited', by simp [hs, hcall, heq]⟩
    | true =>
      obtain ⟨visited', heq⟩ := hrest visited
      have hfree' := hfree s mem_cons_self
      exact ⟨visited', by simp [hs, hfree', heq]⟩

/-- The search finds no cycle: successors lie behind the nodes of its path in the order of the
calls. -/
theorem Built.hasCycle_eq (h : Built o order) (depth : Nat) (node : String)
    (visited recStack : String → Bool) (hnode : node ∈ o.tasks)
    (hdepth : order.length ≤ order.idxOf node + depth)
    (hpath : ∀ x, recStack x = true → order.idxOf x < order.idxOf node) :
    ∃ visited', o.hasCycle depth node ⟨visited, recStack⟩ = some (false, ⟨visited', recStack⟩) := by
  induction depth generalizing node visited recStack with
  | zero =>
    have hlt := idxOf_lt_length_of_mem ((h.mem node).2 hnode)
    omega
  | succ depth ih =>
    obtain ⟨task, htask⟩ := isSome_iff_exists.1 (lookup_isSome.2 hnode)
    have hsuccs : o.succs node = task.successors := by
      unfold succs
      rw [htask]
      rfl
    have hup : ∀ s ∈ task.successors, order.idxOf node < order.idxOf s ∧ s ∈ o.tasks := by
      intro s hs
      obtain ⟨hlt, hdep⟩ := h.of_mem_succs (hsuccs ▸ hs)
      exact ⟨hlt, mem_of_mem_deps hdep⟩
    have hpath' : ∀ x, update recStack node true x = true → order.idxOf x ≤ order.idxOf node := by
      intro x hx
      by_cases hxn : x = node
      · rw [hxn]
      · rw [update_of_ne hxn] at hx
        exact Nat.le_of_lt (hpath x hx)
    have hfree : ∀ s ∈ task.successors, update recStack node true s = false := by
      intro s hs
      by_contra hon
      have hle := hpath' s (by simpa using hon)
      have hlt := (hup s hs).1
      omega
    have hvisit : ∀ s ∈ task.successors, ∀ visited, ∃ visited',
        o.hasCycle depth s ⟨visited, update recStack node true⟩ =
          some (false, ⟨visited', update recStack node true⟩) := by
      intro s hs visited
      obtain ⟨hlt, hmem⟩ := hup s hs
      exact ih s visited _ hmem (by omega) fun x hx => Nat.lt_of_le_of_lt (hpath' x hx) hlt
    obtain ⟨visited', heq⟩ := visitSuccessors_eq hfree hvisit (update visited node true)
    have hoff : recStack node = false := by
      by_contra hon
      exact absurd (hpath node (by simpa using hon)) (Nat.lt_irrefl _)
    refine ⟨visited', ?_⟩
    unfold hasCycle
    simp only [htask, heq, update_idem]
    rw [← hoff, update_eq_self]

theorem Built.searchCycle_eq (h : Built o order) {ids : List String}
    (hids : ∀ id ∈ ids, id ∈ o.tasks) (visited : String → Bool) :
    o.searchCycle ids ⟨visited, fun _ => false⟩ = some none := by
  induction ids generalizing visited with
  | nil => rfl
  | cons id ids ih =>
    have hrest := ih fun x hx => hids x (mem_cons_of_mem _ hx)
    unfold searchCycle
    cases hv : visited id with
    | true =>
      simp only [hv, Bool.not_true, Bool.false_eq_true, if_false]
      exact hrest visited
    | false =>
      obtain ⟨visited', heq⟩ := h.hasCycle_eq o.tasks.keys.length id visited (fun _ => false)
        (hids id mem_cons_self) (by rw [h.length_keys]; omega) fun x hx => nomatch hx
      simp only [hv, heq, Bool.not_false, if_true]
      exact hrest visited'

theorem searchMissing_eq_none {ids : List String} (hids : ∀ id, id ∈ ids ↔ id ∈ o.tasks) :
    o.searchMissing ids = none ↔ o.Complete := by
  unfold searchMissing Complete
  rw [findSome?_eq_none_iff]
  constructor
  · intro hall id dep hdep
    have hmem := mem_of_mem_deps hdep
    obtain ⟨task, htask⟩ := isSome_iff_exists.1 (lookup_isSome.2 hmem)
    have hnone := hall id ((hids id).2 hmem)
    unfold deps at hdep
    rw [htask] at hnone hdep
    simp only [map_eq_none_iff, find?_eq_none] at hnone
    by_contra hnot
    exact hnone dep hdep (by simpa using hnot)
  · intro hall id hid
    cases htask : o.tasks.lookup id with
    | none => rfl
    | some task =>
      simp only [map_eq_none_iff, find?_eq_none]
      intro dep hdep
      have hmem := hall id dep (by unfold deps; rw [htask]; exact hdep)
      simpa using hmem

theorem validateDAG_eq_nil (calls : List (String × List String)) {order order' : List String}
    (horder : order.Perm (newOrchestrator.addTasks calls).tasks.keys)
    (horder' : order'.Perm (newOrchestrator.addTasks calls).tasks.keys) :
    (newOrchestrator.addTasks calls).validateDAG order order' = some none ↔
      (newOrchestrator.addTasks calls).Complete := by
  obtain ⟨built, hbuilt⟩ := Built.new.addTasks calls
  unfold validateDAG
  rw [hbuilt.searchCycle_eq fun id hid => mem_keys.2 (horder.subset hid)]
  simp only [some_inj]
  exact searchMissing_eq_none fun id => by rw [horder'.mem_iff]; rfl

/-- `ValidateDAG` returns nil exactly for the complete acyclic graphs, unless all dependencies exist
and some of them form a cycle. -/
theorem validateDAG_exact_iff (calls : List (String × List String)) (order order' : List String)
    (horder : order.Perm (newOrchestrator.addTasks calls).tasks.keys)
    (horder' : order'.Perm (newOrchestrator.addTasks calls).tasks.keys) :
    ((newOrchestrator.addTasks calls).validateDAG order order' = some none ↔
        (newOrchestrator.addTasks calls).Complete ∧ (newOrchestrator.addTasks calls).Acyclic) ↔
      (¬ (newOrchestrator.addTasks calls).Complete ∨ (newOrchestrator.addTasks calls).Acyclic) := by
  rw [validateDAG_eq_nil calls horder horder']
  tauto

theorem validateDAG_exact_dependencyLast :
    (newOrchestrator.addTasks [("b", ["a"]), ("a", [])]).validateDAG ["b", "a"] ["a", "b"] =
        some none ↔
      (newOrchestrator.addTasks [("b", ["a"]), ("a", [])]).Complete ∧
        (newOrchestrator.addTasks [("b", ["a"]), ("a", [])]).Acyclic := by
  refine (validateDAG_exact_iff _ _ _ (by decide) (by decide)).2 (.inr ?_)
  exact acyclic_of_rank (fun id => if id = "b" then 1 else 0) (by decide)

/-- Two tasks that depend on each other are accepted: the first is added before its dependency. -/
theorem not_validateDAG_exact_twoCycle :
    ¬ ((newOrchestrator.addTasks [("a", ["b"]), ("b", ["a"])]).validateDAG ["a", "b"] ["a", "b"] =
        some none ↔
      (newOrchestrator.addTasks [("a", ["b"]), ("b", ["a"])]).Complete ∧
        (newOrchestrator.addTasks [("a", ["b"]), ("b", ["a"])]).Acyclic) := by
  intro h
  have hnil : (newOrchestrator.addTasks [("a", ["b"]), ("b", ["a"])]).validateDAG ["a", "b"]
      ["a", "b"] = some none := by decide
  refine (h.1 hnil).2 "a" (.tail (.single ?_ : Relation.TransGen _ "a" "b") ?_)
  · show "b" ∈ deps _ "a"
    decide
  · show "a" ∈ deps _ "b"
    decide

end Orchestrator

end Solocoder.Orchestration
