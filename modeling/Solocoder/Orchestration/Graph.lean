import Mathlib.Data.List.AList

/-!
# The task graph of `internal/orchestrator`

Go ranges over the map of tasks in any order, so `ValidateDAG` takes the orders of its two loops as
arguments. The function, name and timeout of a task play no part in the graph.
-/

namespace Solocoder.Orchestration

inductive TaskStatus where
  | pending
  | running
  | success
  | failed
  | skipped
  | timeout
  deriving DecidableEq, Repr

/-- `Task`; its identifier is its key in the map of tasks. A run may find any `maxRetry`, as
`SetTaskRetry` may be called at any time. -/
structure Task where
  dependencies : List String
  successors : List String
  maxRetry : Int

/-- The error of a task result: nil, `ErrTimeout`, the error of a task function, or the one of a
skipped task, which wraps that of a dependency. -/
inductive TaskError where
  | none
  | timeout
  | failed (msg : String)
  | skipped (dep : String) (cause : TaskError)
  deriving DecidableEq, Repr

/-- `TaskResult`; its output and its times are left out. -/
structure TaskResult where
  status : TaskStatus
  error : TaskError
  attempts : Nat
  deriving DecidableEq, Repr

/-- The result of a task that has not been started. -/
def pendingResult : TaskResult := ⟨.pending, .none, 0⟩

/-- The errors of the calls. -/
inductive Err where
  | taskNotFound
  | taskAlreadyExists
  | cycleDetected
  | invalidDependency
  | missingDependency (id dep : String)
  | orchestratorRunning
  deriving DecidableEq, Repr

abbrev Tasks := AList fun _ : String => Task

structure Orchestrator where
  tasks : Tasks
  results : AList fun _ : String => TaskResult
  running : Bool

def newOrchestrator : Orchestrator := ⟨∅, ∅, false⟩

/-- A turn of the loop of `AddTask`: a dependency that exists gets the new task as a successor. -/
def linkDependency (id : String) (tasks : Tasks) (dep : String) : Tasks :=
  match tasks.lookup dep with
  | some depTask => tasks.insert dep { depTask with successors := depTask.successors ++ [id] }
  | none => tasks

/-- The nodes that the search for a cycle has met, and those on its path. -/
structure Marks where
  visited : String → Bool
  recStack : String → Bool

/-- The loop of `hasCycle` over the successors of a node. -/
def visitSuccessors (hasCycle : String → Marks → Option (Bool × Marks)) :
    List String → Marks → Option (Bool × Marks)
  | [], marks => some (false, marks)
  | successor :: successors, marks =>
    if !marks.visited successor then
      match hasCycle successor marks with
      | some (false, marks) => visitSuccessors hasCycle successors marks
      | result => result
    else if marks.recStack successor then some (true, marks)
    else visitSuccessors hasCycle successors marks

namespace Orchestrator

variable (o : Orchestrator) (id : String)

def addTask (dependencies : List String) : Orchestrator × Option Err :=
  if o.running then (o, some .orchestratorRunning)
  else if id ∈ o.tasks then (o, some .taskAlreadyExists)
  else if id ∈ dependencies then (o, some .invalidDependency)
  else
    ({ o with
        tasks := (dependencies.foldl (linkDependency id) o.tasks).insert id ⟨dependencies, [], 0⟩
        results := o.results.insert id pendingResult },
      none)

/-- `hasCycle` of `ValidateDAG`; `none` when a node is no task, or the recursion is deeper than
`depth`. The nodes on the path are distinct, so it is no deeper than the number of tasks. -/
def hasCycle (o : Orchestrator) : Nat → String → Marks → Option (Bool × Marks)
  | 0, _, _ => none
  | depth + 1, node, marks =>
    match o.tasks.lookup node with
    | none => none
    | some task =>
      let marks : Marks :=
        ⟨Function.update marks.visited node true, Function.update marks.recStack node true⟩
      match visitSuccessors (o.hasCycle depth) task.successors marks with
      | some (false, marks) =>
        some (false, { marks with recStack := Function.update marks.recStack node false })
      | result => result

/-- The first loop of `ValidateDAG`. -/
def searchCycle (o : Orchestrator) : List String → Marks → Option (Option Err)
  | [], _ => some none
  | id :: ids, marks =>
    if !marks.visited id then
      match o.hasCycle o.tasks.keys.length id marks with
      | none => none
      | some (true, _) => some (some .cycleDetected)
      | some (false, marks) => o.searchCycle ids marks
    else o.searchCycle ids marks

/-- The second loop of `ValidateDAG`. -/
def searchMissing (ids : List String) : Option Err :=
  ids.findSome? fun id =>
    match o.tasks.lookup id with
    | none => none
    | some task =>
      (task.dependencies.find? fun dep => dep ∉ o.tasks).map fun dep => .missingDependency id dep

/-- `ValidateDAG`, and `validateDAGLocked`, with the orders of its loops over the tasks; the result
is `some none` for nil. -/
def validateDAG (order order' : List String) : Option (Option Err) :=
  match o.searchCycle order ⟨fun _ => false, fun _ => false⟩ with
  | some none => some (o.searchMissing order')
  | result => result

/-- `o.tasks[id].Dependencies`, of a task that exists. -/
def deps : List String :=
  ((o.tasks.lookup id).map (·.dependencies)).getD []

/-- `o.tasks[id].Successors`, of a task that exists. -/
def succs : List String :=
  ((o.tasks.lookup id).map (·.successors)).getD []

/-- A sequence of calls of `AddTask`; those that fail change nothing. -/
def addTasks (calls : List (String × List String)) : Orchestrator :=
  calls.foldl (fun o call => (o.addTask call.1 call.2).1) o

end Orchestrator

end Solocoder.Orchestration
