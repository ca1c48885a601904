import Solocoder.Orchestration.Graph

/-!
# The scheduler of `internal/orchestrator`

A step is one move of the scheduler or of a goroutine, in any order. A send on a full channel
blocks, so the step is not possible. The context is never cancelled.
-/

namespace Solocoder.Orchestration

/-- How one call of a task function ends. -/
inductive Attempt where
  | ok
  | failed (msg : String)
  | timedOut
  deriving DecidableEq, Repr

/-- The loop of `executeTask`: the error of the last attempt and the number of attempts. -/
def runAttempts (attempt : Nat → Attempt) : Nat → Nat → TaskError → TaskError × Nat
  | 0, attempts, err => (err, attempts)
  | remaining + 1, attempts, _ =>
    match attempt (attempts + 1) with
    | .ok => (.none, attempts + 1)
    | .failed msg => runAttempts attempt remaining (attempts + 1) (.failed msg)
    | .timedOut => runAttempts attempt remaining (attempts + 1) .timeout

/-- What `executeTask` makes of the result of a task. -/
def executeResult (maxRetry : Int) (attempt : Nat → Attempt) (result : TaskResult) : TaskResult :=
  let (err, attempts) := runAttempts attempt (1 + maxRetry).toNat 0 .none
  match err with
  | .none => { result with status := .success, attempts := attempts }
  | .timeout => { status := .timeout, error := err, attempts := attempts }
  | _ => { status := .failed, error := err, attempts := attempts }

/-- The state of a run. The goroutine of a task is `spawned` before it has set the status to
running, `active` until it has set an outcome and `sending` until `completed` has taken the task. -/
structure Run where
  results : String → TaskResult
  readyCount : String → Int
  taskCh : List String
  spawned : List String
  active : List String
  sending : List String
  completed : List String
  completedCount : Nat
  /-- The successors that the scheduler still has to go through for the last completed task. -/
  work : List String
  /-- The tasks received from `completed`. -/
  processed : List String
  /-- The tasks taken from `taskCh`, in this order. -/
  dispatched : List String
  /-- The tasks whose goroutines have started, in this order. -/
  started : List String

namespace Run

variable (s : Run) (id : String)

/-- The scheduler has taken `id` from `taskCh`. -/
def spawn (rest : List String) : Run :=
  { s with taskCh := rest, spawned := s.spawned ++ [id], dispatched := s.dispatched ++ [id] }

/-- The goroutine of `id` has set its status to running. -/
def begin : Run :=
  { s with
    spawned := s.spawned.erase id
    active := s.active ++ [id]
    results := Function.update s.results id { s.results id with status := .running }
    started := s.started ++ [id] }

/-- The goroutine of `id` has stored its result. -/
def finish (result : TaskResult) : Run :=
  { s with
    active := s.active.erase id
    sending := s.sending ++ [id]
    results := Function.update s.results id result }

/-- The goroutine of `id` has sent it to `completed`. -/
def announce : Run :=
  { s with sending := s.sending.erase id, completed := s.completed ++ [id] }

/-- The scheduler has taken `id` from `completed`. -/
def receive (rest successors : List String) : Run :=
  { s with
    completed := rest
    completedCount := s.completedCount + 1
    processed := s.processed ++ [id]
    work := successors }

/-- The scheduler has decremented the count of a successor. -/
def countDown (successor : String) (rest : List String) : Run :=
  { s with
    work := rest
    readyCount := Function.update s.readyCount successor (s.readyCount successor - 1) }

/-- The scheduler has marked `id` as skipped and sent it to `completed`. -/
def skip (id dep : String) (depErr : TaskError) : Run :=
  { s with
    results := Function.update s.results id
      { s.results id with status := .skipped, error := .skipped dep depErr }
    completed := s.completed ++ [id] }

/-- The scheduler has sent `id` to `taskCh`. -/
def enqueue : Run := { s with taskCh := s.taskCh ++ [id] }

end Run

/-- A status that makes the tasks that depend on it be skipped. -/
def TaskStatus.Bad (status : TaskStatus) : Prop :=
  status = .failed ∨ status = .timeout ∨ status = .skipped

instance (status : TaskStatus) : Decidable status.Bad :=
  inferInstanceAs (Decidable (_ ∨ _ ∨ _))

/-- A move of the scheduler or of a goroutine. -/
inductive Event where
  /-- The scheduler takes a task from `taskCh`. -/
  | dispatch
  /-- A goroutine sets the status of its task to running. -/
  | begin (id : String)
  /-- The task function has ended; `maxRetry` is the value that the goroutine has read. -/
  | finish (id : String) (maxRetry : Int) (attempt : Nat → Attempt)
  /-- A goroutine sends its task to `completed`. -/
  | announce (id : String)
  /-- The scheduler takes a task from `completed`. -/
  | receive
  /-- The scheduler goes through the next successor of the task it has received. -/
  | advance

namespace Orchestrator

variable (o : Orchestrator) (results : String → TaskResult) (taskSet : List String)

/-- `shouldSkip`: the first dependency that has not succeeded, and its error. -/
def shouldSkip (taskID : String) : Option (String × TaskError) :=
  ((o.deps taskID).find? fun dep => (results dep).status.Bad).map fun dep =>
    (dep, (results dep).error)

/-- What the scheduler does with a task whose count has come to zero; `none` when it blocks. -/
def release (capacity : Nat) (s : Run) (id : String) : Option Run :=
  match o.shouldSkip s.results id with
  | some (depID, depErr) =>
    if s.completed.length < capacity then some (s.skip id depID depErr) else none
  | none => if s.taskCh.length < capacity then some (s.enqueue id) else none

/-- The first loop of `runScheduler` that sends. -/
def releaseReady (o : Orchestrator) (capacity : Nat) : List String → Run → Option Run
  | [], s => some s
  | id :: ids, s =>
    if s.readyCount id = 0 then (o.release capacity s id).bind (o.releaseReady capacity ids)
    else o.releaseReady capacity ids s

/-- The counts and the empty channels at the start of `runScheduler`. -/
def initial : Run :=
  { results := results
    readyCount := fun id => (o.deps id).countP (· ∈ taskSet)
    taskCh := []
    spawned := []
    active := []
    sending := []
    completed := []
    completedCount := 0
    work := []
    processed := []
    dispatched := []
    started := [] }

/-- `runScheduler` before its main loop, for the tasks of `taskSet` in the order in which they are
ranged over. -/
def start : Option Run :=
  o.releaseReady taskSet.length taskSet (o.initial results taskSet)

/-- One move, for the tasks of `taskSet`; `none` when it is not possible. The scheduler takes a task
from a channel in the `select` of its main loop only. -/
def step (s : Run) : Event → Option Run
  | .dispatch =>
    if s.work = [] ∧ s.completedCount < taskSet.length then
      match s.taskCh with
      | [] => none
      | id :: rest => some (s.spawn id rest)
    else none
  | .begin id => if id ∈ s.spawned then some (s.begin id) else none
  | .finish id maxRetry attempt =>
    if id ∈ s.active then some (s.finish id (executeResult maxRetry attempt (s.results id)))
    else none
  | .announce id =>
    if id ∈ s.sending ∧ s.completed.length < taskSet.length then some (s.announce id) else none
  | .receive =>
    if s.work = [] ∧ s.completedCount < taskSet.length then
      match s.completed with
      | [] => none
      | id :: rest => some (s.receive id rest (o.succs id))
    else none
  | .advance =>
    match s.work with
    | [] => none
    | successor :: rest =>
      if successor ∈ taskSet then
        if s.readyCount successor - 1 = 0 then
          o.release taskSet.length (s.countDown successor rest) successor
        else some (s.countDown successor rest)
      else some { s with work := rest }

/-- Several moves. -/
def steps (o : Orchestrator) (taskSet : List String) : Run → List Event → Option Run
  | s, [] => some s
  | s, e :: events => (o.step taskSet s e).bind fun s => o.steps taskSet s events

/-- The states of the scheduler of `Run`, which resets all results. -/
inductive Reachable (o : Orchestrator) : Run → Prop where
  | start {order : List String} {s : Run} (horder : order.Perm o.tasks.keys)
      (h : o.start (fun _ => pendingResult) order = some s) : Reachable o s
  | step {s s' : Run} {e : Event} (hs : Reachable o s) (h : o.step o.tasks.keys s e = some s') :
      Reachable o s'

end Orchestrator

end Solocoder.Orchestration
