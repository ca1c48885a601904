/-!
# The backpressure of a pipeline

`sourceReader` moves records to `recordCh` and pauses the source when too many are pending;
`recordProcessor` lets it go on. Each has a counter of its own, and their steps are interleaved.
-/

namespace Solocoder.StreamProc

/-- An accepted configuration. The comparisons of `pendingCount / threshold` with the two ratios,
which are positive, are those of floating-point numbers. -/
structure PipelineConfig where
  bufferSize : Nat
  atLeastWarning : Int → Bool
  atLeastCritical : Int → Bool
  warning_pos : ∀ n, atLeastWarning n → 0 < n
  critical_pos : ∀ n, atLeastCritical n → 0 < n

inductive BackpressureState where
  | normal
  | warning
  | critical
  deriving DecidableEq

inductive SourceState where
  | idle
  | running
  | paused
  | stopped
  deriving DecidableEq

/-- `Process` of an operator gives records or fails. -/
structure Operator (R : Type) where
  isFilter : Bool
  process : R → Option (List R)

/-- `OperatorChain.Process` from a batch on: the records and `filteredByFilter`. -/
def OperatorChain.process {R : Type} : List (Operator R) → List R → Option (List R × Bool)
  | [], current => some (current, false)
  | op :: operators, current =>
    match current.mapM op.process with
    | none => none
    | some results =>
      match results.flatten with
      | [] => some ([], op.isFilter)
      | nextBatch => OperatorChain.process operators nextBatch

/-- Where `sourceReader` is. -/
inductive Reader (R : Type) where
  | loop
  /-- Waits for `backpressureRelieved`. -/
  | waiting
  /-- Waits for the source. -/
  | reading
  | sending (rec : R)
  /-- Has sent, and not yet counted. -/
  | counting
  | checking
  /-- `applyBackpressurePause`: reads `sourcePaused`, … -/
  | pausing
  /-- … asks for the state of the source, … -/
  | asking
  /-- … pauses it, … -/
  | pause
  /-- … and sets `sourcePaused`. -/
  | setting
  | closed

/-- Where `recordProcessor` is. -/
inductive Processor (R : Type) where
  | waiting
  /-- Has taken a record, and not yet counted. -/
  | received (rec : R)
  | processing (rec : R)
  /-- `tryResumeFromBackpressure`: under the mutex, … -/
  | resuming
  /-- … sends to `backpressureRelieved`, … -/
  | signalling
  /-- … asks for the state of the source … -/
  | asking
  /-- … and resumes it. -/
  | resume

structure Pipeline (R : Type) where
  cfg : PipelineConfig
  recordCh : List R
  pendingCount : Int
  sourcePaused : Bool
  /-- A signal is in `backpressureRelieved`. -/
  backpressureRelieved : Bool
  source : SourceState
  reader : Reader R
  processor : Processor R

inductive Event (R : Type) where
  /-- The source puts out a record, or `nil`. -/
  | emit (rec : Option R)
  | close
  /-- Others than the pipeline change the state of the source. -/
  | source (state : SourceState)
  | reader
  | processor
  /-- The record is processed; the operators behave like this now. -/
  | process (operators : List (Operator R))

namespace Pipeline

variable {R : Type}

def start (cfg : PipelineConfig) : Pipeline R :=
  ⟨cfg, [], 0, false, false, .running, .loop, .waiting⟩

variable (p : Pipeline R)

/-- The state in `GetBackpressureInfo`. -/
def backpressure : BackpressureState :=
  if p.cfg.atLeastCritical p.pendingCount then .critical
  else if p.cfg.atLeastWarning p.pendingCount then .warning
  else .normal

def sourceReader : Pipeline R :=
  match p.reader with
  | .loop => if p.sourcePaused then { p with reader := .waiting } else { p with reader := .reading }
  | .waiting =>
    if p.backpressureRelieved then { p with backpressureRelieved := false, reader := .loop } else p
  | .sending rec =>
    if p.recordCh.length < p.cfg.bufferSize then
      { p with recordCh := p.recordCh ++ [rec], reader := .counting }
    else p
  | .counting => { p with pendingCount := p.pendingCount + 1, reader := .checking }
  | .checking =>
    if p.backpressure = .critical then { p with reader := .pausing } else { p with reader := .loop }
  | .pausing => if p.sourcePaused then { p with reader := .loop } else { p with reader := .asking }
  | .asking =>
    if p.source = .running then { p with reader := .pause } else { p with reader := .loop }
  | .pause => { p with source := .paused, reader := .setting }
  | .setting => { p with sourcePaused := true, reader := .loop }
  | .reading | .closed => p

def recordProcessor : Pipeline R :=
  match p.processor with
  | .waiting =>
    match p.recordCh with
    | rec :: rest => { p with recordCh := rest, processor := .received rec }
    | [] => p
  | .received rec =>
    { p with pendingCount := p.pendingCount - 1, processor := .processing rec }
  | .resuming =>
    if p.sourcePaused ∧ p.backpressure = .normal then
      { p with sourcePaused := false, processor := .signalling }
    else { p with processor := .waiting }
  | .signalling => { p with backpressureRelieved := true, processor := .asking }
  | .asking =>
    if p.source = .paused then { p with processor := .resume } else { p with processor := .waiting }
  | .resume => { p with source := .running, processor := .waiting }
  | .processing _ => p

/-- A record that fails or has no results is left behind without a look at the backpressure. -/
def process (p : Pipeline R) (operators : List (Operator R)) : Pipeline R :=
  match p.processor with
  | .processing rec =>
    match OperatorChain.process operators [rec] with
    | some (_ :: _, _) => { p with processor := .resuming }
    | _ => { p with processor := .waiting }
  | _ => p

def emit (rec : Option R) : Pipeline R :=
  match p.reader, p.source with
  | .reading, .running =>
    match rec with
    | some rec => { p with reader := .sending rec }
    | none => { p with reader := .loop }
  | _, _ => p

def close : Pipeline R :=
  match p.reader with
  | .reading => { p with reader := .closed }
  | _ => p

def step : Event R → Pipeline R
  | .emit rec => p.emit rec
  | .close => p.close
  | .source state => { p with source := state }
  | .reader => p.sourceReader
  | .processor => p.recordProcessor
  | .process operators => p.process operators

end Pipeline

end Solocoder.StreamProc
