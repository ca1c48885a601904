import Mathlib.Algebra.Order.Ring.Int

/-!
# The ID generator of `internal/snowflake`

`Next` drops the lock while it waits for the clock, so calls interleave at the sections under the
lock. Each section, and each turn of a waiting loop, reads the clock; the readings are arguments of
the steps.
-/

namespace Solocoder.Flake

def epoch : Int64 := 1704067200000
def machineIDBits : Int64 := 10
def sequenceBits : Int64 := 12

def maxMachineID : Int64 := (1 <<< machineIDBits) - 1
def maxSequence : Int64 := (1 <<< sequenceBits) - 1

def machineIDShift : Int64 := sequenceBits
def timestampShift : Int64 := sequenceBits + machineIDBits

def clockBackwardSmallMaxMs : Int64 := 5
def waitUntilNextMsMaxMs : Int64 := 200
def sequenceOverflowMaxMs : Int64 := 200

/-- The errors of the package, with the numbers of their texts. -/
inductive Err where
  | invalidMachineID (machineID max : Int64)
  | clockBackward (offset : Int64)
  | clockBackwardMax (offset maxWaitMs : Int64)
  | sequenceOverflow (max maxWaitMs : Int64)
  deriving DecidableEq

/-- The configuration of a generator. -/
structure Config where
  machineID : Int64

/-- `Snowflake`; the clock is read by the steps below. -/
structure Snowflake where
  machineID : Int64
  lastTS : Int64
  sequence : Int64

/-- `New`. -/
def new (cfg : Config) : Except Err Snowflake :=
  if cfg.machineID < 0 ∨ cfg.machineID > maxMachineID then
    .error (.invalidMachineID cfg.machineID maxMachineID)
  else .ok ⟨cfg.machineID, -1, 0⟩

/-- `timestamp`, of a reading of the clock. -/
def timestamp (unixMilli : Int64) : Int64 := unixMilli - epoch

/-- The ID of a timestamp, a machine and a sequence number. -/
def pack (now machineID sequence : Int64) : Int64 :=
  (now <<< timestampShift) ||| (machineID <<< machineIDShift) ||| sequence

/-- How a section of `Next` under the lock ends: with an ID, with an error, or with
`waitUntilNextMs`, whose timeout is the given error. -/
inductive Section where
  | issued (id : Int64)
  | failed (e : Err)
  | waits (targetTS : Int64) (timeout : Err)

/-- The body of the loop of `Next`, under the lock. -/
def Snowflake.locked (s : Snowflake) (now : Int64) : Snowflake × Section :=
  if now < s.lastTS then
    let offset := s.lastTS - now
    if offset ≤ clockBackwardSmallMaxMs then
      (s, .waits s.lastTS (.clockBackwardMax offset waitUntilNextMsMaxMs))
    else (s, .failed (.clockBackward offset))
  else if now = s.lastTS ∧ s.sequence ≥ maxSequence then
    (s, .waits s.lastTS (.sequenceOverflow maxSequence sequenceOverflowMaxMs))
  else
    let sequence := if now = s.lastTS then s.sequence + 1 else 0
    ({ s with lastTS := now, sequence := sequence }, .issued (pack now s.machineID sequence))

structure ParsedID where
  timestamp : Int64
  machineID : Int64
  sequence : Int64
  deriving DecidableEq

/-- `Parse`. -/
def parse (id : Int64) : ParsedID :=
  ⟨id >>> timestampShift, (id >>> machineIDShift) &&& maxMachineID, id &&& maxSequence⟩

/-- A call of `Next`. -/
inductive Call where
  /-- Before the lock. -/
  | start
  /-- In the loop of `waitUntilNextMs`. -/
  | waiting (targetTS : Int64) (timeout : Err)
  | returned (result : Except Err Int64)

/-- An ID that was returned, with the call it was returned to and the numbers it was made of. -/
structure Issue where
  call : Nat
  id : Int64
  timestamp : Int64
  sequence : Int64

/-- A generator, the calls made so far and the IDs returned so far, in this order. -/
structure Generator where
  state : Snowflake
  calls : List Call
  issues : List Issue

/-- What can happen to a generator. -/
inductive Event where
  /-- `Next` is called. -/
  | call
  /-- A call takes the lock and reads the clock. -/
  | lock (i : Nat) (unixMilli : Int64)
  /-- A waiting call reads the clock; `elapsed` is its test `time.Since(start) >= timeout`. -/
  | poll (i : Nat) (unixMilli : Int64) (elapsed : Bool)

/-- The call after its section. -/
def Section.toCall : Section → Call
  | .issued id => .returned (.ok id)
  | .failed e => .returned (.error e)
  | .waits targetTS timeout => .waiting targetTS timeout

/-- A turn of the loop of `waitUntilNextMs`. -/
def pollCall (targetTS : Int64) (timeout : Err) (now : Int64) (elapsed : Bool) : Call :=
  if now ≤ targetTS then
    if elapsed then .returned (.error timeout) else .waiting targetTS timeout
  else .start

namespace Generator

/-- A section of the call `i`. -/
def lockStep (g : Generator) (i : Nat) (now : Int64) : Generator :=
  let (state, ends) := g.state.locked now
  { state := state
    calls := g.calls.set i ends.toCall
    issues :=
      match ends with
      | .issued id => g.issues ++ [⟨i, id, state.lastTS, state.sequence⟩]
      | _ => g.issues }

/-- An event; it changes nothing if no call waits for it. -/
def step (g : Generator) : Event → Generator
  | .call => { g with calls := g.calls ++ [.start] }
  | .lock i unixMilli =>
    match g.calls[i]? with
    | some .start => g.lockStep i (timestamp unixMilli)
    | _ => g
  | .poll i unixMilli elapsed =>
    match g.calls[i]? with
    | some (.waiting targetTS timeout) =>
      { g with calls := g.calls.set i (pollCall targetTS timeout (timestamp unixMilli) elapsed) }
    | _ => g

/-- A generator that `New` has just made. -/
def init (s : Snowflake) : Generator := ⟨s, [], []⟩

/-- A new generator after some events. -/
def run (s : Snowflake) (events : List Event) : Generator := events.foldl step (init s)

end Generator

end Solocoder.Flake
