import Mathlib.Algebra.Order.Ring.Int

/-!
# The audit log of `internal/auditlog`

A record is created under the lock of the logger and reaches the writer later, from a worker, from a
goroutine of its own or from `LogSync`; records may overtake each other. SHA-256 is a parameter.
-/

namespace Solocoder.Audit

/-- A Go string. -/
abbrev Str := List UInt8

/-- A string literal of the source; all of them are ASCII. -/
def str (s : String) : Str := s.toList.map Char.toUInt8

/-- `%d`. -/
def decimal (n : Int) : Str := str (toString n)

def hexDigit (n : Nat) : UInt8 := if n < 10 then UInt8.ofNat (48 + n) else UInt8.ofNat (87 + n)

def encodeToString (bytes : Str) : Str :=
  bytes.flatMap fun b => [hexDigit (b.toNat / 16), hexDigit (b.toNat % 16)]

/-- `OperationType`, with the values that are no constant of the source. -/
abbrev OperationType := Int

def OperationType.string (t : OperationType) : Str :=
  if t = 0 then str "CREATE"
  else if t = 1 then str "READ"
  else if t = 2 then str "UPDATE"
  else if t = 3 then str "DELETE"
  else if t = 4 then str "LOGIN"
  else if t = 5 then str "LOGOUT"
  else str "CUSTOM"

abbrev OperationResult := Int

def OperationResult.string (r : OperationResult) : Str :=
  if r = 0 then str "SUCCESS" else str "FAILURE"

/-- A `time.Time`, in nanoseconds since 1970. -/
abbrev Time := Int

/-- `UnixNano`, an `int64`. -/
def unixNano (t : Time) : Int := Int.bmod t (2 ^ 64)

@[ext]
structure AuditLog where
  eventID : Str
  timestamp : Time
  subjectID : Str
  operation : OperationType
  operationDesc : Str
  resourceID : Str
  resourceType : Str
  result : OperationResult
  sourceIP : Str
  userAgent : Str
  detail : Str
  previousHash : Str
  currentHash : Str
  deriving DecidableEq

structure Entry where
  subjectID : Str
  operation : OperationType
  resourceID : Str
  resourceType : Str
  result : OperationResult
  sourceIP : Str
  userAgent : Str
  detail : Str

/-- The text that `computeHash` hashes. -/
def hashText (log : AuditLog) : Str :=
  List.intercalate (str "|") [log.eventID, decimal (unixNano log.timestamp), log.subjectID,
      OperationType.string log.operation, log.operationDesc, log.resourceID, log.resourceType,
      OperationResult.string log.result, log.sourceIP, log.userAgent, log.detail, log.previousHash]

variable (sum256 : Str → Str)

def computeHash (log : AuditLog) : Str := encodeToString (sum256 (hashText log))

structure Config where
  maxRetries : Int
  retryInterval : Int
  bufferSize : Int
  workerCount : Int
  enableHashChain : Bool

/-- `Logger`, without its queue and its indices. -/
structure Logger where
  cfg : Config
  logs : List AuditLog
  lastHash : Str
  /-- One more for each record, so that it stays below `2 ^ 64`. -/
  idCounter : Nat
  started : Bool
  stopped : Bool

/-- `NewLoggerWithConfig`, for a writer that is not nil. -/
def newLoggerWithConfig (cfg : Config) : Except String Logger :=
  if cfg.maxRetries < 0 then .error "invalid configuration: MaxRetries must be >= 0"
  else if cfg.retryInterval < 0 then .error "invalid configuration: RetryInterval must be >= 0"
  else if cfg.bufferSize ≤ 0 then .error "invalid configuration: BufferSize must be > 0"
  else if cfg.workerCount ≤ 0 then .error "invalid configuration: WorkerCount must be > 0"
  else .ok ⟨cfg, [], [], 0, false, false⟩

/-- `generateEventID`, when the clock shows `now`. -/
def eventID (now : Time) (idCounter : Nat) : Str :=
  str "audit-" ++ decimal (unixNano now) ++ str "-" ++ decimal idCounter

variable (writerLogs memLogs : List AuditLog) (l : Logger)

/-- The record of `createLog` before it is hashed. -/
def Logger.record (entry : Entry) (now timestamp : Time) : AuditLog :=
  { eventID := eventID now (l.idCounter + 1)
    timestamp := timestamp
    subjectID := entry.subjectID
    operation := entry.operation
    operationDesc := OperationType.string entry.operation
    resourceID := entry.resourceID
    resourceType := entry.resourceType
    result := entry.result
    sourceIP := entry.sourceIP
    userAgent := entry.userAgent
    detail := entry.detail
    previousHash := l.lastHash
    currentHash := [] }

/-- `createLog`, when the two readings of the clock give `now` and `timestamp`. -/
def Logger.createLog (entry : Entry) (now timestamp : Time) : AuditLog × Logger :=
  let log := l.record entry now timestamp
  if l.cfg.enableHashChain then
    let log := { log with currentHash := computeHash sum256 log }
    (log, { l with
      logs := l.logs ++ [log], lastHash := log.currentHash, idCounter := l.idCounter + 1 })
  else (log, { l with logs := l.logs ++ [log], idCounter := l.idCounter + 1 })

structure VerificationResult where
  valid : Bool
  tamperedIndex : Int
  message : Str
  fullySynchronized : Bool
  deriving DecidableEq

def VerificationResult.tampered (i : Int) (message : Str) : VerificationResult :=
  ⟨false, i, message, false⟩

/-- The loop of `verifyLogChainStrict` from index `i` on, behind the record `prev`. -/
def checkChain (label : Str) : Nat → Option AuditLog → List AuditLog → Option VerificationResult
  | _, _, [] => none
  | i, prev, log :: logs =>
    if log.currentHash ≠ computeHash sum256 log then
      some <| .tampered i <| label ++ str ": log at index " ++ decimal i ++ str " (EventID=" ++
        log.eventID ++ str ") has been tampered: hash mismatch"
    else if prev.any fun p => log.previousHash ≠ p.currentHash then
      some <| .tampered i <| label ++ str ": hash chain broken at index " ++ decimal i ++
        str " (EventID=" ++ log.eventID ++
        str "): previous hash does not match preceding log's hash"
    else checkChain label (i + 1) (some log) logs

def verifyLogChainStrict (logs : List AuditLog) (label : Str) : VerificationResult :=
  match logs with
  | [] => ⟨true, -1, label ++ str ": no logs", true⟩
  | first :: _ =>
    if first.previousHash ≠ [] then
      .tampered 0 (label ++ str ": first log should have empty previous hash")
    else (checkChain sum256 label 0 none logs).getD
      ⟨true, -1, label ++ str ": all " ++ decimal logs.length ++ str " logs are intact", true⟩

/-- A map from event ids to records that is filled in the order of the list. -/
def byEvent (logs : List AuditLog) (id : Str) : Option AuditLog :=
  logs.reverse.find? fun log => log.eventID = id

def errWriterIntegrityFailed : Str := str "audit log writer integrity check failed"

/-- The texts of `verifyLogSetConsistency` about the record at index `i` of the writer. -/
def writerMessage (before : String) (i : Int) (id : Str) (behind : String) : Str :=
  errWriterIntegrityFailed ++ str before ++ decimal i ++ str " (EventID=" ++ id ++ str behind

/-- The first loop of `verifyLogSetConsistency`: every record is new and is in memory. -/
def checkKnown (memLogs : List AuditLog) :
    List AuditLog → List AuditLog → Option VerificationResult
  | _, [] => none
  | seen, wl :: writerLogs =>
    if wl.eventID ∈ seen.map AuditLog.eventID then
      some <| .tampered seen.length <|
        writerMessage ": writer has duplicate log at index " seen.length wl.eventID ")"
    else if (byEvent memLogs wl.eventID).isNone then
      some <| .tampered seen.length <|
        writerMessage ": writer log at index " seen.length wl.eventID ") does not exist in memory"
    else checkKnown memLogs (seen ++ [wl]) writerLogs

/-- `origIdx`, with the index that replaces it if there is none. -/
def reportIdx (writerLogs : List AuditLog) (id : Str) (i : Nat) : Int :=
  ((writerLogs.findIdx? fun wl => wl.eventID = id).getD i : Nat)

/-- The loop over `sortedWriterLogs`, behind index `i` and its record `prev`. -/
def checkSorted (writerLogs : List AuditLog) :
    Nat → AuditLog → List AuditLog → Option VerificationResult
  | _, _, [] => none
  | i, prev, curr :: sorted =>
    if curr.previousHash ≠ prev.currentHash then
      let idx := reportIdx writerLogs curr.eventID (i + 1)
      some <| .tampered idx <| writerMessage ": writer hash chain broken at index " idx curr.eventID
        "): previous hash does not match preceding log's hash"
    else checkSorted writerLogs (i + 1) curr sorted

/-- The part of `verifyLogSetConsistency` for as many records in the writer as in memory. -/
def checkSynced : Option VerificationResult :=
  match memLogs.filterMap fun ml => byEvent writerLogs ml.eventID with
  | [] => none
  | first :: sorted =>
    if first.previousHash ≠ [] then
      let idx := reportIdx writerLogs first.eventID 0
      some <| .tampered idx <| writerMessage ": writer hash chain broken at index " idx
        first.eventID "): earliest log should have empty previous hash"
    else checkSorted writerLogs 0 first sorted

/-- The loop that compares the hashes of the writer with those in memory. -/
def checkHashes (memLogs : List AuditLog) : Nat → List AuditLog → Option VerificationResult
  | _, [] => none
  | i, wl :: writerLogs =>
    if (byEvent memLogs wl.eventID).any fun ml => ml.currentHash ≠ wl.currentHash then
      some <| .tampered i <| writerMessage ": writer log at index " i wl.eventID
        ") hash differs from memory version (writer content has been tampered)"
    else checkHashes memLogs (i + 1) writerLogs

/-- The loop that hashes the records of the writer again. -/
def checkSelf : Nat → List AuditLog → Option VerificationResult
  | _, [] => none
  | i, wl :: writerLogs =>
    if wl.currentHash ≠ computeHash sum256 wl then
      some <| .tampered i <| writerMessage ": writer log at index " i wl.eventID
        ") has been tampered: hash mismatch (self-consistency check failed)"
    else checkSelf (i + 1) writerLogs

/-- The result of `verifyLogSetConsistency` behind its checks of the records. -/
def checkCount (writerCount memCount : Nat) (strictCount : Bool) : VerificationResult :=
  if strictCount ∧ writerCount ≠ memCount then
    .tampered (-1) <| errWriterIntegrityFailed ++ str ": strict mode: writer has " ++
      decimal writerCount ++ str " logs but memory has " ++ decimal memCount ++
      str " (data loss detected, expected fully synchronized)"
  else if writerCount = memCount then
    ⟨true, -1, str "all " ++ decimal memCount ++
      str " logs intact in memory and writer (fully synchronized)", true⟩
  else
    ⟨true, -1, str "writer has " ++ decimal writerCount ++ str " logs, memory has " ++
      decimal memCount ++ str " logs (all consistent; " ++
      decimal ((memCount : Int) - writerCount) ++ str " pending flush)", false⟩

def verifyLogSetConsistency (strictCount : Bool) : VerificationResult :=
  if writerLogs = [] ∧ memLogs = [] then ⟨true, -1, str "no logs", true⟩
  else
    (checkKnown memLogs [] writerLogs <|>
      (if writerLogs.length = memLogs.length then checkSynced writerLogs memLogs else none) <|>
      checkHashes memLogs 0 writerLogs <|> checkSelf sum256 0 writerLogs).getD
        (checkCount writerLogs.length memLogs.length strictCount)

/-- `verifyIntegrityLocked`; `written` is what a `ReadableWriter` reads. -/
def Logger.verifyIntegrityLocked (written : Option (List AuditLog))
    (strictCount : Bool) : VerificationResult :=
  let memResult := verifyLogChainStrict sum256 l.logs (str "memory")
  if !memResult.valid then memResult
  else
    match written with
    | some writerLogs => verifyLogSetConsistency sum256 writerLogs l.logs strictCount
    | none => memResult

/-- A logger and its records on their way. -/
structure System where
  logger : Logger
  /-- The records that no `Write` has taken yet. -/
  pending : List AuditLog
  /-- The writer is a `ReadableWriter`. -/
  readable : Bool
  /-- The records that the writer has taken. -/
  stored : List AuditLog

/-- What can happen. -/
inductive Event where
  | start
  | stop
  /-- `Log` or `LogSync`, with the two readings of the clock. -/
  | log (entry : Option Entry) (now timestamp : Time)
  /-- The writer takes a record. -/
  | write (i : Nat)
  /-- All attempts to write a record have failed. -/
  | drop (i : Nat)

/-- A logger as `NewLoggerWithConfig` makes it, with an empty writer. -/
def newSystem (cfg : Config) (readable : Bool) : Except String System :=
  (newLoggerWithConfig cfg).map fun logger => ⟨logger, [], readable, []⟩

namespace System

variable (s : System)

def create (entry : Entry) (now timestamp : Time) : System :=
  let (log, logger) := s.logger.createLog sum256 entry now timestamp
  { s with logger := logger, pending := s.pending ++ [log] }

def step : Event → System
  | .start =>
    if s.logger.started then s
    else { s with logger := { s.logger with started := true, stopped := false } }
  | .stop => { s with logger := { s.logger with stopped := true } }
  | .log none _ _ => s
  | .log (some entry) now timestamp =>
    if s.logger.stopped ∨ ¬ s.logger.started then s else s.create sum256 entry now timestamp
  | .write i =>
    match s.pending[i]? with
    | some log => { s with pending := s.pending.eraseIdx i, stored := s.stored ++ [log] }
    | none => s
  | .drop i => { s with pending := s.pending.eraseIdx i }

def run (events : List Event) : System := events.foldl (step sum256) s

def verifyIntegrity : VerificationResult :=
  s.logger.verifyIntegrityLocked sum256 (if s.readable then some s.stored else none) false

def verifyIntegrityStrict : VerificationResult :=
  s.logger.verifyIntegrityLocked sum256 (if s.readable then some s.stored else none) true

/-- Somebody replaces the record at index `i` in memory. -/
def tamper (i : Nat) (log : AuditLog) : System :=
  { s with logger := { s.logger with logs := s.logger.logs.set i log } }

end System

end Solocoder.Audit
