import Mathlib

/-!
# Jobs of the executor

What the scheduler knows about a job on its way from a queue to a worker. A job's closure and the
sender of its response are named by the ticket of its submission; the channel behind the sender is
the list of answers in `Aft.Executor.System`.
-/

namespace Aft.Executor

abbrev ProjectRootId := String

/-- A reading of the monotonic clock, in milliseconds. -/
abbrev Instant := ℕ

/-- The submission that a closure and a sender belong to. -/
abbrev Ticket := ℕ

/-- The identity of a cancellation token. -/
abbrev Token := ℕ

/-- The identity of an actor's epoch gate: a new one for each registration. -/
abbrev Epoch := ℕ

inductive Lane where
  | pureRead | serialLspStatus | heavyInit | mutating | maintenanceCommit | providerMetadata
  | callLedger
deriving DecidableEq, Repr

def allLanes : List Lane :=
  [.pureRead, .serialLspStatus, .heavyInit, .mutating, .maintenanceCommit, .providerMetadata,
    .callLedger]

inductive JobClass where
  | interactive | maintenance
deriving DecidableEq, Repr

inductive MaintenanceCoalesceKey where
  | watcherDrain | lspDrain | standingPass | configReload
deriving DecidableEq, Repr

/-! ## Constants and configuration -/

def maintenanceQueueCap : ℕ := 512
def interactiveWriterPromotionAge : ℕ := 6000
def bindPromotionAge : ℕ := 500
def bindReserveWorkers : ℕ := 2
def providerReserveWorkers : ℕ := 2
def readerStuckCensusAge : ℕ := 60000
def jobCost : ℤ := 1
def callgraphAcquisitionRequestId : String := "callgraph-view-acquire"

structure ExecutorConfig where
  poolSize : ℕ
  readCap : ℕ
  actorCap : ℕ
  heavyPermits : ℕ
  drrQuantum : ℤ
deriving DecidableEq, Repr

structure EffectiveConfig where
  poolSize : ℕ
  readCap : ℕ
  actorCap : ℕ
  heavyPermits : ℕ
  drrQuantum : ℤ
  deficitCap : ℤ
  interactiveReserve : ℕ
  maintenanceCap : ℕ
  bindReserve : ℕ
  providerReserve : ℕ
deriving DecidableEq, Repr

def EffectiveConfig.totalWorkers (config : EffectiveConfig) : ℕ :=
  config.poolSize + config.bindReserve + config.providerReserve

def ExecutorConfig.effective (config : ExecutorConfig) : EffectiveConfig :=
  let poolSize := min (max config.poolSize 2) 8
  let maxActorCap := max (poolSize - 1) 1
  let actorCap := min (max config.actorCap 1) maxActorCap
  let interactiveReserve := if 4 ≤ poolSize then 2 else 1
  { poolSize
    actorCap
    interactiveReserve
    readCap := min (min (max config.readCap 1) actorCap) 4
    heavyPermits := min (min (max config.heavyPermits 1) (max (poolSize - 1) 1)) 3
    drrQuantum := max config.drrQuantum 1
    deficitCap := (max actorCap 1 : ℕ) * 4
    maintenanceCap := max (poolSize - interactiveReserve) 1
    bindReserve := bindReserveWorkers
    providerReserve := providerReserveWorkers }

/-! ## Requests and responses -/

def isConfigureRequest (requestId : String) : Bool :=
  "subc-bind-".toList.isPrefixOf requestId.toList

def isBindJob (jobClass : JobClass) (lane : Lane) (requestId : String) : Bool :=
  jobClass == .interactive && lane == .mutating && isConfigureRequest requestId

def isCallgraphAcquisition (jobClass : JobClass) (lane : Lane) (requestId : String) : Bool :=
  jobClass == .maintenance && lane == .heavyInit && requestId == callgraphAcquisitionRequestId

inductive Response where
  | error (requestId code message : String)
  /-- The error of a full maintenance queue, with its `retryable` and `queue_cap` data. -/
  | backpressure (requestId : String) (retryable : Bool) (queueCap : ℕ)
  /-- What a closure returned. -/
  | reply (text : String)
deriving DecidableEq, Repr

def actorFatalResponse (requestId : String) : Response :=
  .error requestId "actor_fatal" "executor actor is fatal after a mutating job panic"

def maintenanceCancelledResponse (requestId message : String) : Response :=
  .error requestId "maintenance_cancelled" message

def maintenanceBackpressureResponse (requestId : String) : Response :=
  .backpressure requestId true maintenanceQueueCap

def requestCancelledResponse (requestId : String) : Response :=
  .error requestId "request_cancelled" "request cancelled before execution"

def actorNotRegisteredResponse (requestId : String) : Response :=
  .error requestId "actor_not_registered" "executor actor is not registered"

def panicResponse (requestId command message : String) : Response :=
  .error requestId "actor_fatal" s!"command '{command}' panicked: {message}"

/-! ## Cancellation tokens -/

/-- The state of a `JobCancellation`. -/
inductive TokenState where
  | pending | running | committed | cancelled
deriving DecidableEq, Repr

namespace TokenState

section

variable (state : TokenState)

/-- `mark_running`: the state after it, and whether the job may run. -/
def markRunning : TokenState × Bool :=
  (if state = .pending then .running else state, state != .cancelled)

def returnToPending : TokenState × Bool :=
  (if state = .running then .pending else state, state == .running || state == .pending)

def tryCancelBeforeRunning : TokenState × Bool :=
  (if state = .pending then .cancelled else state, state == .pending)

def trySealCommitted : TokenState × Bool :=
  (if state = .cancelled then .cancelled else .committed, state != .cancelled)

/-- `signal_cancel`: the state after it, and the state that it observed. -/
def signalCancel : TokenState × TokenState :=
  (if state = .committed then .committed else .cancelled, state)

end

end TokenState

/-! ## Jobs -/

structure QueuedJob where
  job : Ticket
  completion : Ticket
  requestId : String
  command : String
  queuedAt : Instant
  cancellation : Option Token
  maintenanceCoalesceKey : Option MaintenanceCoalesceKey
  /-- Whether the job may run more than once. -/
  rerun : Bool
  forceExclusive : Bool
  notBefore : Option Instant
  exclusiveAttempts : ℕ
  providerGeneration : Option ℕ
deriving DecidableEq, Repr

structure RunJob where
  rootId : ProjectRootId
  jobClass : JobClass
  lane : Lane
  epoch : Epoch
  job : Ticket
  completion : Option Ticket
  requestId : String
  command : String
  heavyPermit : Bool
  cancellation : Option Token
  sharedBindGate : Bool
  rerun : Bool
  queuedAt : Instant
  exclusiveAttempts : ℕ
  providerGeneration : Option ℕ
deriving DecidableEq, Repr

inductive JobCompletionOutcome where
  | completed | panicked | abandoned
deriving DecidableEq, Repr

/-- How far a worker is with a dispatched job; in the last phase its completion event waits for the
scheduler. -/
inductive Phase where
  | dispatched
  | started
  | ended (outcome : JobCompletionOutcome) (requeue : Option QueuedJob)
deriving DecidableEq, Repr

/-- An entry of `running_jobs`, with the job as its worker holds it; the scheduler reads the fields
set at the launch. -/
structure RunningJob extends RunJob where
  startedAt : Instant
  phase : Phase
deriving DecidableEq, Repr

end Aft.Executor
