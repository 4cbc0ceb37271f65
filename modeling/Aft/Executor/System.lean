import Aft.Executor.Scheduler

/-!
# The executor as a transition system

The scheduler's state together with what its callers and workers share with it: the cancellation
tokens, the responses sent and the closures invoked. A label is one atomic step: a call of the
interface under the scheduler's lock, a dispatch round, the processing of a completion event, or a
step of a worker. A label that does not apply leaves the executor as it is.
-/

namespace Aft.Executor

structure System where
  scheduler : SchedulerState
  /-- The permits of the heavy semaphore. -/
  heavy : ℕ
  tokens : Token → TokenState
  nextToken : Token
  nextEpoch : Epoch
  /-- The root of every submission; a ticket is an index here. -/
  submitted : List ProjectRootId
  /-- The responses sent, with the ticket whose sender was used. -/
  answers : List (Ticket × Response)
  /-- The tickets of the closures invoked. -/
  invoked : List Ticket
  /-- The tickets of the jobs launched. -/
  launched : List Ticket

/-- The arguments of `submit_labeled` that describe a job. -/
structure Submission where
  jobClass : JobClass
  lane : Lane
  requestId : String
  command : String
  cancellation : Option Token
  maintenanceCoalesceKey : Option MaintenanceCoalesceKey
  rerun : Bool

/-- What a submission reads from outside the scheduler. -/
structure SubmitEnv where
  now : Instant
  /-- The configure generation, if the root is bound. -/
  boundGeneration : Option ℕ
  /-- Whether the root was quiesced when its last route unbound. -/
  unboundQuiesced : Bool
  rootIsDir : Bool

inductive Label where
  | registerActor (rootId : ProjectRootId)
  | removeActor (rootId : ProjectRootId)
  | retireIdleActor (rootId : ProjectRootId) (publishing : Bool)
  | submit (rootId : ProjectRootId) (submission : Submission) (env : SubmitEnv)
  | cancelQueuedMaintenance (rootId : ProjectRootId)
  | cancelQueuedRootMaintenance (rootId : ProjectRootId)
  | cancelRootMaintenance (rootId : ProjectRootId)
  | requestCancel (token : Token)
  | cancelJob (rootId : ProjectRootId) (token : Token)
  | cancelJobBeforeExecution (rootId : ProjectRootId) (token : Token)
  | dispatch (env : RoundEnv)
  | complete (jobId : ℕ)
  /-- The worker invokes the closure of a job. -/
  | start (jobId : ℕ)
  /-- A closure commits. -/
  | sealCommitted (jobId : ℕ)
  /-- The worker answers that the job was cancelled before execution. -/
  | refuse (jobId : ℕ)
  /-- The closure returns. -/
  | finish (jobId : ℕ) (response : Response)
  /-- The closure panics. -/
  | panic (jobId : ℕ) (message : String)
  /-- The worker hands a bind back to be run as an exclusive writer; a cancel may land before it
  checks the token, pending again. -/
  | handBack (jobId : ℕ) (now : Instant) (cancelled : Bool)

namespace System

def new (config : EffectiveConfig) : System where
  scheduler := .new config
  heavy := config.heavyPermits
  tokens := fun _ => .pending
  nextToken := 0
  nextEpoch := 0
  submitted := []
  answers := []
  invoked := []
  launched := []

variable (system : System)

def setToken (token : Token) (state : TokenState) : System :=
  { system with tokens := Function.update system.tokens token state }

def requestCancel (token : Token) : System :=
  system.setToken token (system.tokens token).signalCancel.1

/-! ## Actors -/

variable (rootId : ProjectRootId)

def registerActor : System :=
  match system.scheduler.actors rootId with
  | some _ => system
  | none =>
    { system with
      scheduler := { system.scheduler.setActor rootId (.new system.nextEpoch) with
        actorOrder := system.scheduler.actorOrder ++ [rootId] }
      nextEpoch := system.nextEpoch + 1 }

def removeActor : System :=
  { system with
    scheduler := { system.scheduler with
      actorOrder := system.scheduler.actorOrder.filter (· ≠ rootId)
      actors := Function.update system.scheduler.actors rootId none } }

def retireIdleActor (publishing : Bool) : System :=
  if (system.scheduler.actors rootId).any (·.isIdle publishing) then system.removeActor rootId
  else system

/-! ## Submissions -/

/-- The error of a lane that the class of a job or the root does not admit. -/
def laneError (submission : Submission) (env : SubmitEnv) : Option Response :=
  let id := submission.requestId
  if submission.lane = .providerMetadata ∧ submission.jobClass ≠ .interactive then
    some (.error id "invalid_lane" "provider metadata requires interactive admission")
  else if submission.lane = .providerMetadata ∧ env.boundGeneration.isNone then
    some (.error id "request_cancelled" "provider metadata root is unbound")
  else if submission.lane = .callLedger ∧ submission.jobClass ≠ .interactive then
    some (.error id "invalid_lane" "call ledger work requires interactive admission")
  else none

def makeRoom (queues : ClassQueues) : List QueuedJob × ClassQueues :=
  if maintenanceQueueCap ≤ queues.queuedCount then queues.removeDuplicateMaintenanceJobs
  else ([], queues)

/-- Why a job is not queued on an actor that is not fatal, and for maintenance the redundant drains
removed to make room. -/
def admissionError (actor : ActorState) (submission : Submission) (env : SubmitEnv) :
    Option Response × List QueuedJob × ActorState :=
  let id := submission.requestId
  if submission.jobClass = .maintenance then
    if env.unboundQuiesced ∧ submission.command ≠ "unbound-teardown-persist" ∨ !env.rootIsDir then
      (some (maintenanceCancelledResponse id "maintenance root is unbound or missing"), [], actor)
    else if submission.maintenanceCoalesceKey.any actor.maintenance.hasMaintenanceCoalesceKey then
      (some (maintenanceCancelledResponse id
        "maintenance drain coalesced behind an identical queued drain"), [], actor)
    else
      let (victims, queues) := makeRoom actor.maintenance
      let full := maintenanceQueueCap ≤ queues.queuedCount
      (if full then some (maintenanceBackpressureResponse id) else laneError submission env, victims,
        { actor with maintenance := queues })
  else (laneError submission env, [], actor)

def duplicateVictimAnswer (job : QueuedJob) : Ticket × Response :=
  (job.completion, maintenanceCancelledResponse job.requestId
    "duplicate maintenance drain removed to preserve queue capacity")

/-- The token of a submission: the given one, or a new one for work cancelled by its root. -/
def submissionToken (submission : Submission) : Option Token × System :=
  let needsToken := submission.jobClass = .maintenance ∨ submission.command = "inspect" ∨
    submission.lane = .providerMetadata
  if needsToken ∧ submission.cancellation = none then
    (some system.nextToken,
      { system.setToken system.nextToken .pending with nextToken := system.nextToken + 1 })
  else (submission.cancellation, system)

def queuedJobOf (submission : Submission) (env : SubmitEnv) (ticket : Ticket)
    (cancellation : Option Token) : QueuedJob where
  job := ticket
  completion := ticket
  requestId := submission.requestId
  command := submission.command
  queuedAt := env.now
  cancellation := cancellation
  maintenanceCoalesceKey := submission.maintenanceCoalesceKey
  rerun := submission.rerun
  forceExclusive := false
  notBefore := none
  exclusiveAttempts := 0
  providerGeneration := if submission.lane = .providerMetadata then env.boundGeneration else none

def settleSubmission (response : Response) : System :=
  { system with
    submitted := system.submitted ++ [rootId]
    answers := system.answers ++ [(system.submitted.length, response)] }

def submit (submission : Submission) (env : SubmitEnv) : System :=
  let (cancellation, system) := system.submissionToken submission
  match system.scheduler.actors rootId with
  | none => system.settleSubmission rootId (actorNotRegisteredResponse submission.requestId)
  | some actor =>
    if actor.fatal then system.settleSubmission rootId (actorFatalResponse submission.requestId)
    else
      let (error, victims, actor) := admissionError actor submission env
      let system := { system with
        scheduler := system.scheduler.setActor rootId actor
        answers := system.answers ++ victims.map duplicateVictimAnswer }
      match error with
      | some response => system.settleSubmission rootId response
      | none =>
        let job := queuedJobOf submission env system.submitted.length cancellation
        { system with
          scheduler := system.scheduler.setActor rootId
            (actor.pushJob submission.jobClass submission.lane job)
          submitted := system.submitted ++ [rootId] }

/-! ## Cancellations -/

def updateActor (update : ActorState → ActorState × List (Ticket × Response)) : System :=
  match system.scheduler.actors rootId with
  | none => system
  | some actor =>
    { system with
      scheduler := system.scheduler.setActor rootId (update actor).1
      answers := system.answers ++ (update actor).2 }

def cancelQueuedMaintenance : System :=
  system.updateActor rootId ActorState.cancelQueuedJobs

/-- The tokens after `try_cancel_before_running` on each of some jobs. -/
def cancelPendingTokens (jobs : List QueuedJob) : System :=
  (jobs.filterMap (·.cancellation)).foldl (fun system token =>
    system.setToken token (system.tokens token).tryCancelBeforeRunning.1) system

/-- `cancel_queued_root_work` on the actor of a root. -/
def cancelQueuedRootMaintenance : System :=
  match system.scheduler.actors rootId with
  | none => system
  | some actor =>
    (system.cancelPendingTokens (actor.interactive.queue .providerMetadata)).updateActor rootId
      fun actor =>
        let (actor, maintenance) := actor.cancelQueuedJobs
        let (actor, provider) := actor.cancelQueuedProviderJobs
        (actor, maintenance ++ provider)

def cancelRootMaintenance : System :=
  let system := system.cancelQueuedRootMaintenance rootId
  let queued := match system.scheduler.actors rootId with
    | none => []
    | some actor => (actor.interactive.drained.filter (·.command = "inspect")).filterMap (·.cancellation)
  let running := (system.scheduler.running.filter fun job =>
    decide (job.rootId = rootId ∧ (job.jobClass = .maintenance ∨ job.command = "inspect"))).filterMap
      (·.cancellation)
  (queued ++ running).foldl requestCancel system

/-- Remove the queued job with a token and answer that it was cancelled. -/
def settleQueued (token : Token) : System :=
  system.updateActor rootId fun actor =>
    let (job, actor) := actor.removeQueuedCancellable token
    (actor, job.toList.map fun job => (job.completion, requestCancelledResponse job.requestId))

def cancelJob (token : Token) : System :=
  (system.requestCancel token).settleQueued rootId token

def cancelJobBeforeExecution (token : Token) : System :=
  let (state, cancelled) := (system.tokens token).tryCancelBeforeRunning
  if cancelled then (system.setToken token state).settleQueued rootId token else system

/-! ## Dispatch and completion -/

def dispatch (env : RoundEnv) : System :=
  let round :=
    dispatchRunnable env system.scheduler system.heavy system.answers system.launched
  { system with
    scheduler := round.state
    heavy := round.heavy
    answers := round.answers
    launched := round.launched }

variable (jobId : ℕ)

def complete : System :=
  match (system.scheduler.runningJobs.lookup jobId : Option RunningJob) with
  | none => system
  | some job =>
    match job.phase with
    | .ended outcome requeue =>
      let (scheduler, answers) := completeJob system.scheduler system.tokens jobId outcome requeue
      { system with
        scheduler
        heavy := system.heavy + job.heavyPermit.toNat
        answers := system.answers ++ answers }
    | _ => system

/-! ## Workers -/

variable (job : RunningJob)

def setRunning : System :=
  { system with
    scheduler := { system.scheduler with
      runningJobs := system.scheduler.runningJobs.replace jobId job } }

def work (step : RunningJob → System) : System :=
  match (system.scheduler.runningJobs.lookup jobId : Option RunningJob) with
  | none => system
  | some job => step job

def tokenState : TokenState :=
  job.cancellation.elim .running system.tokens

/-- Change the state of a job's token, if it has one. -/
def stepToken (state : TokenState) : System :=
  job.cancellation.elim system fun token => system.setToken token state

/-- Invoke the closure, unless the token is cancelled. Provider work commits as it starts. -/
def start : System :=
  system.work jobId fun job =>
    let (state, canStart) := (system.tokenState job).markRunning
    if job.phase = .dispatched ∧ canStart then
      let state := if job.providerGeneration.isSome then state.trySealCommitted.1 else state
      let system := system.stepToken job state
      { system.setRunning jobId { job with phase := .started } with
        invoked := system.invoked ++ [job.job] }
    else system

def sealCommitted : System :=
  system.work jobId fun job =>
    if job.phase = .started then
      system.stepToken job (system.tokenState job).trySealCommitted.1
    else system

/-- Send the response of a job and its completion event. -/
def answer (response : Response) (outcome : JobCompletionOutcome) : System :=
  { system.setRunning jobId { job with completion := none, phase := .ended outcome none } with
    answers := system.answers ++ job.completion.toList.map (·, response) }

def mayRefuse : Bool :=
  job.cancellation.isSome || job.jobClass == .maintenance || job.command == "inspect" ||
    job.lane == .providerMetadata

def refuse : System :=
  system.work jobId fun job =>
    if job.phase = .dispatched ∧ mayRefuse job then
      system.answer jobId job (requestCancelledResponse job.requestId) .completed
    else system

def finish (response : Response) : System :=
  system.work jobId fun job =>
    if job.phase = .started then system.answer jobId job response .completed else system

def panic (message : String) : System :=
  system.work jobId fun job =>
    if job.phase = .started then
      system.answer jobId job (panicResponse job.requestId job.command message) .panicked
    else system

/-- The delay of a bind that found the epoch gate held by a detached writer. -/
def detachedWriterBackoff (attempts : ℕ) : ℕ := min (10 * 2 ^ min attempts 5) 200

/-- The job that `requeue_as_exclusive` queues again. -/
def requeuedJob (completion : Ticket) (now : Instant) : QueuedJob where
  job := job.job
  completion := completion
  requestId := job.requestId
  command := job.command
  queuedAt := job.queuedAt
  cancellation := job.cancellation
  maintenanceCoalesceKey := none
  rerun := true
  forceExclusive := true
  notBefore :=
    if job.sharedBindGate then none else some (now + detachedWriterBackoff job.exclusiveAttempts)
  exclusiveAttempts := job.exclusiveAttempts + (!job.sharedBindGate).toNat
  providerGeneration := none

/-- A shared-hold bind may be handed back before or after its run; a repeatable exclusive one before
it. -/
def mayHandBack : Bool :=
  job.lane == .mutating && job.rerun &&
    (job.phase == .dispatched || job.sharedBindGate && job.phase == .started)

def handBack (now : Instant) (cancelled : Bool) : System :=
  system.work jobId fun job =>
    if mayHandBack job then
      let (state, returned) := (system.tokenState job).returnToPending
      let cancelled := cancelled && job.cancellation.isSome
      let system := system.stepToken job (if cancelled then state.signalCancel.1 else state)
      if returned ∧ !cancelled then
        system.setRunning jobId { job with
          completion := none
          phase := .ended .completed (job.completion.map fun ticket => requeuedJob job ticket now) }
      else system.answer jobId job (requestCancelledResponse job.requestId) .completed
    else system

/-! ## Runs -/

def apply : Label → System
  | .registerActor rootId => system.registerActor rootId
  | .removeActor rootId => system.removeActor rootId
  | .retireIdleActor rootId publishing => system.retireIdleActor rootId publishing
  | .submit rootId submission env => system.submit rootId submission env
  | .cancelQueuedMaintenance rootId => system.cancelQueuedMaintenance rootId
  | .cancelQueuedRootMaintenance rootId => system.cancelQueuedRootMaintenance rootId
  | .cancelRootMaintenance rootId => system.cancelRootMaintenance rootId
  | .requestCancel token => system.requestCancel token
  | .cancelJob rootId token => system.cancelJob rootId token
  | .cancelJobBeforeExecution rootId token => system.cancelJobBeforeExecution rootId token
  | .dispatch env => system.dispatch env
  | .complete jobId => system.complete jobId
  | .start jobId => system.start jobId
  | .sealCommitted jobId => system.sealCommitted jobId
  | .refuse jobId => system.refuse jobId
  | .finish jobId response => system.finish jobId response
  | .panic jobId message => system.panic jobId message
  | .handBack jobId now cancelled => system.handBack jobId now cancelled

end System

/-- Which actors are removed in a run, and whether the worker channel takes a job. -/
structure Rules where
  removes : ActorState → Prop
  channel : Bool → Prop

def Rules.Allows (rules : Rules) (system : System) : Label → Prop
  | .removeActor rootId =>
    ∀ actor, system.scheduler.actors rootId = some actor → rules.removes actor
  | .retireIdleActor rootId publishing =>
    ∀ actor, system.scheduler.actors rootId = some actor → actor.isIdle publishing = true →
      rules.removes actor
  | .dispatch env => ∀ attempt, rules.channel (env.channelOpen attempt)
  | _ => True

/-- The states that an executor reaches from a state by the labels that the rules allow. -/
inductive System.Reaches (rules : Rules) (start : System) : System → Prop
  | refl : Reaches rules start start
  | step {system} (label : Label) (h : Reaches rules start system)
      (hallowed : rules.Allows system label) : Reaches rules start (system.apply label)

end Aft.Executor
