import Aft.Executor.Actor

/-!
# The scheduler

The state behind the scheduler's lock, the launch of an admitted job, the passes of a dispatch round
and the completion of a job.
-/

namespace Aft.Executor

structure SchedulerState where
  actors : ProjectRootId → Option ActorState
  actorOrder : List ProjectRootId
  cursor : ℕ
  idleWorkers : ℕ
  interactiveInflight : ℕ
  maintenanceInflight : ℕ
  providerInflight : ℕ
  bindsInflight : ℕ
  config : EffectiveConfig
  runningJobs : AList fun _ : ℕ => RunningJob
  nextJobId : ℕ
  bindRetryPending : Bool

namespace SchedulerState

def new (config : EffectiveConfig) : SchedulerState where
  actors := fun _ => none
  actorOrder := []
  cursor := 0
  idleWorkers := config.totalWorkers
  interactiveInflight := 0
  maintenanceInflight := 0
  providerInflight := 0
  bindsInflight := 0
  config := config
  runningJobs := ∅
  nextJobId := 1
  bindRetryPending := false

variable (state : SchedulerState)

def setActor (rootId : ProjectRootId) (actor : ActorState) : SchedulerState :=
  { state with actors := Function.update state.actors rootId (some actor) }

def running : List RunningJob := state.runningJobs.entries.map (·.2)

def newestInFlightReaderStartedAt (rootId : ProjectRootId) : Option Instant :=
  ((state.running.filter fun job =>
    decide (job.rootId = rootId ∧ job.lane ∈ [.pureRead, .serialLspStatus])).map (·.startedAt)).max?

/-- The id after an id: a `u64` that wraps around and is never 0. -/
def idAfter (jobId : ℕ) : ℕ := max ((jobId + 1) % 2 ^ 64) 1

/-- Record an admitted job as running, on a worker. -/
def launchRunJob (runJob : RunJob) (now : Instant) (phase : Phase) : SchedulerState :=
  { state with
    nextJobId := idAfter state.nextJobId
    runningJobs := state.runningJobs.insert state.nextJobId { runJob with startedAt := now, phase }
    idleWorkers := state.idleWorkers - 1
    interactiveInflight := state.interactiveInflight + (runJob.jobClass == .interactive).toNat
    maintenanceInflight := state.maintenanceInflight + (runJob.jobClass == .maintenance).toNat
    providerInflight := state.providerInflight + (runJob.lane == .providerMetadata).toNat
    bindsInflight :=
      state.bindsInflight + (isBindJob runJob.jobClass runJob.lane runJob.requestId).toNat }

/-- Take a job off `running_jobs` and off the counters. -/
def releaseJob (jobId : ℕ) (job : RunningJob) : SchedulerState :=
  { state with
    runningJobs := state.runningJobs.erase jobId
    interactiveInflight := state.interactiveInflight - (job.jobClass == .interactive).toNat
    maintenanceInflight := state.maintenanceInflight - (job.jobClass == .maintenance).toNat
    providerInflight := state.providerInflight - (job.lane == .providerMetadata).toNat
    bindsInflight := state.bindsInflight - (isBindJob job.jobClass job.lane job.requestId).toNat }

def generalIdle : ℕ :=
  state.idleWorkers - ((state.config.bindReserve - state.bindsInflight) +
    (state.config.providerReserve - state.providerInflight))

def canDispatchClass (jobClass : JobClass) : Bool :=
  if state.generalIdle = 0 then false
  else
    match jobClass with
    | .interactive => true
    | .maintenance => decide (state.maintenanceInflight < state.config.maintenanceCap ∧
        state.config.interactiveReserve < state.generalIdle)

end SchedulerState

/-! ## Dispatch rounds -/

/-- What the outside does during a round: the clock at each admission, the order of the actor map in
each turn, and whether the worker channel is open at each launch. -/
structure RoundEnv where
  clock : ℕ → Readings
  keys : ℕ → List ProjectRootId
  channelOpen : ℕ → Bool

/-- A dispatch round under way. -/
structure Round where
  state : SchedulerState
  /-- The permits left in the heavy semaphore. -/
  heavy : ℕ
  /-- The responses sent. -/
  answers : List (Ticket × Response)
  /-- The tickets of the jobs launched. -/
  launched : List Ticket
  /-- The admissions tried so far, to index the environment. -/
  attempts : ℕ
  madeProgress : Bool
  dispatchFailed : Bool

namespace Round

/-- Launch an admitted job; a closed channel drops it with its sender, and its completion event says
so. -/
def launch (env : RoundEnv) (round : Round) (runJob : RunJob) : Round :=
  let sent := env.channelOpen round.attempts
  let dropped : RunJob := { runJob with completion := none }
  { round with
    state := round.state.launchRunJob (if sent then runJob else dropped)
      (env.clock round.attempts).launch (if sent then .dispatched else .ended .abandoned none)
    heavy := round.heavy - runJob.heavyPermit.toNat
    launched := round.launched ++ [runJob.job]
    madeProgress := true
    dispatchFailed := !sent }

variable (env : RoundEnv) (round : Round)

def admitActor (rootId : ProjectRootId) (actor : ActorState) (pass : AdmissionPass)
    (newestReaderStartedAt : Option Instant) : Round :=
  let (actor, runJob) := tryAdmitActor rootId actor pass round.state.config (0 < round.heavy)
    newestReaderStartedAt (env.clock round.attempts)
  let round := { round with state := round.state.setActor rootId actor }
  let round := match runJob with
    | none => round
    | some runJob => round.launch env runJob
  { round with attempts := round.attempts + 1 }

def nextRoot : ProjectRootId × Round :=
  let order := round.state.actorOrder
  let cursor := if order.length ≤ round.state.cursor then 0 else round.state.cursor
  (order.getD cursor "",
    { round with state := { round.state with cursor := (cursor + 1) % order.length } })

/-- As `nextRoot`, in the passes that take the cursor modulo the number of actors. -/
def nextRootMod : ProjectRootId × Round :=
  let order := round.state.actorOrder
  let cursor := round.state.cursor % order.length
  (order.getD cursor "",
    { round with state := { round.state with cursor := (cursor + 1) % order.length } })

def visitClass (jobClass : JobClass) (round : Round) : Round :=
  let (rootId, round) := round.nextRoot
  let newest := match jobClass with
    | .interactive => round.state.newestInFlightReaderStartedAt rootId
    | .maintenance => none
  match round.state.actors rootId with
  | none => round
  | some actor =>
    if actor.fatal then
      let (actor, answers) := actor.failQueuedJobs
      { round with
        state := round.state.setActor rootId { actor with deficit := 0 }
        answers := round.answers ++ answers }
    else if !actor.hasQueuedJobs then
      { round with state := round.state.setActor rootId { actor with deficit := 0 } }
    else if !actor.hasQueuedJobsFor jobClass then round
    else
      let deficit := min (actor.deficit + round.state.config.drrQuantum) round.state.config.deficitCap
      let actor := { actor with deficit }
      if deficit < jobCost then { round with state := round.state.setActor rootId actor }
      else round.admitActor env rootId actor (.ofClass jobClass) newest

def classTurns (env : RoundEnv) (jobClass : JobClass) : ℕ → Round → Round
  | 0, round => round
  | turns + 1, round =>
    if !round.state.canDispatchClass jobClass ∨ round.state.actorOrder = [] ∨ round.dispatchFailed
    then round
    else classTurns env jobClass turns (round.visitClass env jobClass)

def dispatchRunnableClass (jobClass : JobClass) (round : Round) : Round :=
  classTurns env jobClass round.state.actorOrder.length round

/-- The roots with a queued bind, the oldest first. -/
def bindCandidates (keys : List ProjectRootId) : List ProjectRootId :=
  ((keys.filterMap fun rootId => do
    let actor ← round.state.actors rootId
    if actor.fatal then none
    else actor.interactive.oldestQueuedBindAt.map (·, rootId)).mergeSort
      fun left right => decide (left.1 ≤ right.1)).map (·.2)

def bindTurns (env : RoundEnv) : List ProjectRootId → Round → Round
  | [], round => round
  | rootId :: rest, round =>
    if round.dispatchFailed ∨ round.state.idleWorkers ≤
        round.state.config.providerReserve - round.state.providerInflight then round
    else
      match round.state.actors rootId with
      | none => bindTurns env rest round
      | some actor => bindTurns env rest (round.admitActor env rootId actor .bind none)

def dispatchQueuedBinds (keys : List ProjectRootId) (round : Round) : Round :=
  bindTurns env (round.bindCandidates keys) round

/-- Visit one actor in a pass of its own, outside the deficit round-robin. -/
def visitPass (pass : AdmissionPass) (round : Round) : Round :=
  let (rootId, round) := round.nextRootMod
  match round.state.actors rootId with
  | none => round
  | some actor => if actor.fatal then round else round.admitActor env rootId actor pass none

def providerTurns (env : RoundEnv) : ℕ → Round → Round
  | 0, round => round
  | turns + 1, round =>
    if round.dispatchFailed ∨ round.state.idleWorkers = 0 ∨
        round.state.config.providerReserve ≤ round.state.providerInflight then round
    else providerTurns env turns (round.visitPass env .providerMetadata)

def dispatchProviderMetadata : Round :=
  providerTurns env round.state.actorOrder.length round

def callLedgerTurns (env : RoundEnv) : ℕ → Round → Round
  | 0, round => round
  | turns + 1, round =>
    if round.dispatchFailed ∨ !round.state.canDispatchClass .interactive then round
    else callLedgerTurns env turns (round.visitPass env .callLedger)

def dispatchCallLedger : Round :=
  callLedgerTurns env round.state.actorOrder.length round

/-- Whether a dispatch round ends between two passes. -/
def stops : Bool := round.dispatchFailed || round.state.idleWorkers == 0

/-- Go on with a pass unless the round ends. -/
def andThen (pass : Round → Round) : Round :=
  if round.stops then round else pass round

def turn (index : ℕ) (round : Round) : Round :=
  let round := dispatchQueuedBinds env (env.keys index) { round with madeProgress := false }
  let round := round.andThen (dispatchProviderMetadata env)
  let round := round.andThen (dispatchCallLedger env)
  let round := round.andThen (dispatchRunnableClass env .interactive)
  round.andThen fun round =>
    if round.state.canDispatchClass .maintenance then dispatchRunnableClass env .maintenance round
    else round

/-- The loop of `dispatch_runnable`. A turn before another one launched a job, so idle workers bound
the turns. -/
def turns (env : RoundEnv) : ℕ → ℕ → Round → Round
  | 0, _, round => round
  | fuel + 1, index, round =>
    if round.state.idleWorkers = 0 ∨ round.state.actorOrder = [] then round
    else
      let round := round.turn env index
      if round.stops ∨ !round.madeProgress then round else turns env fuel (index + 1) round

end Round

/-- A dispatch round, which adds to the responses sent and the jobs launched before it. -/
def dispatchRunnable (env : RoundEnv) (state : SchedulerState) (heavy : ℕ)
    (answers : List (Ticket × Response)) (launched : List Ticket) : Round :=
  Round.turns env state.idleWorkers 0 ⟨state, heavy, answers, launched, 0, false, false⟩

/-! ## Completions -/

def ActorState.countCompleted (actor : ActorState) (job : RunningJob) : ActorState :=
  let actor := { actor with actorTotalInflight := actor.actorTotalInflight - 1 }
  match job.lane with
  | .pureRead => { actor with readInflight := actor.readInflight - 1 }
  | .serialLspStatus => { actor with lspInflight := false }
  | .heavyInit =>
    if isCallgraphAcquisition job.jobClass job.lane job.requestId then
      { actor with callgraphAcquisitionInflight := false } else actor
  | .mutating =>
    { actor with writerInflight := false, sharedBindInflight := false, mutatingInflight := none }
  | .maintenanceCommit => { actor with maintenanceCommitInflight := false }
  | .providerMetadata => { actor with providerInflight := false }
  | .callLedger => { actor with callLedgerInflight := false }

/-- What a completion does to the actor of its root: the actor after it, and the responses sent. -/
def ActorState.complete (actor : ActorState) (job : RunningJob) (outcome : JobCompletionOutcome) :
    ActorState × List (Ticket × Response) :=
  if outcome = .panicked ∧ job.lane = .mutating then
    { actor.countCompleted job with fatal := true }.failQueuedJobs
  else (actor.countCompleted job, [])

def SchedulerState.completeActor (state : SchedulerState) (job : RunningJob)
    (outcome : JobCompletionOutcome) : SchedulerState × List (Ticket × Response) :=
  match state.actors job.rootId with
  | none => (state, [])
  | some actor =>
    (state.setActor job.rootId (actor.complete job outcome).1, (actor.complete job outcome).2)

/-- Queue a bind again that was handed back, at the head of its actor's binds. -/
def requeueBind (state : SchedulerState) (rootId : ProjectRootId) (cancelRequested : Bool)
    (queued : QueuedJob) : SchedulerState × List (Ticket × Response) :=
  if cancelRequested then (state, [(queued.completion, requestCancelledResponse queued.requestId)])
  else
    match state.actors rootId with
    | none => (state, [(queued.completion, actorNotRegisteredResponse queued.requestId)])
    | some actor =>
      if actor.fatal then (state, [(queued.completion, actorFatalResponse queued.requestId)])
      else
        ({ state.setActor rootId
            { actor with interactive := actor.interactive.pushFrontJob .mutating queued } with
            bindRetryPending := state.bindRetryPending || queued.notBefore.isSome }, [])

/-- Process the completion event of a job. `tokens` are the states of the cancellation tokens. -/
def completeJob (state : SchedulerState) (tokens : Token → TokenState) (jobId : ℕ)
    (outcome : JobCompletionOutcome) (requeue : Option QueuedJob) :
    SchedulerState × List (Ticket × Response) :=
  match (state.runningJobs.lookup jobId : Option RunningJob) with
  | none => (state, [])
  | some job =>
    let completed := (state.releaseJob jobId job).completeActor job outcome
    let requeued := match requeue with
      | none => (completed.1, [])
      | some queued => requeueBind completed.1 job.rootId
          (queued.cancellation.any fun token => tokens token = TokenState.cancelled) queued
    ({ requeued.1 with idleWorkers := requeued.1.idleWorkers + 1 }, completed.2 ++ requeued.2)

end Aft.Executor
