import Aft.Executor.System

/-!
# Completions after a removal

`running_jobs` survives the removal of an actor, and a completion finds its actor by the root id
alone, so a job of a removed actor completes on whichever actor is registered by then. The epoch of
a job tells which registration launched it; `complete_actors_eq_iff` says when the completion of a
job with another epoch leaves the registered actor as it is.
-/

namespace Aft.Executor

namespace ActorState

/-- The counter or flag that a completion on the lane of a job takes back is clear. -/
def LaneClear (actor : ActorState) (job : RunningJob) : Prop :=
  match job.lane with
  | .pureRead => actor.readInflight = 0
  | .serialLspStatus => actor.lspInflight = false
  | .heavyInit =>
    isCallgraphAcquisition job.jobClass job.lane job.requestId = true →
      actor.callgraphAcquisitionInflight = false
  | .mutating =>
    actor.writerInflight = false ∧ actor.sharedBindInflight = false ∧ actor.mutatingInflight = none
  | .maintenanceCommit => actor.maintenanceCommitInflight = false
  | .providerMetadata => actor.providerInflight = false
  | .callLedger => actor.callLedgerInflight = false

/-- Nothing that the completion of a job could change: nothing in flight, no queue for a panic to
fail, and no place for a job handed back. -/
structure Spared (actor : ActorState) (job : RunningJob) (outcome : JobCompletionOutcome)
    (requeue : Option QueuedJob) (tokens : Token → TokenState) : Prop where
  inflight : actor.actorTotalInflight = 0
  lane : actor.LaneClear job
  panic : outcome = .panicked → job.lane = .mutating →
    actor.fatal = true ∧ actor.interactive = .new ∧ actor.maintenance = .new
  requeue : ∀ queued, requeue = some queued →
    (queued.cancellation.any fun token => tokens token = .cancelled) = true ∨ actor.fatal = true

section

variable (actor : ActorState) (job : RunningJob)

theorem countCompleted_eq_self_iff :
    actor.countCompleted job = actor ↔ actor.actorTotalInflight = 0 ∧ actor.LaneClear job := by
  obtain ⟨epoch, reads, lsp, total, writer, shared, commit, acquisition, provider, ledger, mutating,
    admissions, deficit, interactive, maintenance, fatal⟩ := actor
  have hp (n : ℕ) : n - 1 = n ↔ n = 0 := by omega
  unfold countCompleted LaneClear
  cases job.lane <;> dsimp only
  case heavyInit => split <;> simp_all [@eq_comm _ false]
  all_goals simp [hp, @eq_comm _ none, and_comm]

theorem complete_eq_self_iff (outcome : JobCompletionOutcome) :
    (actor.complete job outcome).1 = actor ↔
      actor.countCompleted job = actor ∧ (outcome = .panicked → job.lane = .mutating →
        actor.fatal = true ∧ actor.interactive = .new ∧ actor.maintenance = .new) := by
  unfold complete
  split
  case isTrue hp =>
    obtain ⟨ho, hl⟩ := hp
    obtain ⟨epoch, reads, lsp, total, writer, shared, commit, acquisition, provider, ledger, mutating,
      admissions, deficit, interactive, maintenance, fatal⟩ := actor
    simp only [hl, countCompleted, failQueuedJobs, mk.injEq]
    tauto
  case isFalse hp =>
    exact ⟨fun h => ⟨h, fun ho hl => absurd ⟨ho, hl⟩ hp⟩, And.left⟩

theorem fatal_countCompleted :
    (actor.countCompleted job).fatal = actor.fatal ∧
      (actor.countCompleted job).interactive = actor.interactive := by
  unfold countCompleted
  split <;> first | exact ⟨rfl, rfl⟩ | (split <;> exact ⟨rfl, rfl⟩)

end

/-- A completion that does not make the actor fatal leaves its queues and its fatal mark. -/
theorem fatal_complete {actor : ActorState} {job : RunningJob} {outcome : JobCompletionOutcome}
    (h : (actor.complete job outcome).1.fatal = false) :
    actor.fatal = false ∧ (actor.complete job outcome).1.interactive = actor.interactive := by
  unfold complete at h ⊢
  split
  case isTrue hp =>
    rw [if_pos hp] at h
    cases h
  case isFalse hp =>
    rw [if_neg hp] at h
    obtain ⟨hf, hin⟩ := actor.fatal_countCompleted job
    exact ⟨hf ▸ h, hin⟩

end ActorState

theorem ClassQueues.pushFrontJob_ne_self (queues : ClassQueues) (lane : Lane) (job : QueuedJob) :
    queues.pushFrontJob lane job ≠ queues := by
  intro h
  have ho : (lane :: queues.order).length = queues.order.length :=
    congrArg (fun queues => queues.order.length) h
  simp at ho

/-- What a completion with a job handed back does to the actor of the root. -/
theorem actors_requeueBind {state : SchedulerState} {rootId : ProjectRootId} {actor : ActorState}
    (hac : state.actors rootId = some actor) (cancelRequested : Bool) (queued : QueuedJob) :
    (requeueBind state rootId cancelRequested queued).1.actors rootId =
      some (if cancelRequested ∨ actor.fatal then actor else
        { actor with interactive := actor.interactive.pushFrontJob .mutating queued }) := by
  unfold requeueBind
  cases cancelRequested <;> cases hf : actor.fatal <;>
    simp [hac, hf, SchedulerState.setActor]

namespace System

/-- A job completes after its actor was removed and another one registered for the root. -/
structure Outlived (system : System) (jobId : ℕ) (job : RunningJob) (outcome : JobCompletionOutcome)
    (requeue : Option QueuedJob) (actor : ActorState) : Prop where
  lookup : system.scheduler.runningJobs.lookup jobId = some job
  phase : job.phase = .ended outcome requeue
  registered : system.scheduler.actors job.rootId = some actor
  epoch : job.epoch ≠ actor.epoch

variable {system : System} {jobId : ℕ} {job : RunningJob} {outcome : JobCompletionOutcome}
  {requeue : Option QueuedJob} {actor : ActorState}

theorem Outlived.actors_complete (h : system.Outlived jobId job outcome requeue actor) :
    (system.complete jobId).scheduler.actors job.rootId =
      some (match requeue with
        | none => (actor.complete job outcome).1
        | some queued =>
          if (queued.cancellation.any fun token => system.tokens token = .cancelled) = true ∨
              (actor.complete job outcome).1.fatal then (actor.complete job outcome).1
          else { (actor.complete job outcome).1 with
            interactive :=
              (actor.complete job outcome).1.interactive.pushFrontJob .mutating queued }) := by
  have hc : (((system.scheduler.releaseJob jobId job).completeActor job outcome).1).actors
      job.rootId = some (actor.complete job outcome).1 := by
    have hr : (system.scheduler.releaseJob jobId job).actors job.rootId = some actor :=
      h.registered
    simp [SchedulerState.completeActor, hr, SchedulerState.setActor]
  simp only [complete, h.lookup, h.phase, completeJob]
  cases requeue with
  | none => exact hc
  | some queued => exact actors_requeueBind hc _ queued

end System

/-! ## A writer that outlives its actor -/

def Rules.any : Rules := ⟨fun _ => True, fun _ => True⟩

theorem System.reaches_foldl (start : System) (labels : List Label) :
    Reaches .any start (labels.foldl apply start) :=
  List.foldlRecOn labels _ .refl fun _ hr label _ =>
    .step label hr (by cases label <;> simp [Rules.Allows, Rules.any])

namespace Removal

def config : EffectiveConfig := ExecutorConfig.effective ⟨2, 1, 1, 1, 1⟩

def roundEnv : RoundEnv := ⟨fun _ => ⟨0, 0, 0, 0, 0⟩, fun _ => ["r"], fun _ => true⟩

def edit : Label :=
  .submit "r" ⟨.interactive, .mutating, "1", "edit", none, none, false⟩ ⟨0, none, false, true⟩

/-- A writer still runs when its actor is removed and another one registered. -/
def replaced : System :=
  [.registerActor "r", edit, .dispatch roundEnv, .start 1, .removeActor "r",
    .registerActor "r"].foldl System.apply (.new config)

/-- The new actor launches a writer of its own and queues another one. -/
def writing : System := [edit, .dispatch roundEnv, edit].foldl System.apply replaced

/-- The number of running writers that the registered actor of the root launched. -/
def ownWriters (system : System) : ℕ :=
  system.scheduler.running.countP fun job => decide (job.rootId = "r" ∧ job.lane = .mutating ∧
    (system.scheduler.actors "r").any (·.epoch = job.epoch))

/-- The entry of the first actor's writer once its closure returned or panicked. -/
def endedWriter (outcome : JobCompletionOutcome) : RunningJob where
  rootId := "r"
  jobClass := .interactive
  lane := .mutating
  epoch := 0
  job := 0
  completion := none
  requestId := "1"
  command := "edit"
  heavyPermit := false
  cancellation := none
  sharedBindGate := false
  rerun := false
  queuedAt := 0
  exclusiveAttempts := 0
  providerGeneration := none
  startedAt := 0
  phase := .ended outcome none

end Removal

end Aft.Executor
