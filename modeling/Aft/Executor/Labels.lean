import Aft.Executor.Steps

/-!
# The steps of a label

Every label that the rules of a run allow is a sequence of steps (`System.apply_steps`), and so is a
run (`System.Reaches.steps`).
-/

namespace Aft.Executor

open List

namespace ActorState

variable (actor : ActorState)

theorem drops_cancelQueuedJobs :
    actor.Drops actor.cancelQueuedJobs.1 actor.maintenance.drained := by
  refine actor.drops_setClassQueues .maintenance ⟨?_, nil_subset _⟩
  exact .of_eq (append_nil actor.maintenance.drained).symm

theorem drops_cancelQueuedProviderJobs :
    actor.Drops actor.cancelQueuedProviderJobs.1 (actor.interactive.queue .providerMetadata) := by
  refine actor.drops_setClassQueues .interactive ⟨?_, fun _ h => mem_of_mem_filter h⟩
  exact actor.interactive.drained_perm_setQueue (by rw [append_nil])

theorem drops_removeQueuedCancellable (token : Token) :
    actor.Drops (actor.removeQueuedCancellable token).2
      (actor.removeQueuedCancellable token).1.toList := by
  have hin := actor.interactive.drops_removeCancellable token
  unfold removeQueuedCancellable
  split
  · rename_i job queues hr
    rw [hr] at hin
    exact actor.drops_setClassQueues .interactive hin
  · exact actor.drops_setClassQueues .maintenance (actor.maintenance.drops_removeCancellable token)

theorem queues_pushJob {jobClass : JobClass} {lane : Lane} (job : QueuedJob)
    (hl : jobClass = .maintenance → lane ≠ .providerMetadata ∧ lane ≠ .callLedger) :
    actor.Queues (actor.pushJob jobClass lane job) job := by
  cases jobClass with
  | interactive =>
    refine ⟨rfl, rfl, rfl, ?_, fun _ h => .inl h⟩
    exact (actor.interactive.drained_pushJob lane job).append_right _
  | maintenance =>
    refine ⟨rfl, rfl, rfl, ?_, fun other ho => ?_⟩
    · refine ((actor.maintenance.drained_pushJob lane job).append_left _).trans ?_
      exact perm_middle
    · rcases mem_append.1 ho with hold | hnew
      · exact .inl hold
      · rw [mem_singleton.1 hnew]
        exact .inr (hl rfl)

end ActorState

namespace System

theorem makeRoom_drops (actor : ActorState) :
    actor.Drops { actor with maintenance := (makeRoom actor.maintenance).2 }
      (makeRoom actor.maintenance).1 := by
  unfold makeRoom
  split_ifs
  · exact actor.drops_setClassQueues .maintenance (actor.maintenance.drops_removePositions _)
  · exact .refl _

theorem admissionError_drops (actor : ActorState) (submission : Submission) (env : SubmitEnv) :
    actor.Drops (admissionError actor submission env).2.2
      (admissionError actor submission env).2.1 := by
  unfold admissionError
  split
  · split
    · exact .refl _
    · split
      · exact .refl _
      · exact makeRoom_drops actor
  · exact .refl _

/-- A maintenance job is not queued in a lane that only interactive jobs may use. -/
theorem admissionError_lane {actor : ActorState} {submission : Submission} {env : SubmitEnv}
    (h : (admissionError actor submission env).1 = none)
    (hc : submission.jobClass = .maintenance) :
    submission.lane ≠ .providerMetadata ∧ submission.lane ≠ .callLedger := by
  have hl : laneError submission env = none := by
    unfold admissionError at h
    dsimp only at h
    split_ifs at h
    exact h
  unfold laneError at hl
  rw [hc] at hl
  constructor <;> intro heq <;> simp [heq] at hl

/-! ## Labels -/

def ledger (system : System) : Ledger :=
  ⟨system.scheduler, system.submitted, system.answers, system.launched, system.invoked⟩

variable {rules : Rules} {system : System}

variable {rootId : ProjectRootId}

theorem removeActor_steps
    (hr : ∀ actor, system.scheduler.actors rootId = some actor → rules.removes actor) :
    Ledger.Steps rules system.ledger (system.removeActor rootId).ledger := by
  cases hac : system.scheduler.actors rootId with
  | none =>
    unfold removeActor
    rw [SchedulerState.update_actors_none hac]
    exact .single (.round (.move _ system.scheduler.cursor _))
  | some actor =>
    have hre : Ledger.Step rules system.ledger _ := .remove hac (hr actor hac)
    exact .head hre (.single (.round (.move _ system.scheduler.cursor _)))

theorem retireIdleActor_steps {publishing : Bool}
    (hr : ∀ actor, system.scheduler.actors rootId = some actor →
      actor.isIdle publishing = true → rules.removes actor) :
    Ledger.Steps rules system.ledger (system.retireIdleActor rootId publishing).ledger := by
  unfold retireIdleActor
  split_ifs with hid
  · refine removeActor_steps fun actor hac => hr actor hac ?_
    rwa [hac] at hid
  · exact .refl

theorem updateActor_steps {update : ActorState → ActorState × List (Ticket × Response)}
    (h : ∀ actor, ∃ dropped, actor.Drops (update actor).1 dropped ∧
      (update actor).2.map Prod.fst = dropped.map (·.completion)) :
    Ledger.Steps rules system.ledger (system.updateActor rootId update).ledger := by
  unfold updateActor
  cases hac : system.scheduler.actors rootId with
  | none => exact .refl
  | some actor =>
    obtain ⟨dropped, hd, han⟩ := h actor
    exact .single (.round (.drop hac hd han))

section

variable (system : System)

theorem ledger_cancelPendingTokens (jobs : List QueuedJob) :
    (system.cancelPendingTokens jobs).ledger = system.ledger := by
  unfold cancelPendingTokens
  induction jobs.filterMap (·.cancellation) generalizing system with
  | nil => rfl
  | cons token rest ih => exact ih (system.setToken token _)

theorem ledger_foldl_requestCancel (tokens : List Token) :
    (tokens.foldl requestCancel system).ledger = system.ledger := by
  induction tokens generalizing system with
  | nil => rfl
  | cons token rest ih => exact ih (system.requestCancel token)

theorem settleQueued_steps (rootId : ProjectRootId) (token : Token) :
    Ledger.Steps rules system.ledger (system.settleQueued rootId token).ledger := by
  refine updateActor_steps fun actor => ⟨_, actor.drops_removeQueuedCancellable token, ?_⟩
  simp

theorem ledger_stepToken (job : RunningJob) (state : TokenState) :
    (system.stepToken job state).ledger = system.ledger := by
  unfold stepToken
  cases job.cancellation <;> rfl

end

variable {jobId : ℕ}

/-- A step of a worker is an advance of its job, or nothing. -/
theorem work_steps {step : RunningJob → System}
    (h : ∀ job, system.scheduler.runningJobs.lookup jobId = some job →
      Ledger.Steps rules system.ledger (step job).ledger) :
    Ledger.Steps rules system.ledger (system.work jobId step).ledger := by
  unfold work
  cases hl : (system.scheduler.runningJobs.lookup jobId : Option RunningJob) with
  | none => exact .refl
  | some job => exact h job hl

variable {job : RunningJob}

theorem lookup_stepToken (state : TokenState)
    (hl : system.scheduler.runningJobs.lookup jobId = some job) :
    (system.stepToken job state).scheduler.runningJobs.lookup jobId = some job := by
  have hs : (system.stepToken job state).scheduler = system.scheduler :=
    congrArg Ledger.state (system.ledger_stepToken job state)
  rw [hs, hl]

theorem answer_steps (response : Response) (outcome : JobCompletionOutcome)
    (hl : system.scheduler.runningJobs.lookup jobId = some job)
    (hp : job.phase = .dispatched ∨ job.phase = .started) :
    Ledger.Steps rules system.ledger (system.answer jobId job response outcome).ledger := by
  have had : Ledger.Step rules system.ledger _ :=
    .advance hl (.answer response outcome hp)
  rw [append_nil] at had
  exact .single had

section

variable (jobId : ℕ)

theorem complete_steps : Ledger.Steps rules system.ledger (system.complete jobId).ledger := by
  unfold complete
  cases hl : (system.scheduler.runningJobs.lookup jobId : Option RunningJob) with
  | none => exact .refl
  | some job =>
    cases hp : job.phase with
    | dispatched | started => simp only [hp]; exact .refl
    | ended outcome requeue =>
      simp only [hp]
      exact .single (.complete system.tokens hl hp)

theorem start_steps : Ledger.Steps rules system.ledger (system.start jobId).ledger := by
  refine work_steps fun job hl => ?_
  dsimp only
  split
  · rename_i hs
    generalize (if job.providerGeneration.isSome then _ else _ : TokenState) = state
    have had : Ledger.Step rules (system.stepToken job state).ledger _ :=
      .advance (lookup_stepToken state hl) (.start hs.1)
    rw [append_nil] at had
    rw [← system.ledger_stepToken job state]
    exact .single had
  · exact .refl

theorem sealCommitted_steps :
    Ledger.Steps rules system.ledger (system.sealCommitted jobId).ledger := by
  refine work_steps fun job _ => ?_
  split
  · rw [ledger_stepToken]
  · exact .refl

theorem refuse_steps : Ledger.Steps rules system.ledger (system.refuse jobId).ledger := by
  refine work_steps fun job hl => ?_
  split
  · rename_i hr
    exact answer_steps _ _ hl (.inl hr.1)
  · exact .refl

theorem finish_steps (response : Response) :
    Ledger.Steps rules system.ledger (system.finish jobId response).ledger := by
  refine work_steps fun job hl => ?_
  split
  · rename_i hp
    exact answer_steps _ _ hl (.inr hp)
  · exact .refl

theorem panic_steps (message : String) :
    Ledger.Steps rules system.ledger (system.panic jobId message).ledger := by
  refine work_steps fun job hl => ?_
  split
  · rename_i hp
    exact answer_steps _ _ hl (.inr hp)
  · exact .refl

theorem handBack_steps (now : Instant) (cancelled : Bool) :
    Ledger.Steps rules system.ledger (system.handBack jobId now cancelled).ledger := by
  refine work_steps fun job hl => ?_
  split
  · rename_i hb
    have hp : job.phase = .dispatched ∨ job.phase = .started := by
      simp only [mayHandBack, Bool.and_eq_true, Bool.or_eq_true, beq_iff_eq] at hb
      exact hb.2.imp id And.right
    dsimp only
    generalize (if (cancelled && job.cancellation.isSome) then _ else _ : TokenState) = state
    rw [← system.ledger_stepToken job state]
    split
    · have had : Ledger.Step rules (system.stepToken job state).ledger _ :=
        .advance (lookup_stepToken state hl) (.handBack now hp)
      rw [append_nil, append_nil] at had
      exact .single had
    · exact answer_steps _ _ (lookup_stepToken state hl) hp
  · exact .refl

end

theorem ledger_submissionToken (system : System) (submission : Submission) :
    (system.submissionToken submission).2.ledger = system.ledger := by
  unfold submissionToken
  dsimp only
  split_ifs <;> rfl

section

variable (rootId : ProjectRootId)

theorem registerActor_steps :
    Ledger.Steps rules system.ledger (system.registerActor rootId).ledger := by
  unfold registerActor
  cases hac : system.scheduler.actors rootId with
  | some _ => exact .refl
  | none =>
    have hr : Ledger.Step rules system.ledger _ := .register system.nextEpoch hac
    exact .head hr (.single (.round (.move _ system.scheduler.cursor _)))

theorem cancelQueuedMaintenance_steps :
    Ledger.Steps rules system.ledger (system.cancelQueuedMaintenance rootId).ledger := by
  refine updateActor_steps fun actor => ⟨_, actor.drops_cancelQueuedJobs, ?_⟩
  simp [ActorState.cancelQueuedJobs]

theorem cancelQueuedRootMaintenance_steps :
    Ledger.Steps rules system.ledger (system.cancelQueuedRootMaintenance rootId).ledger := by
  unfold cancelQueuedRootMaintenance
  cases hac : system.scheduler.actors rootId with
  | none => exact .refl
  | some actor =>
    rw [← ledger_cancelPendingTokens system (actor.interactive.queue .providerMetadata)]
    refine updateActor_steps fun actor => ⟨_, actor.drops_cancelQueuedJobs.trans
      actor.cancelQueuedJobs.1.drops_cancelQueuedProviderJobs, ?_⟩
    simp [ActorState.cancelQueuedJobs, ActorState.cancelQueuedProviderJobs, Function.comp_def]

theorem cancelRootMaintenance_steps :
    Ledger.Steps rules system.ledger (system.cancelRootMaintenance rootId).ledger := by
  unfold cancelRootMaintenance
  rw [ledger_foldl_requestCancel]
  exact cancelQueuedRootMaintenance_steps rootId

theorem cancelJobBeforeExecution_steps (token : Token) :
    Ledger.Steps rules system.ledger (system.cancelJobBeforeExecution rootId token).ledger := by
  unfold cancelJobBeforeExecution
  dsimp only
  split
  · exact settleQueued_steps (system.setToken token _) rootId token
  · exact .refl

theorem settleSubmission_steps (response : Response) :
    Ledger.Steps rules system.ledger (system.settleSubmission rootId response).ledger :=
  .single (.settle _ rootId response)

theorem submit_steps (submission : Submission) (env : SubmitEnv) :
    Ledger.Steps rules system.ledger (system.submit rootId submission env).ledger := by
  rw [← system.ledger_submissionToken submission]
  unfold submit
  generalize system.submissionToken submission = token
  obtain ⟨cancellation, system⟩ := token
  dsimp only
  cases hac : system.scheduler.actors rootId with
  | none => exact settleSubmission_steps _ _
  | some actor =>
    dsimp only
    split
    · exact settleSubmission_steps _ _
    · have hd := admissionError_drops actor submission env
      have hl : (admissionError actor submission env).1 = none →
          submission.jobClass = .maintenance → _ := admissionError_lane
      generalize admissionError actor submission env = admission at hd hl ⊢
      obtain ⟨error, victims, actor'⟩ := admission
      have hv : (victims.map duplicateVictimAnswer).map Prod.fst =
          victims.map (·.completion) := by
        simp [duplicateVictimAnswer]
      have hdr : Ledger.Step rules system.ledger _ :=
        .round (.drop hac hd hv)
      refine .head hdr ?_
      cases error with
      | some response => exact .single (.settle _ rootId response)
      | none =>
        have hset := SchedulerState.actors_setActor_self system.scheduler rootId actor'
        exact .single (.queue hset (actor'.queues_pushJob _ (hl rfl)) rfl rfl)

end

theorem apply_steps {label : Label} (hal : rules.Allows system label) :
    Ledger.Steps rules system.ledger (system.apply label).ledger := by
  cases label with
  | registerActor rootId => exact registerActor_steps rootId
  | removeActor rootId => exact removeActor_steps hal
  | retireIdleActor rootId publishing => exact retireIdleActor_steps hal
  | submit rootId submission env => exact submit_steps rootId submission env
  | cancelQueuedMaintenance rootId => exact cancelQueuedMaintenance_steps rootId
  | cancelQueuedRootMaintenance rootId => exact cancelQueuedRootMaintenance_steps rootId
  | cancelRootMaintenance rootId => exact cancelRootMaintenance_steps rootId
  | requestCancel token => exact .refl
  | cancelJob rootId token => exact settleQueued_steps (system.requestCancel token) rootId token
  | cancelJobBeforeExecution rootId token => exact cancelJobBeforeExecution_steps rootId token
  | dispatch env => exact (dispatchRunnable_steps hal _ _ _ _ _ _).lift id fun _ _ => .round
  | complete jobId => exact complete_steps jobId
  | start jobId => exact start_steps jobId
  | sealCommitted jobId => exact sealCommitted_steps jobId
  | refuse jobId => exact refuse_steps jobId
  | finish jobId response => exact finish_steps jobId response
  | panic jobId message => exact panic_steps jobId message
  | handBack jobId now cancelled => exact handBack_steps jobId now cancelled

theorem Reaches.steps {start system : System} (h : Reaches rules start system) :
    Ledger.Steps rules start.ledger system.ledger := by
  induction h with
  | refl => exact .refl
  | step label _ hal ih => exact ih.trans (apply_steps hal)

end System

end Aft.Executor
