import Aft.Executor.Admission
import Aft.Executor.System

/-!
# Steps of the executor

Every label of the executor is a sequence of small steps on the scheduler and on the record of what
was submitted, answered, launched and invoked. Here are the steps, and those of a dispatch round
(`dispatchRunnable_steps`): the cursor moves, an actor drops queued jobs, or a pass whose guard
holds launches an admitted job.
-/

namespace Aft.Executor

/-- What a pass checks before it asks an actor for a job. -/
def AdmissionPass.Guard (state : SchedulerState) : AdmissionPass → Prop
  | .bind => state.config.providerReserve - state.providerInflight < state.idleWorkers
  | .providerMetadata =>
    0 < state.idleWorkers ∧ state.providerInflight < state.config.providerReserve
  | .callLedger => state.canDispatchClass .interactive = true
  | .ofClass jobClass => state.canDispatchClass jobClass = true

/-- A launched job as its worker gets it, or as the closed channel drops it. -/
def RunJob.sent (runJob : RunJob) (channelOpen : Bool) : RunJob :=
  if channelOpen then runJob else { runJob with completion := none }

def Phase.launched (channelOpen : Bool) : Phase :=
  if channelOpen then .dispatched else .ended .abandoned none

/-- A step of a job's worker: the entry after it, the responses sent and the closures invoked. -/
inductive RunningJob.Advance (job : RunningJob) :
    RunningJob → List (Ticket × Response) → List Ticket → Prop
  | start (hphase : job.phase = .dispatched) :
      Advance job { job with phase := .started } [] [job.job]
  | answer (response : Response) (outcome : JobCompletionOutcome)
      (hphase : job.phase = .dispatched ∨ job.phase = .started) :
      Advance job { job with completion := none, phase := .ended outcome none }
        (job.completion.toList.map (·, response)) []
  | handBack (now : Instant) (hphase : job.phase = .dispatched ∨ job.phase = .started) :
      Advance job
        { job with
          completion := none
          phase := .ended .completed
            (job.completion.map fun ticket => System.requeuedJob job ticket now) } [] []

structure ActorState.Queues (actor actor' : ActorState) (job : QueuedJob) : Prop where
  epoch : actor'.epoch = actor.epoch
  inflight : actor'.inflight = actor.inflight
  runningWriter : actor'.runningWriter = actor.runningWriter
  jobs : actor'.jobs.Perm (job :: actor.jobs)
  order : ∀ lane ∈ actor'.maintenance.order,
    lane ∈ actor.maintenance.order ∨ lane ≠ .providerMetadata ∧ lane ≠ .callLedger

/-- The scheduler, and what was submitted, answered, launched and invoked. -/
structure Ledger where
  state : SchedulerState
  submitted : List ProjectRootId
  answers : List (Ticket × Response)
  launched : List Ticket
  invoked : List Ticket

inductive Ledger.RoundStep (rules : Rules) : Ledger → Ledger → Prop
  | move (ledger : Ledger) (cursor : ℕ) (actorOrder : List ProjectRootId) :
      RoundStep rules ledger { ledger with state := { ledger.state with cursor, actorOrder } }
  | drop {ledger rootId actor actor' dropped answers}
      (hactor : ledger.state.actors rootId = some actor) (hdrops : actor.Drops actor' dropped)
      (hanswers : answers.map Prod.fst = dropped.map (·.completion)) :
      RoundStep rules ledger { ledger with
        state := ledger.state.setActor rootId actor'
        answers := ledger.answers ++ answers }
  | launch {ledger rootId actor actor' pass queued runJob channelOpen} (now : Instant)
      (hactor : ledger.state.actors rootId = some actor) (hguard : pass.Guard ledger.state)
      (hadmission : Admission rootId actor pass ledger.state.config actor' queued runJob)
      (hchannel : rules.channel channelOpen) :
      RoundStep rules ledger { ledger with
        state := (ledger.state.setActor rootId actor').launchRunJob (runJob.sent channelOpen) now
          (.launched channelOpen)
        launched := ledger.launched ++ [runJob.job] }

inductive Ledger.Step (rules : Rules) : Ledger → Ledger → Prop
  | round {ledger ledger'} (h : RoundStep rules ledger ledger') : Step rules ledger ledger'
  | register {ledger rootId} (epoch : Epoch) (hactor : ledger.state.actors rootId = none) :
      Step rules ledger { ledger with state := ledger.state.setActor rootId (.new epoch) }
  | remove {ledger rootId actor} (hactor : ledger.state.actors rootId = some actor)
      (hremoves : rules.removes actor) :
      Step rules ledger { ledger with
        state := { ledger.state with actors := Function.update ledger.state.actors rootId none } }
  | settle (ledger : Ledger) (rootId : ProjectRootId) (response : Response) :
      Step rules ledger { ledger with
        submitted := ledger.submitted ++ [rootId]
        answers := ledger.answers ++ [(ledger.submitted.length, response)] }
  | queue {ledger rootId actor actor' job} (hactor : ledger.state.actors rootId = some actor)
      (hqueues : actor.Queues actor' job) (hjob : job.job = ledger.submitted.length)
      (hcompletion : job.completion = ledger.submitted.length) :
      Step rules ledger { ledger with
        state := ledger.state.setActor rootId actor'
        submitted := ledger.submitted ++ [rootId] }
  | advance {ledger jobId job job' answers invoked}
      (hlookup : ledger.state.runningJobs.lookup jobId = some job)
      (hadvance : job.Advance job' answers invoked) :
      Step rules ledger { ledger with
        state := { ledger.state with runningJobs := ledger.state.runningJobs.replace jobId job' }
        answers := ledger.answers ++ answers
        invoked := ledger.invoked ++ invoked }
  | complete {ledger jobId job outcome requeue} (tokens : Token → TokenState)
      (hlookup : ledger.state.runningJobs.lookup jobId = some job)
      (hphase : job.phase = .ended outcome requeue) :
      Step rules ledger { ledger with
        state := (completeJob ledger.state tokens jobId outcome requeue).1
        answers := ledger.answers ++ (completeJob ledger.state tokens jobId outcome requeue).2 }

abbrev Ledger.RoundSteps (rules : Rules) : Ledger → Ledger → Prop :=
  Relation.ReflTransGen (Ledger.RoundStep rules)

abbrev Ledger.Steps (rules : Rules) : Ledger → Ledger → Prop :=
  Relation.ReflTransGen (Ledger.Step rules)

/-! ## Dispatch rounds -/

section

variable (state : SchedulerState) (rootId : ProjectRootId)

theorem SchedulerState.actors_setActor_self
    (actor : ActorState) : (state.setActor rootId actor).actors rootId = some actor :=
  Function.update_self _ _ _

end

variable {rootId : ProjectRootId}

theorem SchedulerState.update_actors_none {state : SchedulerState}
    (hac : state.actors rootId = none) :
    Function.update state.actors rootId none = state.actors := by
  rw [← hac, Function.update_eq_self]

theorem ActorState.answers_failQueuedJobs (actor : ActorState) :
    actor.failQueuedJobs.2.map Prod.fst = actor.jobs.map (·.completion) := by
  simp [failQueuedJobs, jobs, Function.comp_def]

variable {actor actor' : ActorState} {rules : Rules}

theorem Ledger.touch {ledger : Ledger} (hac : ledger.state.actors rootId = some actor)
    (hd : actor.Drops actor' []) :
    Ledger.RoundStep rules ledger { ledger with state := ledger.state.setActor rootId actor' } := by
  have hs : Ledger.RoundStep rules ledger { ledger with
      state := ledger.state.setActor rootId actor', answers := ledger.answers ++ [] } :=
    .drop hac hd rfl
  rwa [List.append_nil] at hs

namespace Round

/-- The record of the executor during a round, in which nothing is submitted or invoked. -/
def ledger (round : Round) (submitted : List ProjectRootId) (invoked : List Ticket) : Ledger :=
  ⟨round.state, submitted, round.answers, round.launched, invoked⟩

/-- A part of a round is a sequence of steps. -/
def Steps (rules : Rules) (round round' : Round) : Prop :=
  ∀ submitted invoked,
    Ledger.RoundSteps rules (round.ledger submitted invoked) (round'.ledger submitted invoked)

theorem Steps.refl (round : Round) : Steps rules round round :=
  fun _ _ => .refl

variable {round : Round}

theorem Steps.trans {round' round'' : Round} (h : Steps rules round round')
    (h' : Steps rules round' round'') : Steps rules round round'' :=
  fun submitted invoked => (h submitted invoked).trans (h' submitted invoked)

section

variable {rules : Rules} {env : RoundEnv}

theorem touch_steps (hac : round.state.actors rootId = some actor) (hd : actor.Drops actor' []) :
    Steps rules round { round with state := round.state.setActor rootId actor' } :=
  fun _ _ => .single (Ledger.touch hac hd)

theorem nextRoot_steps (round : Round) : Steps rules round round.nextRoot.2 :=
  fun _ _ => .single (.move _ _ round.state.actorOrder)

theorem nextRootMod_steps (round : Round) : Steps rules round round.nextRootMod.2 :=
  fun _ _ => .single (.move _ _ round.state.actorOrder)

variable (hchannel : ∀ attempt, rules.channel (env.channelOpen attempt))

include hchannel

variable {pass : AdmissionPass}

/-- An actor is asked for a job, after its deficit was set. -/
theorem admitActor_steps {deficit : ℤ} (newest : Option Instant)
    (hac : round.state.actors rootId = some actor) (hg : pass.Guard round.state) :
    Steps rules round (round.admitActor env rootId { actor with deficit } pass newest) := by
  have hr := tryAdmitActor_responds rootId { actor with deficit } pass round.state.config
    (0 < round.heavy) newest (env.clock round.attempts)
  intro submitted invoked
  unfold admitActor
  rcases htry : tryAdmitActor rootId { actor with deficit } pass round.state.config
    (0 < round.heavy) newest (env.clock round.attempts) with ⟨actor', _ | runJob⟩
  · rw [htry] at hr
    exact .single (Ledger.touch hac ((actor.drops_deficit deficit).trans hr))
  · rw [htry] at hr
    obtain ⟨queued, had⟩ := hr
    have ht : Ledger.RoundStep rules (round.ledger submitted invoked)
        { round.ledger submitted invoked with
          state := round.state.setActor rootId { actor with deficit } } :=
      Ledger.touch hac (actor.drops_deficit deficit)
    have hset := SchedulerState.actors_setActor_self round.state rootId { actor with deficit }
    have hl : Ledger.RoundStep rules { round.ledger submitted invoked with
          state := round.state.setActor rootId { actor with deficit } } _ :=
      .launch (env.clock round.attempts).launch hset (by cases pass <;> exact hg) had
        (hchannel round.attempts)
    simp only [SchedulerState.setActor, Function.update_idem] at hl
    exact .head ht (.single hl)

theorem visitClass_steps {jobClass : JobClass} (hg : round.state.canDispatchClass jobClass = true) :
    Steps rules round (round.visitClass env jobClass) := by
  refine (nextRoot_steps round).trans ?_
  unfold visitClass
  have hg' : round.nextRoot.2.state.canDispatchClass jobClass = true := hg
  generalize round.nextRoot = next at hg' ⊢
  obtain ⟨rootId, round'⟩ := next
  dsimp only at hg' ⊢
  cases hac : round'.state.actors rootId with
  | none => exact .refl _
  | some actor =>
    dsimp only
    split
    · have hd := actor.drops_failQueuedJobs.trans (actor.failQueuedJobs.1.drops_deficit 0)
      rw [List.append_nil] at hd
      exact fun _ _ => .single (.drop hac hd actor.answers_failQueuedJobs)
    · split
      · exact touch_steps hac (actor.drops_deficit 0)
      · split
        · exact .refl _
        · split
          · exact touch_steps hac (actor.drops_deficit _)
          · exact admitActor_steps hchannel _ hac hg'

theorem classTurns_steps (jobClass : JobClass) (turns : ℕ) (round : Round) :
    Steps rules round (classTurns env jobClass turns round) := by
  induction turns generalizing round with
  | zero => exact .refl _
  | succ turns ih =>
    unfold classTurns
    split
    · exact .refl _
    · rename_i hgo
      simp only [not_or, Bool.not_eq_true, Bool.not_eq_false'] at hgo
      exact (visitClass_steps hchannel hgo.1).trans (ih _)

theorem bindTurns_steps (candidates : List ProjectRootId) (round : Round) :
    Steps rules round (bindTurns env candidates round) := by
  induction candidates generalizing round with
  | nil => exact .refl _
  | cons rootId rest ih =>
    unfold bindTurns
    split
    · exact .refl _
    · rename_i hgo
      rw [not_or, Nat.not_le] at hgo
      cases hac : round.state.actors rootId with
      | none => exact ih _
      | some actor =>
        have hg : AdmissionPass.bind.Guard round.state := hgo.2
        exact (admitActor_steps hchannel none hac hg).trans (ih _)

theorem visitPass_steps (hg : pass.Guard round.state) :
    Steps rules round (round.visitPass env pass) := by
  refine (nextRootMod_steps round).trans ?_
  unfold visitPass
  dsimp only
  cases hac : round.nextRootMod.2.state.actors round.nextRootMod.1 with
  | none => exact .refl _
  | some actor =>
    dsimp only
    split
    · exact .refl _
    · exact admitActor_steps hchannel none hac (by cases pass <;> exact hg)

theorem providerTurns_steps (turns : ℕ) (round : Round) :
    Steps rules round (providerTurns env turns round) := by
  induction turns generalizing round with
  | zero => exact .refl _
  | succ turns ih =>
    unfold providerTurns
    split
    · exact .refl _
    · rename_i hgo
      rw [not_or, not_or, Nat.not_le] at hgo
      have hg : AdmissionPass.providerMetadata.Guard round.state :=
        ⟨Nat.pos_of_ne_zero hgo.2.1, hgo.2.2⟩
      exact (visitPass_steps hchannel hg).trans (ih _)

theorem callLedgerTurns_steps (turns : ℕ) (round : Round) :
    Steps rules round (callLedgerTurns env turns round) := by
  induction turns generalizing round with
  | zero => exact .refl _
  | succ turns ih =>
    unfold callLedgerTurns
    split
    · exact .refl _
    · rename_i hgo
      simp only [not_or, Bool.not_eq_true, Bool.not_eq_false'] at hgo
      have hg : AdmissionPass.callLedger.Guard round.state := hgo.2
      exact (visitPass_steps hchannel hg).trans (ih _)

omit hchannel in
theorem andThen_steps {pass : Round → Round} (h : ∀ round, Steps rules round (pass round))
    (round : Round) : Steps rules round (round.andThen pass) := by
  unfold andThen
  split
  · exact .refl _
  · exact h round

theorem turn_steps (index : ℕ) (round : Round) : Steps rules round (turn env index round) := by
  have hb : Steps rules round
      (dispatchQueuedBinds env (env.keys index) { round with madeProgress := false }) :=
    bindTurns_steps hchannel _ { round with madeProgress := false }
  have hp (round) : Steps rules round (dispatchProviderMetadata env round) :=
    providerTurns_steps hchannel _ _
  have hl (round) : Steps rules round (dispatchCallLedger env round) :=
    callLedgerTurns_steps hchannel _ _
  have hc (jobClass) (round) : Steps rules round (dispatchRunnableClass env jobClass round) :=
    classTurns_steps hchannel _ _ _
  have hm (round : Round) : Steps rules round (if round.state.canDispatchClass .maintenance then
        dispatchRunnableClass env .maintenance round else round) := by
    split
    · exact hc .maintenance round
    · exact .refl _
  exact hb.trans <| (andThen_steps hp _).trans <| (andThen_steps hl _).trans <|
    (andThen_steps (hc .interactive) _).trans (andThen_steps hm _)

theorem turns_steps (fuel index : ℕ) (round : Round) :
    Steps rules round (turns env fuel index round) := by
  induction fuel generalizing index round with
  | zero => exact .refl _
  | succ fuel ih =>
    unfold turns
    split
    · exact .refl _
    · dsimp only
      split
      · exact turn_steps hchannel index round
      · exact (turn_steps hchannel index round).trans (ih _ _)

end

end Round

theorem dispatchRunnable_steps {env : RoundEnv}
    (hchannel : ∀ attempt, rules.channel (env.channelOpen attempt)) (state : SchedulerState)
    (heavy : ℕ) (answers : List (Ticket × Response)) (launched : List Ticket)
    (submitted : List ProjectRootId) (invoked : List Ticket) :
    Ledger.RoundSteps rules ⟨state, submitted, answers, launched, invoked⟩
      ((dispatchRunnable env state heavy answers launched).ledger submitted invoked) :=
  Round.turns_steps hchannel _ _ ⟨state, heavy, answers, launched, 0, false, false⟩ _ _

end Aft.Executor
