import Aft.Executor.Mirror

/-!
# Job ids that come back

A job id is a `u64` that wraps around. A read that is never finished keeps the id 1, while call-ledger
jobs use up all other ids one after the other; the launch that takes the id 1 again then overwrites the
entry of the read (`exists_collision`).
-/

namespace Aft.Executor.Wraparound

open Function Round ClassQueues

def config : EffectiveConfig := ExecutorConfig.effective ⟨2, 1, 1, 1, 1⟩

/-- The jobs that are submitted: a read, and call-ledger jobs. -/
def queuedJob (requestId command : String) (ticket : Ticket) : QueuedJob where
  job := ticket
  completion := ticket
  requestId := requestId
  command := command
  queuedAt := 0
  cancellation := none
  maintenanceCoalesceKey := none
  rerun := false
  forceExclusive := false
  notBefore := none
  exclusiveAttempts := 0
  providerGeneration := none

def readJob : RunningJob :=
  { (queuedJob "1" "read" 0).admitted "r" .interactive .pureRead 0 false with
    startedAt := 0, phase := .dispatched }

def ledgerJob (ticket : Ticket) : RunningJob :=
  { (queuedJob "2" "record" ticket).admitted "r" .interactive .callLedger 0 false with
    startedAt := 0, phase := .dispatched }

/-- The actor while the read runs, and maybe a call-ledger job. -/
def actor (recording : Bool) (interactive : ClassQueues) : ActorState where
  epoch := 0
  readInflight := 1
  lspInflight := false
  actorTotalInflight := 1 + recording.toNat
  writerInflight := false
  sharedBindInflight := false
  maintenanceCommitInflight := false
  callgraphAcquisitionInflight := false
  providerInflight := false
  callLedgerInflight := recording
  mutatingInflight := none
  readerAdmissionsWhilePromotedWriterWaited := 0
  deficit := 0
  interactive := interactive
  maintenance := .new
  fatal := false

/-- The scheduler while the read runs. -/
def reading (nextJobId : ℕ) (interactive : ClassQueues) : SchedulerState :=
  { SchedulerState.new config with
    actors := update (fun _ => none) "r" (some (actor false interactive))
    actorOrder := ["r"]
    idleWorkers := 5
    interactiveInflight := 1
    runningJobs := AList.singleton 1 readJob
    nextJobId }

/-- The scheduler after it launched a call-ledger job. -/
def recording (jobId : ℕ) (job : RunningJob) (interactive : ClassQueues) : SchedulerState :=
  { SchedulerState.new config with
    actors := update (fun _ => none) "r" (some (actor true interactive))
    actorOrder := ["r"]
    idleWorkers := 4
    interactiveInflight := 2
    runningJobs := (AList.singleton 1 readJob).insert jobId job
    nextJobId := SchedulerState.idAfter jobId }

def roundEnv : RoundEnv := ⟨fun _ => ⟨0, 0, 0, 0, 0⟩, fun _ => ["r"], fun _ => true⟩

/-! ## A dispatch round -/

theorem dispatchQueuedBinds_quiet {round : Round} (actor : ActorState)
    (hac : round.state.actors "r" = some actor) (hq : actor.interactive.queue .mutating = []) :
    dispatchQueuedBinds roundEnv ["r"] round = round := by
  have hc : round.bindCandidates ["r"] = [] := by
    simp [bindCandidates, hac, oldestQueuedBindAt, hq]
  rw [dispatchQueuedBinds, hc, bindTurns]

theorem dispatchProviderMetadata_quiet {round : Round} (actor : ActorState)
    (ho : round.state.actorOrder = ["r"]) (hc : round.state.cursor = 0)
    (hac : round.state.actors "r" = some actor) (hf : actor.fatal = false)
    (hq : actor.interactive.queue .providerMetadata = []) (hs : round.stops = false)
    (hr : round.state.providerInflight < round.state.config.providerReserve) :
    round.andThen (dispatchProviderMetadata roundEnv) =
      { round with attempts := round.attempts + 1 } := by
  have hsa : round.state.setActor "r" actor = round.state := by
    rw [SchedulerState.setActor, ← hac, update_eq_self]
  obtain ⟨⟨actors, order, cursor, idle, interactive, maintenance, provider, binds, config, jobs, next,
    retry⟩, heavy, answers, launched, attempts, progress, failed⟩ := round
  obtain rfl : order = ["r"] := ho
  obtain rfl : cursor = 0 := hc
  simp only [stops, Bool.or_eq_false_iff, beq_eq_false_iff_ne] at hs
  obtain ⟨rfl, hid⟩ := hs
  have hac : actors "r" = some actor := hac
  simp [andThen, stops, hid, dispatchProviderMetadata, providerTurns,
    Nat.not_le.2 hr, visitPass, nextRootMod, hac, hf, admitActor,
    tryAdmitActor, admissionLane, hq, hsa]

theorem popFrontJob_pushJob (lane : Lane) (job : QueuedJob) :
    (new.pushJob lane job).popFrontJob lane = (some job, new) := by
  simp [popFrontJob, pushJob, setQueue, new]

def recordQueues (ticket : Ticket) : ClassQueues :=
  ClassQueues.new.pushJob .callLedger (queuedJob "2" "record" ticket)

variable (jobId : ℕ) (ticket : Ticket) (answers : List (Ticket × Response))
  (launched : List Ticket)

theorem turn_reading (progress : Bool) :
    turn roundEnv 0
        ⟨reading jobId (recordQueues ticket), 1, answers, launched, 0, progress, false⟩ =
      ⟨recording jobId (ledgerJob ticket) .new, 1, answers, launched ++ [ticket], 2, true, false⟩ := by
  unfold turn
  dsimp only
  rw [show roundEnv.keys 0 = ["r"] from rfl,
    dispatchQueuedBinds_quiet (actor false (recordQueues ticket)) rfl rfl,
    dispatchProviderMetadata_quiet (actor false (recordQueues ticket)) rfl rfl rfl rfl rfl rfl
      Nat.zero_lt_two]
  have hl : andThen
      ⟨reading jobId (recordQueues ticket), 1, answers, launched, 1, false, false⟩
      (dispatchCallLedger roundEnv) =
    ⟨{ recording jobId (ledgerJob ticket) ((recordQueues ticket).popFrontJob .callLedger).2 with
        actors := update (reading jobId (recordQueues ticket)).actors "r"
          (some (actor true ((recordQueues ticket).popFrontJob .callLedger).2)) },
      1, answers, launched ++ [ticket], 2, true, false⟩ := by with_unfolding_all rfl
  have hac (queues : ClassQueues) :
      update (reading jobId (recordQueues ticket)).actors "r" (some (actor true queues)) =
        (recording jobId (ledgerJob ticket) queues).actors := update_idem _ _ _
  rw [hl, hac, recordQueues, popFrontJob_pushJob]
  rfl

theorem turn_recording (progress : Bool) :
    turn roundEnv 1
        ⟨recording jobId (ledgerJob ticket) .new, 1, answers, launched, 2, progress, false⟩ =
      ⟨recording jobId (ledgerJob ticket) .new, 1, answers, launched, 3, false, false⟩ := by
  unfold turn
  dsimp only
  rw [show roundEnv.keys 1 = ["r"] from rfl, dispatchQueuedBinds_quiet (actor true .new) rfl rfl,
    dispatchProviderMetadata_quiet (actor true .new) rfl rfl rfl rfl rfl rfl Nat.zero_lt_two]
  rfl

theorem dispatchRunnable_reading :
    dispatchRunnable roundEnv (reading jobId (recordQueues ticket)) 1 answers launched =
      ⟨recording jobId (ledgerJob ticket) .new, 1, answers, launched ++ [ticket], 3, false, false⟩ := by
  unfold dispatchRunnable
  rw [show (reading jobId (recordQueues ticket)).idleWorkers = 4 + 1 from rfl, turns,
    if_neg (by simp [reading]), turn_reading]
  rw [if_neg (by simp [stops, recording]), turns, turn_recording]
  rfl

/-! ## One call-ledger job -/

def submitEnv : SubmitEnv := ⟨0, none, false, true⟩

def recordSubmission : Submission := ⟨.interactive, .callLedger, "2", "record", none, none, false⟩

/-- The executor while only the read runs. -/
def IsReading (nextJobId : ℕ) (system : System) : Prop :=
  system.scheduler = reading nextJobId .new ∧ system.heavy = 1

variable {jobId ticket} {system : System}

theorem submit_eq (h : system.scheduler = reading jobId .new) :
    (system.submit "r" recordSubmission submitEnv).scheduler =
        reading jobId (recordQueues system.submitted.length) ∧
      (system.submit "r" recordSubmission submitEnv).heavy = system.heavy := by
  obtain ⟨scheduler, heavy, tokens, nextToken, nextEpoch, submitted, answers, invoked, launched⟩ :=
    system
  obtain rfl : scheduler = reading jobId .new := h
  have hs : (System.submit ⟨reading jobId .new, heavy, tokens, nextToken, nextEpoch, submitted,
      answers, invoked, launched⟩ "r" recordSubmission submitEnv).scheduler =
    { reading jobId .new with
      actors := update (update (reading jobId .new).actors "r"
        (some (actor false .new))) "r" (some (actor false (recordQueues submitted.length))) } := by
    with_unfolding_all rfl
  refine ⟨?_, by with_unfolding_all rfl⟩
  rw [hs, update_idem, reading, update_idem]
  rfl

theorem dispatch_eq (h : system.scheduler = reading jobId (recordQueues ticket))
    (hh : system.heavy = 1) :
    (system.dispatch roundEnv).scheduler = recording jobId (ledgerJob ticket) .new ∧
      (system.dispatch roundEnv).heavy = 1 := by
  unfold System.dispatch
  rw [h, hh, dispatchRunnable_reading]
  exact ⟨rfl, rfl⟩

theorem lookup_recording (job : RunningJob) (interactive : ClassQueues) :
    (recording jobId job interactive).runningJobs.lookup jobId = some job :=
  AList.lookup_insert _

/-- A worker's step on the call-ledger job. -/
theorem scheduler_setRunning {job : RunningJob} (h : system.scheduler = recording jobId job .new)
    (job' : RunningJob) : (system.setRunning jobId job').scheduler = recording jobId job' .new := by
  unfold System.setRunning
  rw [h]
  unfold recording
  rw [AList.replace_insert]

theorem start_eq (h : system.scheduler = recording jobId (ledgerJob ticket) .new) :
    (system.start jobId).scheduler =
        recording jobId { ledgerJob ticket with phase := .started } .new ∧
      (system.start jobId).heavy = system.heavy := by
  have hs : system.start jobId =
      { system.setRunning jobId { ledgerJob ticket with phase := .started } with
        invoked := system.invoked ++ [ticket] } := by
    unfold System.start System.work
    rw [h, lookup_recording]
    rfl
  rw [hs]
  exact ⟨scheduler_setRunning h _, rfl⟩

/-- The call-ledger job when its completion event waits. -/
def endedJob (ticket : Ticket) : RunningJob :=
  { ledgerJob ticket with completion := none, phase := .ended .completed none }

theorem finish_eq (h : system.scheduler =
    recording jobId { ledgerJob ticket with phase := .started } .new) (response : Response) :
    (system.finish jobId response).scheduler = recording jobId (endedJob ticket) .new ∧
      (system.finish jobId response).heavy = system.heavy := by
  have hf : system.finish jobId response = system.answer jobId
      { ledgerJob ticket with phase := .started } response .completed := by
    unfold System.finish System.work
    rw [h, lookup_recording]
    rfl
  rw [hf]
  exact ⟨scheduler_setRunning h _, rfl⟩

theorem complete_eq (hne : jobId ≠ 1)
    (h : system.scheduler = recording jobId (endedJob ticket) .new) :
    (system.complete jobId).scheduler = reading (SchedulerState.idAfter jobId) .new ∧
      (system.complete jobId).heavy = system.heavy := by
  have hc : (completeJob (recording jobId (endedJob ticket) .new) system.tokens jobId
      .completed none).1 =
    { recording jobId (endedJob ticket) .new with
      idleWorkers := 5
      interactiveInflight := 1
      runningJobs := ((AList.singleton 1 readJob).insert jobId (endedJob ticket)).erase jobId
      actors := update (recording jobId (endedJob ticket) .new).actors "r"
        (some (actor false .new)) } := by
    unfold completeJob
    rw [lookup_recording]
    with_unfolding_all rfl
  have hf : jobId ∉ (AList.singleton 1 readJob : AList fun _ : ℕ => RunningJob) := by
    simpa [AList.mem_keys] using hne
  unfold System.complete
  rw [h, lookup_recording]
  refine ⟨hc.trans ?_, rfl⟩
  rw [AList.erase_insert _ hf, recording, update_idem]
  rfl

/-! ## The run -/

abbrev Reached (system : System) : Prop := System.Reaches .idleRemoval (.new config) system

/-- A call-ledger job is launched with the next id. -/
theorem exists_recording (hr : Reached system) (h : IsReading jobId system) :
    ∃ ticket system', Reached system' ∧
      system'.scheduler = recording jobId (ledgerJob ticket) .new ∧ system'.heavy = 1 := by
  obtain ⟨hs, hh⟩ := submit_eq h.1
  obtain ⟨hd, hh⟩ := dispatch_eq hs (hh.trans h.2)
  refine ⟨_, _, ?_, hd, hh⟩
  exact .step (.dispatch roundEnv) (.step (.submit "r" recordSubmission submitEnv) hr trivial)
    fun _ => trivial

/-- A call-ledger job uses up an id. -/
theorem exists_next (hr : Reached system) (h : IsReading jobId system) (hne : jobId ≠ 1) :
    ∃ system', Reached system' ∧ IsReading (SchedulerState.idAfter jobId) system' := by
  obtain ⟨ticket, launched, hl, hs, hh⟩ := exists_recording hr h
  obtain ⟨hst, hsta⟩ := start_eq hs
  obtain ⟨hen, hf⟩ := finish_eq hst (.reply "")
  obtain ⟨hc, hco⟩ := complete_eq hne hen
  refine ⟨_, ?_, hc, hco.trans (hf.trans (hsta.trans hh))⟩
  exact .step (.complete jobId) (.step (.finish jobId (.reply ""))
    (.step (.start jobId) hl trivial) trivial) trivial

/-- The actor with the read in its queue. -/
def waitingActor : ActorState :=
  { ActorState.new 0 with
    interactive := ClassQueues.new.pushJob .pureRead (queuedJob "1" "read" 0) }

/-- The scheduler before its first dispatch round. -/
def waiting : SchedulerState :=
  { SchedulerState.new config with
    actors := update (fun _ => none) "r" (some waitingActor)
    actorOrder := ["r"] }

theorem turn_waiting :
    turn roundEnv 0 ⟨waiting, 1, [], [], 0, false, false⟩ =
      ⟨reading 2 .new, 1, [], [0], 3, true, false⟩ := by
  unfold turn
  dsimp only
  rw [show roundEnv.keys 0 = ["r"] from rfl, dispatchQueuedBinds_quiet waitingActor rfl rfl,
    dispatchProviderMetadata_quiet waitingActor rfl rfl rfl rfl rfl rfl Nat.zero_lt_two]
  have hl : andThen ⟨waiting, 1, [], [], 1, false, false⟩
      (dispatchCallLedger roundEnv) =
    ⟨{ waiting with actors := update waiting.actors "r" (some waitingActor) }, 1, [], [], 2,
      false, false⟩ := by with_unfolding_all rfl
  have hc : andThen ⟨waiting, 1, [], [], 2, false, false⟩
      (dispatchRunnableClass roundEnv .interactive) =
    ⟨{ reading 2 .new with
        actors := update waiting.actors "r"
          (some (actor false (waitingActor.interactive.popFrontJob .pureRead).2)) },
      1, [], [0], 3, true, false⟩ := by with_unfolding_all rfl
  have hac : update waiting.actors "r" (some waitingActor) = waiting.actors :=
    update_idem _ _ _
  have ha' : update waiting.actors "r" (some (actor false .new)) =
      (reading 2 .new).actors := update_idem _ _ _
  rw [hl, hac, hc, waitingActor, popFrontJob_pushJob, ha']
  rfl

theorem turn_idle :
    turn roundEnv 1 ⟨reading 2 .new, 1, [], [0], 3, true, false⟩ =
      ⟨reading 2 .new, 1, [], [0], 5, false, false⟩ := by
  unfold turn
  dsimp only
  rw [show roundEnv.keys 1 = ["r"] from rfl,
    dispatchQueuedBinds_quiet (actor false .new) rfl rfl,
    dispatchProviderMetadata_quiet (actor false .new) rfl rfl rfl rfl rfl rfl Nat.zero_lt_two]
  have hac : update (reading 2 .new).actors "r" (some (actor false .new)) =
      (reading 2 .new).actors := update_idem _ _ _
  have hl : andThen ⟨reading 2 .new, 1, [], [0], 4, false, false⟩
      (dispatchCallLedger roundEnv) =
    ⟨{ reading 2 .new with
        actors := update (reading 2 .new).actors "r" (some (actor false .new)) },
      1, [], [0], 5, false, false⟩ := by with_unfolding_all rfl
  have hc : andThen ⟨reading 2 .new, 1, [], [0], 5, false, false⟩
      (dispatchRunnableClass roundEnv .interactive) =
    ⟨{ reading 2 .new with
        actors := update (reading 2 .new).actors "r" (some (actor false .new)) },
      1, [], [0], 5, false, false⟩ := by with_unfolding_all rfl
  rw [hl, hac, hc, hac]
  rfl

theorem dispatchRunnable_waiting :
    dispatchRunnable roundEnv waiting 1 [] [] =
      ⟨reading 2 .new, 1, [], [0], 5, false, false⟩ := by
  unfold dispatchRunnable
  rw [show waiting.idleWorkers = 4 + 1 + 1 from rfl, turns, if_neg (by decide), turn_waiting]
  rw [if_neg (by simp [stops, reading]), turns, turn_idle]
  rfl

def readSubmission : Submission := ⟨.interactive, .pureRead, "1", "read", none, none, false⟩

def waitingSystem : System :=
  ((System.new config).registerActor "r").submit "r" readSubmission submitEnv

theorem scheduler_waitingSystem : waitingSystem.scheduler = waiting := by
  have hs : waitingSystem.scheduler =
      { waiting with
        actors := update (update (update (fun _ => none) "r"
          (some (.new 0))) "r" (some (.new 0))) "r" (some waitingActor) } := by
    with_unfolding_all rfl
  rw [hs, update_idem, update_idem]
  rfl

/-- The executor while the read runs with the id 1. -/
def readingSystem : System := waitingSystem.dispatch roundEnv

theorem reached_readingSystem : Reached readingSystem :=
  .step (.dispatch roundEnv) (.step (.submit "r" readSubmission submitEnv)
    (.step (.registerActor "r") .refl trivial) trivial) fun _ => trivial

theorem readingSystem_eq : IsReading 2 readingSystem ∧ readingSystem.launched = [0] := by
  have hh : waitingSystem.heavy = 1 := by with_unfolding_all rfl
  have han : waitingSystem.answers = [] := by with_unfolding_all rfl
  have hl : waitingSystem.launched = [] := by with_unfolding_all rfl
  unfold IsReading readingSystem System.dispatch
  rw [scheduler_waitingSystem, hh, han, hl, dispatchRunnable_waiting]
  exact ⟨⟨rfl, rfl⟩, rfl⟩

theorem exists_reading (jobId : ℕ) (hle : 2 ≤ jobId) (hlt : jobId < 2 ^ 64) :
    ∃ system, Reached system ∧ IsReading jobId system := by
  induction jobId, hle using Nat.le_induction with
  | base => exact ⟨readingSystem, reached_readingSystem, readingSystem_eq.1⟩
  | succ jobId hle ih =>
    obtain ⟨system, hr, hre⟩ := ih (by omega)
    obtain ⟨system', hr', hre'⟩ := exists_next hr hre (by omega)
    rw [idAfter_of_lt hlt] at hre'
    exact ⟨system', hr', hre'⟩

/-- After all other ids are used up, a call-ledger job takes the id of the read that still runs. -/
theorem exists_collision : ∃ ticket system, Reached system ∧
    system.scheduler = recording 1 (ledgerJob ticket) .new := by
  obtain ⟨system, hr, hre⟩ := exists_reading (2 ^ 64 - 1) (by norm_num) (by norm_num)
  obtain ⟨system', hr', hre'⟩ := exists_next hr hre (by norm_num)
  obtain ⟨ticket, system'', hr'', hs, -⟩ := exists_recording hr' hre'
  exact ⟨ticket, system'', hr'', hs⟩

end Aft.Executor.Wraparound
