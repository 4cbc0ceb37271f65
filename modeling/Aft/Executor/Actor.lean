import Aft.Executor.Jobs

/-!
# Actors

The queues of one root, the counters and flags of its running jobs, and the admission of one of its
queued jobs (`tryAdmitActor`). The seven queues of a class are one function of the lane. Every
operation on them takes jobs out or puts a job in, and loses none: the jobs before it are, up to
their order, the jobs taken out and the jobs after it.
-/

namespace Aft.Executor

/-! ## The queues of a class -/

structure ClassQueues where
  order : List Lane
  queue : Lane → List QueuedJob

/-- The entries of a lane's order without the `k`-th entry of one lane. -/
def eraseOccurrence (lane : Lane) : ℕ → List Lane → List Lane
  | _, [] => []
  | k, entry :: rest =>
    if entry = lane then
      match k with
      | 0 => rest
      | k + 1 => entry :: eraseOccurrence lane k rest
    else entry :: eraseOccurrence lane k rest

namespace ClassQueues

def new : ClassQueues := ⟨[], fun _ => []⟩

variable (queues : ClassQueues)

def setQueue (lane : Lane) (jobs : List QueuedJob) : ClassQueues :=
  { queues with queue := Function.update queues.queue lane jobs }

def pushJob (lane : Lane) (job : QueuedJob) : ClassQueues :=
  { queues.setQueue lane (queues.queue lane ++ [job]) with order := queues.order ++ [lane] }

def pushFrontJob (lane : Lane) (job : QueuedJob) : ClassQueues :=
  { queues.setQueue lane (job :: queues.queue lane) with order := lane :: queues.order }

def firstBindJob : Option QueuedJob :=
  (queues.queue .mutating).find? fun job => isConfigureRequest job.requestId

def hasQueuedJobs : Bool := !queues.order.isEmpty

def frontLane : Option Lane := queues.order.head?

def queuedCount : ℕ := queues.order.length

/-- Interactive order: a starved writer, then pure reads, then the other lanes as they arrived. -/
def nextInteractiveLane (now : Instant) (newestReaderStartedAt : Option Instant) : Option Lane :=
  let stuckReadersStartedBy := newestReaderStartedAt.filter fun started =>
    readerStuckCensusAge ≤ now - started
  let starvedWriter := (queues.queue .mutating).any fun job =>
    let promotionAge :=
      if isConfigureRequest job.requestId then bindPromotionAge else interactiveWriterPromotionAge
    let waitsOnlyOnStuckReaders := stuckReadersStartedBy.any (· ≤ job.queuedAt)
    decide (promotionAge ≤ now - job.queuedAt) && !waitsOnlyOnStuckReaders
  if starvedWriter then some .mutating
  else if !(queues.queue .pureRead).isEmpty then some .pureRead
  else queues.order.find? fun lane => lane ∉ [.pureRead, .providerMetadata, .callLedger]

/-- Take the first job of a lane, and the lane's first entry in the order. -/
def popFrontJob (lane : Lane) : Option QueuedJob × ClassQueues :=
  if lane ∈ queues.order then
    ((queues.queue lane).head?,
      { queues.setQueue lane (queues.queue lane).tail with order := queues.order.erase lane })
  else (none, queues)

def hasMaintenanceCoalesceKey (key : MaintenanceCoalesceKey) : Bool :=
  allLanes.any fun lane => (queues.queue lane).any fun job => job.maintenanceCoalesceKey = some key

/-- The positions of the redundant drains: in the order, their lane, and in the lane's queue. -/
def duplicatePositions (queues : ClassQueues) :
    List Lane → ℕ → (Lane → ℕ) → List MaintenanceCoalesceKey → List (ℕ × Lane × ℕ)
  | [], _, _, _ => []
  | lane :: rest, orderPosition, lanePositions, seen =>
    let queuePosition := lanePositions lane
    let lanePositions := Function.update lanePositions lane (queuePosition + 1)
    match (queues.queue lane)[queuePosition]?.bind (·.maintenanceCoalesceKey) with
    | none => queues.duplicatePositions rest (orderPosition + 1) lanePositions seen
    | some key =>
      if key ∈ seen then
        (orderPosition, lane, queuePosition) ::
          queues.duplicatePositions rest (orderPosition + 1) lanePositions seen
      else queues.duplicatePositions rest (orderPosition + 1) lanePositions (key :: seen)

def removeAt (orderPosition : ℕ) (lane : Lane) (queuePosition : ℕ) :
    Option QueuedJob × ClassQueues :=
  ((queues.queue lane)[queuePosition]?,
    { queues.setQueue lane ((queues.queue lane).eraseIdx queuePosition) with
      order := queues.order.eraseIdx orderPosition })

def removePositions : List (ℕ × Lane × ℕ) → ClassQueues → List QueuedJob × ClassQueues
  | [], queues => ([], queues)
  | (orderPosition, lane, queuePosition) :: rest, queues =>
    let (job, queues) := queues.removeAt orderPosition lane queuePosition
    let (removed, queues) := removePositions rest queues
    (job.toList ++ removed, queues)

def removeDuplicateMaintenanceJobs : List QueuedJob × ClassQueues :=
  removePositions (queues.duplicatePositions queues.order 0 (fun _ => 0) []).reverse queues

/-- The queued jobs, lane by lane. -/
def drained : List QueuedJob := allLanes.flatMap queues.queue

/-- Remove the job at a position of a lane's queue and its entry of the order. -/
def removeQueued (lane : Lane) (position : ℕ) : Option QueuedJob × ClassQueues :=
  ((queues.queue lane)[position]?,
    { queues.setQueue lane ((queues.queue lane).eraseIdx position) with
      order := eraseOccurrence lane position queues.order })

def removeFirstBindJob : Option QueuedJob × ClassQueues :=
  match (queues.queue .mutating).findIdx? fun job => isConfigureRequest job.requestId with
  | none => (none, queues)
  | some position => queues.removeQueued .mutating position

def removeCancellable (token : Token) : Option QueuedJob × ClassQueues :=
  match allLanes.findSome? fun lane =>
      ((queues.queue lane).findIdx? fun job => job.cancellation = some token).map (lane, ·) with
  | none => (none, queues)
  | some (lane, position) => queues.removeQueued lane position

def oldestQueuedBindAt : Option Instant :=
  (((queues.queue .mutating).filter fun job => isConfigureRequest job.requestId).map
    (·.queuedAt)).min?

end ClassQueues

/-! ## The state of an actor -/

structure RunningMutatingJob where
  requestId : String
  command : String
  startedAt : Instant
deriving DecidableEq, Repr

structure ActorState where
  epoch : Epoch
  readInflight : ℕ
  lspInflight : Bool
  actorTotalInflight : ℕ
  writerInflight : Bool
  /-- The running writer is a route bind with a shared hold on the epoch gate. -/
  sharedBindInflight : Bool
  maintenanceCommitInflight : Bool
  callgraphAcquisitionInflight : Bool
  providerInflight : Bool
  callLedgerInflight : Bool
  mutatingInflight : Option RunningMutatingJob
  readerAdmissionsWhilePromotedWriterWaited : ℕ
  deficit : ℤ
  interactive : ClassQueues
  maintenance : ClassQueues
  fatal : Bool

namespace ActorState

def new (epoch : Epoch) : ActorState where
  epoch := epoch
  readInflight := 0
  lspInflight := false
  actorTotalInflight := 0
  writerInflight := false
  sharedBindInflight := false
  maintenanceCommitInflight := false
  callgraphAcquisitionInflight := false
  providerInflight := false
  callLedgerInflight := false
  mutatingInflight := none
  readerAdmissionsWhilePromotedWriterWaited := 0
  deficit := 0
  interactive := .new
  maintenance := .new
  fatal := false

variable (actor : ActorState)

def classQueues : JobClass → ClassQueues
  | .interactive => actor.interactive
  | .maintenance => actor.maintenance

def setClassQueues (jobClass : JobClass) (queues : ClassQueues) : ActorState :=
  match jobClass with
  | .interactive => { actor with interactive := queues }
  | .maintenance => { actor with maintenance := queues }

def pushJob (actor : ActorState) (jobClass : JobClass) (lane : Lane) (job : QueuedJob) : ActorState :=
  actor.setClassQueues jobClass ((actor.classQueues jobClass).pushJob lane job)

def hasQueuedJobs (actor : ActorState) : Bool :=
  actor.interactive.hasQueuedJobs || actor.maintenance.hasQueuedJobs

/-- Whether nothing of the actor is queued or running, given whether a detached publication runs. -/
def isIdle (publishing : Bool) : Bool :=
  actor.actorTotalInflight == 0 && !actor.hasQueuedJobs && !publishing

def hasQueuedJobsFor : JobClass → Bool
  | .interactive => actor.interactive.order.any fun lane => lane ∉ [.providerMetadata, .callLedger]
  | .maintenance => actor.maintenance.hasQueuedJobs

/-- Maintenance waits while interactive mutating work is queued. -/
def higherPriorityWriterBarrierBlocks (jobClass : JobClass) : Bool :=
  jobClass == .maintenance && !(actor.interactive.queue .mutating).isEmpty

def failQueuedJobs : ActorState × List (Ticket × Response) :=
  ({ actor with interactive := .new, maintenance := .new },
    (actor.interactive.drained ++ actor.maintenance.drained).map fun job =>
      (job.completion, actorFatalResponse job.requestId))

def cancelQueuedJobs : ActorState × List (Ticket × Response) :=
  ({ actor with maintenance := .new },
    actor.maintenance.drained.map fun job => (job.completion, .error job.requestId
      "maintenance_cancelled" "maintenance cancelled because the actor has no bound routes"))

def cancelQueuedProviderJobs : ActorState × List (Ticket × Response) :=
  let queues := actor.interactive
  ({ actor with interactive :=
      { queues.setQueue .providerMetadata [] with order := queues.order.filter (· ≠ .providerMetadata) } },
    (queues.queue .providerMetadata).map fun job => (job.completion, .error job.requestId
      "request_cancelled" "provider metadata root has no bound routes"))

def removeQueuedCancellable (token : Token) : Option QueuedJob × ActorState :=
  match actor.interactive.removeCancellable token with
  | (some job, queues) => (some job, { actor with interactive := queues })
  | (none, _) =>
    let (job, queues) := actor.maintenance.removeCancellable token
    (job, { actor with maintenance := queues })

def oldestQueuedWriterAt : Option Instant :=
  (((actor.interactive.queue .mutating).head?.toList ++
    (actor.maintenance.queue .mutating).head?.toList).map (·.queuedAt)).min?

end ActorState

/-! ## Admission -/

/-- Which dispatch pass asks an actor for a job. -/
inductive AdmissionPass where
  | bind
  | providerMetadata
  | callLedger
  | ofClass (jobClass : JobClass)
deriving DecidableEq, Repr

/-- The readings of the clock during one admission and launch, in the order of the source. -/
structure Readings where
  lane : Instant
  retry : Instant
  promotion : Instant
  mutating : Instant
  launch : Instant

def AdmissionPass.jobClass : AdmissionPass → JobClass
  | .ofClass jobClass => jobClass
  | _ => .interactive

/-- The lane that a pass takes its job from. -/
def admissionLane (actor : ActorState) (pass : AdmissionPass) (now : Instant)
    (newestReaderStartedAt : Option Instant) : Option Lane :=
  match pass with
  | .providerMetadata =>
    (actor.interactive.queue .providerMetadata).head?.map fun _ => .providerMetadata
  | .callLedger => (actor.interactive.queue .callLedger).head?.map fun _ => .callLedger
  | .bind => actor.interactive.oldestQueuedBindAt.map fun _ => .mutating
  | .ofClass .interactive => actor.interactive.nextInteractiveLane now newestReaderStartedAt
  | .ofClass .maintenance => actor.maintenance.frontLane

namespace ActorState

section

variable (actor : ActorState)

/-- The job that a writer's admission would take. -/
def mutatingHead (pass : AdmissionPass) : Option QueuedJob :=
  if pass = .bind then actor.interactive.firstBindJob
  else ((actor.classQueues pass.jobClass).queue .mutating).head?

def blocksLane (jobClass : JobClass) (lane : Lane) : Bool :=
  let sharedBindAdmitsLane :=
    actor.sharedBindInflight && decide (lane ∈ [.pureRead, .serialLspStatus, .heavyInit])
  decide (lane ∉ [.providerMetadata, .callLedger]) &&
    (actor.writerInflight && !sharedBindAdmitsLane || actor.higherPriorityWriterBarrierBlocks jobClass)

def hasEpochReader : Bool :=
  decide (0 < actor.readInflight) || actor.lspInflight || actor.maintenanceCommitInflight

/-- A repeatable bind that was not sent back may start with a shared hold. -/
def bindMayShare (pass : AdmissionPass) : Bool :=
  pass == .bind && actor.interactive.firstBindJob.any fun job => job.rerun && !job.forceExclusive

def interactiveInflight : ℕ :=
  actor.actorTotalInflight - actor.maintenanceCommitInflight.toNat -
    actor.callgraphAcquisitionInflight.toNat - actor.providerInflight.toNat -
    actor.callLedgerInflight.toNat

def frontIsCallgraphAcquisition (jobClass : JobClass) (lane : Lane) : Bool :=
  ((actor.classQueues jobClass).queue lane).head?.any fun job =>
    isCallgraphAcquisition jobClass lane job.requestId

def runnable (pass : AdmissionPass) (lane : Lane) (config : EffectiveConfig)
    (heavyAvailable : Bool) : Bool :=
  let hasInteractiveCapacity := decide (actor.interactiveInflight < config.actorCap)
  match lane with
  | .pureRead => decide (actor.readInflight < config.readCap) && hasInteractiveCapacity
  | .serialLspStatus => !actor.lspInflight && hasInteractiveCapacity
  | .heavyInit =>
    (if actor.frontIsCallgraphAcquisition pass.jobClass lane then
      !actor.callgraphAcquisitionInflight else hasInteractiveCapacity) && heavyAvailable
  | .mutating =>
    actor.bindMayShare pass ||
      !actor.hasEpochReader && (pass == .bind || hasInteractiveCapacity)
  | .maintenanceCommit => !actor.maintenanceCommitInflight
  | .providerMetadata => !actor.providerInflight
  | .callLedger => !actor.callLedgerInflight

/-- Count a reader that is admitted while a writer has waited for long. -/
def noteReaderAdmission (lane : Lane) (now : Instant) : ActorState :=
  if actor.oldestQueuedWriterAt.any (fun queuedAt => interactiveWriterPromotionAge ≤ now - queuedAt) ∧
      lane ∈ [.pureRead, .serialLspStatus] then
    { actor with
      readerAdmissionsWhilePromotedWriterWaited :=
        min (actor.readerAdmissionsWhilePromotedWriterWaited + 1) (2 ^ 64 - 1) }
  else actor

/-- Take the job of a pass from its queue. -/
def popAdmitted (pass : AdmissionPass) (lane : Lane) : Option QueuedJob × ActorState :=
  let (job, queues) :=
    if pass = .bind then actor.interactive.removeFirstBindJob
    else (actor.classQueues pass.jobClass).popFrontJob lane
  (job, actor.setClassQueues pass.jobClass queues)

/-- The counters and flags with one more job of a lane in flight. -/
def countAdmitted (lane : Lane) (callgraphAcquisition sharedBindGate : Bool) : ActorState :=
  let actor := { actor with actorTotalInflight := actor.actorTotalInflight + 1 }
  match lane with
  | .pureRead => { actor with readInflight := actor.readInflight + 1 }
  | .serialLspStatus => { actor with lspInflight := true }
  | .heavyInit =>
    if callgraphAcquisition then { actor with callgraphAcquisitionInflight := true } else actor
  | .mutating => { actor with writerInflight := true, sharedBindInflight := sharedBindGate }
  | .maintenanceCommit => { actor with maintenanceCommitInflight := true }
  | .providerMetadata => { actor with providerInflight := true }
  | .callLedger => { actor with callLedgerInflight := true }

end

end ActorState

/-- What becomes of an actor when a pass asks it for a job, and the job. -/
def tryAdmitActor (rootId : ProjectRootId) (actor : ActorState) (pass : AdmissionPass)
    (config : EffectiveConfig) (heavyAvailable : Bool) (newestReaderStartedAt : Option Instant)
    (now : Readings) : ActorState × Option RunJob :=
  match admissionLane actor pass now.lane newestReaderStartedAt with
  | none => (actor, none)
  | some lane =>
    let backsOff := lane = .mutating ∧
      ((actor.mutatingHead pass).bind (·.notBefore)).any (fun notBefore => now.retry < notBefore)
    if actor.blocksLane pass.jobClass lane ∨ backsOff ∨
        !actor.runnable pass lane config heavyAvailable then (actor, none)
    else
      let callgraphAcquisition := actor.frontIsCallgraphAcquisition pass.jobClass lane
      let sharedBindGate := actor.bindMayShare pass && actor.hasEpochReader
      match (actor.noteReaderAdmission lane now.promotion).popAdmitted pass lane with
      | (none, actor) => (actor, none)
      | (some queued, actor) =>
        let deficit := match pass with
          | .ofClass _ => actor.deficit - jobCost
          | _ => actor.deficit
        let mutatingInflight := if lane = .mutating then
          some ⟨queued.requestId, queued.command, now.mutating⟩ else actor.mutatingInflight
        (({ actor with deficit, mutatingInflight }).countAdmitted lane callgraphAcquisition
            sharedBindGate,
          some
            { rootId, lane, sharedBindGate
              jobClass := pass.jobClass
              epoch := actor.epoch
              job := queued.job
              completion := some queued.completion
              requestId := queued.requestId
              command := queued.command
              heavyPermit := lane == .heavyInit
              cancellation := queued.cancellation
              rerun := queued.rerun
              queuedAt := queued.queuedAt
              exclusiveAttempts := queued.exclusiveAttempts
              providerGeneration := queued.providerGeneration })

/-! ## The jobs of a queue -/

open List

theorem mem_allLanes (lane : Lane) : lane ∈ allLanes := by cases lane <;> decide

theorem allLanes_nodup : allLanes.Nodup := by decide

theorem eraseOccurrence_subset (lane : Lane) (k : ℕ) (order : List Lane) :
    eraseOccurrence lane k order ⊆ order := by
  induction order generalizing k with
  | nil => exact List.Subset.refl _
  | cons entry rest ih =>
    cases k with
    | zero =>
      simp only [eraseOccurrence]
      split_ifs
      · exact subset_cons_self _ _
      · exact cons_subset_cons _ (ih 0)
    | succ k =>
      simp only [eraseOccurrence]
      split_ifs
      · exact cons_subset_cons _ (ih k)
      · exact cons_subset_cons _ (ih (k + 1))

theorem perm_eraseIdx {α : Type*} (l : List α) (i : ℕ) : l.Perm (l[i]?.toList ++ l.eraseIdx i) := by
  by_cases h : i < l.length
  · rw [getElem?_eq_getElem h]
    exact (getElem_cons_eraseIdx_perm h).symm
  · rw [getElem?_eq_none (by omega), eraseIdx_of_length_le (by omega)]
    exact List.Perm.refl _

namespace ClassQueues

variable (queues : ClassQueues) (lane : Lane)

/-- The queue of one lane among all jobs. -/
theorem drained_split :
    ∃ before after, queues.drained = before ++ (queues.queue lane ++ after) ∧
      ∀ jobs, (queues.setQueue lane jobs).drained = before ++ (jobs ++ after) := by
  obtain ⟨before, after, hl⟩ := append_of_mem (mem_allLanes lane)
  have hn := allLanes_nodup
  rw [hl, nodup_middle, nodup_cons, mem_append, not_or] at hn
  have ho (jobs : List QueuedJob) (lanes : List Lane) (hla : lane ∉ lanes) :
      lanes.flatMap (queues.setQueue lane jobs).queue = lanes.flatMap queues.queue := by
    refine flatMap_congr fun other hmem => Function.update_of_ne ?_ _ _
    rintro rfl
    exact hla hmem
  refine ⟨before.flatMap queues.queue, after.flatMap queues.queue, ?_, fun jobs => ?_⟩
  · rw [drained, hl, flatMap_append, flatMap_cons]
  · rw [drained, hl, flatMap_append, flatMap_cons, ho jobs before hn.1.1, ho jobs after hn.1.2]
    simp [setQueue]

theorem drained_perm_setQueue {lane : Lane} {taken jobs : List QueuedJob}
    (h : (queues.queue lane).Perm (taken ++ jobs)) :
    queues.drained.Perm (taken ++ (queues.setQueue lane jobs).drained) := by
  obtain ⟨before, after, hd, hset⟩ := queues.drained_split lane
  rw [hd, hset]
  calc before ++ (queues.queue lane ++ after)
      |>.Perm (before ++ ((taken ++ jobs) ++ after)) := (h.append_right after).append_left before
    _ |>.Perm (taken ++ (before ++ (jobs ++ after))) := by
      rw [append_assoc, ← append_assoc, ← append_assoc taken]
      exact perm_append_comm.append_right _

theorem drained_pushJob (job : QueuedJob) :
    (queues.pushJob lane job).drained.Perm (job :: queues.drained) := by
  obtain ⟨before, after, hd, hset⟩ := queues.drained_split lane
  change (queues.setQueue lane (queues.queue lane ++ [job])).drained.Perm _
  rw [hset, hd, append_assoc, ← append_assoc before, ← append_assoc before]
  exact perm_middle

theorem drained_pushFrontJob (job : QueuedJob) :
    (queues.pushFrontJob lane job).drained.Perm (job :: queues.drained) := by
  obtain ⟨before, after, hd, hset⟩ := queues.drained_split lane
  change (queues.setQueue lane (job :: queues.queue lane)).drained.Perm _
  rw [hset, hd]
  exact perm_middle

/-! ## Jobs taken out of the queues -/

/-- The queues after some jobs were taken out. -/
structure Drops (queues queues' : ClassQueues) (dropped : List QueuedJob) : Prop where
  jobs : queues.drained.Perm (dropped ++ queues'.drained)
  order : queues'.order ⊆ queues.order

theorem Drops.refl : queues.Drops queues [] := ⟨List.Perm.refl _, List.Subset.refl _⟩

theorem drops_popFrontJob :
    queues.Drops (queues.popFrontJob lane).2 (queues.popFrontJob lane).1.toList := by
  unfold popFrontJob
  split_ifs
  · refine ⟨queues.drained_perm_setQueue ?_, erase_subset⟩
    cases queues.queue lane <;> simp
  · exact .refl _

theorem drops_removeQueued (position : ℕ) :
    queues.Drops (queues.removeQueued lane position).2
      (queues.removeQueued lane position).1.toList :=
  ⟨queues.drained_perm_setQueue (perm_eraseIdx _ _), eraseOccurrence_subset _ _ _⟩

theorem drops_removePositions (positions : List (ℕ × Lane × ℕ)) :
    queues.Drops (removePositions positions queues).2 (removePositions positions queues).1 := by
  induction positions generalizing queues with
  | nil => exact .refl _
  | cons position rest ih =>
    obtain ⟨orderPosition, lane, queuePosition⟩ := position
    have hp := queues.drained_perm_setQueue (perm_eraseIdx (queues.queue lane) queuePosition)
    have hr := ih (queues.removeAt orderPosition lane queuePosition).2
    refine ⟨hp.trans ?_, List.Subset.trans hr.order eraseIdx_subset⟩
    rw [removePositions, append_assoc]
    exact hr.jobs.append_left _

theorem drops_removeFirstBindJob :
    queues.Drops queues.removeFirstBindJob.2 queues.removeFirstBindJob.1.toList := by
  unfold removeFirstBindJob
  split
  · exact .refl _
  · exact queues.drops_removeQueued _ _

theorem drops_removeCancellable (token : Token) :
    queues.Drops (queues.removeCancellable token).2 (queues.removeCancellable token).1.toList := by
  unfold removeCancellable
  split
  · exact .refl _
  · exact queues.drops_removeQueued _ _

theorem removeFirstBindJob_eq : queues.removeFirstBindJob.1 = queues.firstBindJob := by
  unfold removeFirstBindJob firstBindJob
  cases hf : (queues.queue .mutating).findIdx? fun job => isConfigureRequest job.requestId with
  | none =>
    rw [findIdx?_eq_none_iff] at hf
    exact (find?_eq_none.2 fun job hjob => by simp [hf job hjob]).symm
  | some position =>
    obtain ⟨hp, hjob, hb⟩ := findIdx?_eq_some_iff_getElem.1 hf
    have hfi : ((queues.queue .mutating).find? fun job => isConfigureRequest job.requestId) =
        some (queues.queue .mutating)[position] :=
      find?_eq_some_iff_getElem.2 ⟨hjob, position, hp, rfl, by simpa using hb⟩
    rw [hfi]
    exact getElem?_eq_getElem hp

end ClassQueues

end Aft.Executor
