import Aft.Executor.Scheduler

/-!
# Admissions

What `tryAdmitActor` does when it hands out a job (`tryAdmitActor_admission`), and the counters and
flags of an actor as numbers of jobs of a kind.
-/

namespace Aft.Executor

open List ActorState

/-! ## Kinds of running jobs -/

/-- What the counters and flags of actors and scheduler depend on in a running job. -/
structure JobKey where
  rootId : ProjectRootId
  jobClass : JobClass
  lane : Lane
  requestId : String
  command : String
  sharedBindGate : Bool
deriving DecidableEq, Repr

def RunJob.key (job : RunJob) : JobKey :=
  ⟨job.rootId, job.jobClass, job.lane, job.requestId, job.command, job.sharedBindGate⟩

/-- What a counter or flag of an actor counts. -/
inductive Kind where
  | any | read | lsp | writer | sharedBind | commit | acquisition | provider | ledger
deriving DecidableEq, Repr

def Kind.counts (kind : Kind) (job : JobKey) : Bool :=
  match kind with
  | .any => true
  | .read => job.lane == .pureRead
  | .lsp => job.lane == .serialLspStatus
  | .writer => job.lane == .mutating
  | .sharedBind => job.lane == .mutating && job.sharedBindGate
  | .commit => job.lane == .maintenanceCommit
  | .acquisition => isCallgraphAcquisition job.jobClass job.lane job.requestId
  | .provider => job.lane == .providerMetadata
  | .ledger => job.lane == .callLedger

variable {queues : ClassQueues} {actor : ActorState} {actor' : ActorState}

namespace ActorState

/-- The number of jobs of a kind that the actor has in flight, by its counters and flags. -/
def inflight (actor : ActorState) : Kind → ℕ
  | .any => actor.actorTotalInflight
  | .read => actor.readInflight
  | .lsp => actor.lspInflight.toNat
  | .writer => actor.writerInflight.toNat
  | .sharedBind => actor.sharedBindInflight.toNat
  | .commit => actor.maintenanceCommitInflight.toNat
  | .acquisition => actor.callgraphAcquisitionInflight.toNat
  | .provider => actor.providerInflight.toNat
  | .ledger => actor.callLedgerInflight.toNat

def runningWriter (actor : ActorState) : Option (String × String) :=
  actor.mutatingInflight.map fun writer => (writer.requestId, writer.command)

def jobs (actor : ActorState) : List QueuedJob :=
  actor.interactive.drained ++ actor.maintenance.drained

/-- The flag of a lane is clear, so that it can be set for one more job. -/
def Free (actor : ActorState) (job : JobKey) : Prop :=
  ∀ kind, kind ≠ .any → kind ≠ .read → kind.counts job = true → actor.inflight kind = 0

theorem inflight_countAdmitted {job : JobKey} (hf : actor.Free job)
    (hs : actor.inflight .sharedBind ≤ actor.inflight .writer) (kind : Kind) :
    (actor.countAdmitted job.lane (isCallgraphAcquisition job.jobClass job.lane job.requestId)
      job.sharedBindGate).inflight kind = actor.inflight kind + (kind.counts job).toNat := by
  have hk := hf kind
  have hw := hf .writer (by decide) (by decide)
  obtain ⟨rootId, jobClass, lane, requestId, command, gate⟩ := job
  cases lane <;> cases kind <;>
    simp_all [countAdmitted, inflight, Kind.counts, isCallgraphAcquisition] <;>
    split_ifs <;> simp_all

theorem countAdmitted_frame (actor : ActorState) (lane : Lane) (acquisition gate : Bool) :
    (actor.countAdmitted lane acquisition gate).epoch = actor.epoch ∧
      (actor.countAdmitted lane acquisition gate).jobs = actor.jobs ∧
      (actor.countAdmitted lane acquisition gate).runningWriter = actor.runningWriter ∧
      (actor.countAdmitted lane acquisition gate).maintenance = actor.maintenance := by
  cases lane <;> cases acquisition <;> exact ⟨rfl, rfl, rfl, rfl⟩

/-! ## Jobs taken out of the queues -/

/-- The actor after some queued jobs were taken out, with the same jobs in flight. -/
structure Drops (actor actor' : ActorState) (dropped : List QueuedJob) : Prop where
  epoch : actor'.epoch = actor.epoch
  inflight : actor'.inflight = actor.inflight
  runningWriter : actor'.runningWriter = actor.runningWriter
  jobs : actor.jobs.Perm (dropped ++ actor'.jobs)
  order : actor'.maintenance.order ⊆ actor.maintenance.order

theorem Drops.refl (actor : ActorState) : actor.Drops actor [] :=
  ⟨rfl, rfl, rfl, List.Perm.refl _, List.Subset.refl _⟩

variable {dropped : List QueuedJob}

theorem Drops.trans {actor'' : ActorState} {dropped' : List QueuedJob}
    (h : actor.Drops actor' dropped) (h' : actor'.Drops actor'' dropped') :
    actor.Drops actor'' (dropped ++ dropped') where
  epoch := h'.epoch.trans h.epoch
  inflight := h'.inflight.trans h.inflight
  runningWriter := h'.runningWriter.trans h.runningWriter
  jobs := by
    rw [append_assoc]
    exact h.jobs.trans (h'.jobs.append_left _)
  order := List.Subset.trans h'.order h.order

theorem drops_deficit (actor : ActorState) (deficit : ℤ) : actor.Drops { actor with deficit } [] :=
  ⟨rfl, rfl, rfl, List.Perm.refl _, List.Subset.refl _⟩

theorem drops_setClassQueues (actor : ActorState) (jobClass : JobClass)
    (h : (actor.classQueues jobClass).Drops queues dropped) :
    actor.Drops (actor.setClassQueues jobClass queues) dropped := by
  cases jobClass with
  | interactive =>
    refine ⟨rfl, rfl, rfl, ?_, List.Subset.refl _⟩
    change (actor.interactive.drained ++ actor.maintenance.drained).Perm
      (dropped ++ (queues.drained ++ actor.maintenance.drained))
    rw [← append_assoc]
    exact h.jobs.append_right _
  | maintenance =>
    refine ⟨rfl, rfl, rfl, ?_, h.order⟩
    change (actor.interactive.drained ++ actor.maintenance.drained).Perm
      (dropped ++ (actor.interactive.drained ++ queues.drained))
    refine (h.jobs.append_left _).trans ?_
    rw [← append_assoc, ← append_assoc]
    exact perm_append_comm.append_right _

section

variable (actor : ActorState)

theorem drops_failQueuedJobs : actor.Drops actor.failQueuedJobs.1 actor.jobs :=
  ⟨rfl, rfl, rfl, (append_nil actor.jobs).symm ▸ List.Perm.refl _, nil_subset _⟩

theorem drops_noteReaderAdmission (lane : Lane) (now : Instant) :
    actor.Drops (actor.noteReaderAdmission lane now) [] := by
  unfold noteReaderAdmission
  split_ifs
  · exact ⟨rfl, rfl, rfl, List.Perm.refl _, List.Subset.refl _⟩
  · exact .refl _

theorem classQueues_noteReaderAdmission (lane : Lane) (now : Instant) :
    (actor.noteReaderAdmission lane now).classQueues = actor.classQueues := by
  unfold noteReaderAdmission
  split_ifs <;> rfl

theorem drops_popAdmitted (pass : AdmissionPass) (lane : Lane) :
    actor.Drops (actor.popAdmitted pass lane).2 (actor.popAdmitted pass lane).1.toList := by
  unfold popAdmitted
  by_cases hp : pass = .bind
  · subst hp
    exact actor.drops_setClassQueues .interactive actor.interactive.drops_removeFirstBindJob
  · rw [if_neg hp]
    exact actor.drops_setClassQueues _ (ClassQueues.drops_popFrontJob _ lane)

end

end ActorState

/-! ## Admitted jobs -/

def QueuedJob.admitted (queued : QueuedJob) (rootId : ProjectRootId) (jobClass : JobClass)
    (lane : Lane) (epoch : Epoch) (sharedBindGate : Bool) : RunJob where
  rootId := rootId
  jobClass := jobClass
  lane := lane
  epoch := epoch
  job := queued.job
  completion := some queued.completion
  requestId := queued.requestId
  command := queued.command
  heavyPermit := lane == .heavyInit
  cancellation := queued.cancellation
  sharedBindGate := sharedBindGate
  rerun := queued.rerun
  queuedAt := queued.queuedAt
  exclusiveAttempts := queued.exclusiveAttempts
  providerGeneration := queued.providerGeneration

def AdmissionPass.Takes (actor : ActorState) (lane : Lane) (requestId : String) :
    AdmissionPass → Prop
  | .bind => lane = .mutating ∧ isConfigureRequest requestId = true
  | .providerMetadata => lane = .providerMetadata
  | .callLedger => lane = .callLedger
  | .ofClass .interactive => lane ≠ .providerMetadata ∧ lane ≠ .callLedger
  | .ofClass .maintenance => lane ∈ actor.maintenance.order

structure Admission (rootId : ProjectRootId) (actor : ActorState) (pass : AdmissionPass)
    (config : EffectiveConfig) (actor' : ActorState) (queued : QueuedJob) (runJob : RunJob) :
    Prop where
  runJob_eq : runJob = queued.admitted rootId pass.jobClass runJob.lane actor.epoch
    (actor.bindMayShare pass && actor.hasEpochReader)
  takes : pass.Takes actor runJob.lane queued.requestId
  unblocked : actor.blocksLane pass.jobClass runJob.lane = false
  runnable : ∃ heavy, actor.runnable pass runJob.lane config heavy = true
  acquisition : actor.frontIsCallgraphAcquisition pass.jobClass runJob.lane =
    isCallgraphAcquisition pass.jobClass runJob.lane queued.requestId
  epoch : actor'.epoch = actor.epoch
  counted : actor'.inflight = (actor.countAdmitted runJob.lane
    (isCallgraphAcquisition pass.jobClass runJob.lane queued.requestId)
    runJob.sharedBindGate).inflight
  runningWriter : actor'.runningWriter =
    if runJob.lane = .mutating then some (queued.requestId, queued.command) else actor.runningWriter
  jobs : actor.jobs.Perm (queued :: actor'.jobs)
  order : actor'.maintenance.order ⊆ actor.maintenance.order

variable {lane : Lane} {now : Instant} {pass : AdmissionPass}

namespace ActorState

theorem inflight_countAdmitted_congr (h : actor'.inflight = actor.inflight) (lane : Lane)
    (acquisition gate : Bool) :
    (actor'.countAdmitted lane acquisition gate).inflight =
      (actor.countAdmitted lane acquisition gate).inflight := by
  funext kind
  have hk := congrFun h kind
  cases lane <;> cases kind <;> simp_all [countAdmitted, inflight] <;> split_ifs <;> simp_all

variable {queued : QueuedJob}

theorem popAdmitted_of_ne_bind (hp : pass ≠ .bind)
    (h : (actor.popAdmitted pass lane).1 = some queued) :
    ((actor.classQueues pass.jobClass).queue lane).head? = some queued := by
  simp only [popAdmitted, if_neg hp, ClassQueues.popFrontJob] at h
  split_ifs at h
  · exact h

/-- The job at the front of a lane is the one that is taken. -/
theorem frontIsCallgraphAcquisition_eq
    (h : (actor.noteReaderAdmission lane now).popAdmitted pass lane = (some queued, actor'))
    (hl : pass = .bind → lane = .mutating) :
    actor.frontIsCallgraphAcquisition pass.jobClass lane =
      isCallgraphAcquisition pass.jobClass lane queued.requestId := by
  by_cases hp : pass = .bind
  · obtain rfl := hl hp
    have hne : (Lane.mutating == Lane.heavyInit) = false := rfl
    cases hh : ((actor.classQueues pass.jobClass).queue .mutating).head? <;>
      simp [frontIsCallgraphAcquisition, isCallgraphAcquisition, hne]
  · have hh := popAdmitted_of_ne_bind hp (congrArg Prod.fst h)
    rw [classQueues_noteReaderAdmission] at hh
    rw [frontIsCallgraphAcquisition, hh, Option.any_some]

theorem popAdmitted_bind (h : (actor.popAdmitted .bind lane).1 = some queued) :
    isConfigureRequest queued.requestId = true := by
  have hf : actor.interactive.firstBindJob = some queued := by
    rw [← ClassQueues.removeFirstBindJob_eq]
    exact h
  exact find?_some (p := fun job : QueuedJob => isConfigureRequest job.requestId) hf

end ActorState

variable {newest : Option Instant}

theorem ClassQueues.nextInteractiveLane_ne (h : queues.nextInteractiveLane now newest = some lane) :
    lane ≠ .providerMetadata ∧ lane ≠ .callLedger := by
  unfold nextInteractiveLane at h
  dsimp only at h
  split_ifs at h
  · cases h
    decide
  · cases h
    decide
  · have hl := find?_some h
    simp only [mem_cons, decide_eq_true_eq, not_or] at hl
    exact ⟨hl.2.1, hl.2.2.1⟩

theorem admissionLane_takes (h : admissionLane actor pass now newest = some lane)
    {requestId : String} (hb : pass = .bind → isConfigureRequest requestId = true) :
    pass.Takes actor lane requestId := by
  match pass with
  | .providerMetadata | .callLedger =>
    obtain ⟨_, -, rfl⟩ := Option.map_eq_some_iff.1 h
    rfl
  | .bind =>
    obtain ⟨_, -, rfl⟩ := Option.map_eq_some_iff.1 h
    exact ⟨rfl, hb rfl⟩
  | .ofClass .interactive => exact actor.interactive.nextInteractiveLane_ne h
  | .ofClass .maintenance => exact mem_of_head? h

section

variable (rootId : ProjectRootId) (actor : ActorState) (pass : AdmissionPass) (config : EffectiveConfig)

/-- What becomes of an actor that is asked for a job: it keeps its jobs, or it hands out one. -/
def ActorState.Responds : ActorState × Option RunJob → Prop
  | (actor', none) => actor.Drops actor' []
  | (actor', some runJob) => ∃ queued, Admission rootId actor pass config actor' queued runJob

theorem tryAdmitActor_responds (heavy : Bool) (newest : Option Instant) (now : Readings) :
    actor.Responds rootId pass config
      (tryAdmitActor rootId actor pass config heavy newest now) := by
  unfold tryAdmitActor
  cases hl : admissionLane actor pass now.lane newest with
  | none => exact .refl _
  | some lane =>
    dsimp only
    split
    · exact .refl _
    · rename_i had
      have hd := (actor.drops_noteReaderAdmission lane now.promotion).trans
        ((actor.noteReaderAdmission lane now.promotion).drops_popAdmitted pass lane)
      split
      · rename_i actor' hpop
        rw [hpop] at hd
        exact hd
      · rename_i queued actor' hpop
        rw [hpop] at hd
        simp only [not_or, Bool.not_eq_true] at had
        have ht : pass.Takes actor lane queued.requestId := by
          refine admissionLane_takes hl fun hp => ?_
          subst hp
          exact popAdmitted_bind (congrArg Prod.fst hpop)
        have hac := actor.frontIsCallgraphAcquisition_eq hpop fun hp => by
          subst hp
          exact ht.1
        refine ⟨queued, ?_, ht, had.1, ⟨heavy, by simpa using had.2.2⟩, hac, ?_, ?_, ?_, ?_, ?_⟩
        · rw [← hd.epoch]
          rfl
        · rw [(countAdmitted_frame ..).1]
          exact hd.epoch
        · rw [← hac]
          refine inflight_countAdmitted_congr (Eq.trans ?_ hd.inflight) _ _ _
          rfl
        · rw [(countAdmitted_frame ..).2.2.1, ← hd.runningWriter]
          split_ifs <;> rfl
        · rw [(countAdmitted_frame ..).2.1]
          exact hd.jobs
        · rw [(countAdmitted_frame ..).2.2.2]
          exact hd.order

end

namespace Admission

variable {rootId : ProjectRootId} {actor actor' : ActorState} {pass : AdmissionPass}
  {config : EffectiveConfig} {queued : QueuedJob} {runJob : RunJob}

section

variable (h : Admission rootId actor pass config actor' queued runJob)
include h

theorem key_eq :
    runJob.key = ⟨rootId, pass.jobClass, runJob.lane, queued.requestId, queued.command,
      actor.bindMayShare pass && actor.hasEpochReader⟩ := by
  rw [h.runJob_eq]
  rfl

/-- The flags that an admission sets are clear before it. -/
theorem free (hs : actor.inflight .sharedBind ≤ actor.inflight .writer) :
    actor.Free runJob.key := by
  have hu := h.unblocked
  have hac := h.acquisition
  obtain ⟨heavy, hr⟩ := h.runnable
  rw [h.key_eq]
  intro kind hany hre hc
  cases hl : runJob.lane <;> rw [hl] at hu hr hac hc <;>
    cases kind <;> simp_all [Kind.counts, isCallgraphAcquisition, ActorState.inflight,
      ActorState.blocksLane, ActorState.runnable]

theorem inflight (hs : actor.inflight .sharedBind ≤ actor.inflight .writer) (kind : Kind) :
    actor'.inflight kind = actor.inflight kind + (kind.counts runJob.key).toNat := by
  have hc := inflight_countAdmitted (h.free hs) hs kind
  rw [h.counted, ← hc, h.runJob_eq]
  rfl

end

end Admission

end Aft.Executor
