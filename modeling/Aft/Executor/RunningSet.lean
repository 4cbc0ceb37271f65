import Aft.Executor.Labels
import Aft.Lib.Entries

/-!
# The running jobs

How launches, completions and the steps of workers change the jobs in `running_jobs`, counted by a
predicate of their keys. A launch adds its job as long as the id that it takes is not in use, which
holds for the first `2 ^ 64 - 1` launches (`idAfter_of_lt`).
-/

namespace Aft.Executor

open List SchedulerState

theorem idAfter_of_lt {launches : ℕ} (h : launches + 1 < 2 ^ 64) :
    idAfter launches = launches + 1 := by
  rw [idAfter]
  omega

theorem RunJob.key_sent (runJob : RunJob) (channelOpen : Bool) :
    (runJob.sent channelOpen).key = runJob.key := by
  unfold sent
  split <;> rfl

variable {job : RunningJob} {jobId : ℕ}

namespace SchedulerState

variable {state : SchedulerState}

/-- The number of running jobs with a property. -/
def counted (state : SchedulerState) (p : JobKey → Bool) : ℕ :=
  state.running.countP fun job => p job.key

section

variable (runJob : RunJob) (now : Instant) (phase : Phase)
  (hf : state.nextJobId ∉ state.runningJobs)
include hf

theorem running_launchRunJob :
    (state.launchRunJob runJob now phase).running =
      { runJob with startedAt := now, phase } :: state.running := by
  change (state.runningJobs.insert _ _).entries.map _ = _
  rw [AList.insert_of_notMem hf]
  rfl

theorem counted_launchRunJob (p : JobKey → Bool) :
    (state.launchRunJob runJob now phase).counted p = state.counted p + (p runJob.key).toNat := by
  rw [counted, running_launchRunJob runJob now phase hf, countP_cons]
  cases hp : p runJob.key <;> simp [counted]

end

theorem counted_append (before after : List RunningJob) (job : RunningJob) (p : JobKey → Bool) :
    (before ++ job :: after).countP (fun job => p job.key) =
      (before ++ after).countP (fun job => p job.key) + (p job.key).toNat := by
  rw [perm_middle.countP_eq, countP_cons]
  cases hp : p job.key <;> simp

section

variable (hl : state.runningJobs.lookup jobId = some job)
include hl

/-- The entry of a job, in the running jobs before and after it is erased or replaced. -/
theorem running_of_lookup :
    ∃ before after, state.running = before ++ job :: after ∧
      ((state.runningJobs.erase jobId).entries.map (·.2) : List RunningJob) = before ++ after ∧
      ∀ job', ((state.runningJobs.replace jobId job').entries.map (·.2) : List RunningJob) =
        before ++ job' :: after := by
  obtain ⟨before, after, hen, hera, hr⟩ := AList.exists_entries_of_lookup hl
  refine ⟨before.map (·.2), after.map (·.2), ?_, ?_, fun job' => ?_⟩
  · simp [running, hen]
  · simp [hera]
  · simp [hr]

theorem counted_replace {job' : RunningJob} (hkey : job'.key = job.key) (p : JobKey → Bool) :
    ({ state with runningJobs := state.runningJobs.replace jobId job' } : SchedulerState).counted p =
      state.counted p := by
  obtain ⟨before, after, hr, -, hre⟩ := running_of_lookup hl
  unfold counted
  rw [hr, counted_append, ← hkey, ← counted_append, ← hre]
  rfl

theorem counted_releaseJob (p : JobKey → Bool) :
    state.counted p = (state.releaseJob jobId job).counted p + (p job.key).toNat := by
  obtain ⟨before, after, hr, hera, -⟩ := running_of_lookup hl
  unfold counted
  rw [hr, counted_append, ← hera]
  rfl

end

end SchedulerState

theorem RunningJob.Advance.key {job' : RunningJob} {answers : List (Ticket × Response)}
    {invoked : List Ticket} (h : job.Advance job' answers invoked) : job'.key = job.key := by
  cases h <;> rfl

/-! ## Completions -/

/-- What a completion does to the actor of its root: answered jobs are dropped, a job handed back is
queued again or answered. -/
structure Completes (actor actor' : Option ActorState) (job : RunningJob)
    (requeue : Option QueuedJob) (dropped : List QueuedJob) : Prop where
  absent : actor = none → actor' = none
  present : ∀ before, actor = some before → ∃ after, actor' = some after ∧
    after.epoch = before.epoch ∧ after.inflight = (before.countCompleted job).inflight ∧
    after.runningWriter = (before.countCompleted job).runningWriter ∧
    after.maintenance.order ⊆ before.maintenance.order
  jobs : (requeue.toList ++ actor.elim [] (·.jobs)).Perm (dropped ++ actor'.elim [] (·.jobs))

namespace ActorState

theorem countCompleted_frame (actor : ActorState) (job : RunningJob) :
    (actor.countCompleted job).epoch = actor.epoch ∧
      (actor.countCompleted job).jobs = actor.jobs ∧
      (actor.countCompleted job).maintenance = actor.maintenance := by
  unfold countCompleted
  split <;> first | exact ⟨rfl, rfl, rfl⟩ | (split <;> exact ⟨rfl, rfl, rfl⟩)

theorem complete_drops (actor : ActorState) (job : RunningJob) (outcome : JobCompletionOutcome) :
    ∃ dropped, (actor.countCompleted job).Drops (actor.complete job outcome).1 dropped ∧
      (actor.complete job outcome).2.map Prod.fst = dropped.map (·.completion) := by
  unfold complete
  split
  · have hf : (actor.countCompleted job).Drops { actor.countCompleted job with fatal := true } [] :=
      ⟨rfl, rfl, rfl, List.Perm.refl _, List.Subset.refl _⟩
    exact ⟨_, hf.trans (drops_failQueuedJobs _), answers_failQueuedJobs _⟩
  · exact ⟨[], .refl _, rfl⟩

end ActorState

def SchedulerState.completed (state : SchedulerState) (jobId : ℕ) (job : RunningJob)
    (actor : Option ActorState) (bindRetryPending : Bool) : SchedulerState :=
  { state.releaseJob jobId job with
    idleWorkers := state.idleWorkers + 1
    actors := Function.update state.actors job.rootId actor
    bindRetryPending }

theorem completeActor_spec (state : SchedulerState) (job : RunningJob)
    (outcome : JobCompletionOutcome) :
    ∃ actor dropped, (state.completeActor job outcome).1 =
        { state with actors := Function.update state.actors job.rootId actor } ∧
      (state.completeActor job outcome).2.map Prod.fst = dropped.map (·.completion) ∧
      Completes (state.actors job.rootId) actor job none dropped := by
  unfold completeActor
  cases hac : state.actors job.rootId with
  | none =>
    refine ⟨none, [], ?_, rfl, fun _ => rfl, fun before h => absurd h (by simp), ?_⟩
    · rw [update_actors_none hac]
    · exact List.Perm.refl _
  | some actor =>
    obtain ⟨dropped, hd, han⟩ := actor.complete_drops job outcome
    refine ⟨some (actor.complete job outcome).1, dropped, rfl, han,
      fun h => absurd h (by simp), ?_, ?_⟩
    · rintro before ⟨⟩
      refine ⟨_, rfl, ?_, hd.inflight, hd.runningWriter, ?_⟩
      · rw [hd.epoch, (actor.countCompleted_frame job).1]
      · rw [← (actor.countCompleted_frame job).2.2]
        exact hd.order
    · have hj := hd.jobs
      rw [(actor.countCompleted_frame job).2.1] at hj
      exact hj

namespace Completes

variable {actor : Option ActorState} {job : RunningJob} {dropped : List QueuedJob}

theorem settle {actor' : Option ActorState} (h : Completes actor actor' job none dropped)
    (queued : QueuedJob) : Completes actor actor' job (some queued) (dropped ++ [queued]) where
  absent := h.absent
  present := h.present
  jobs := by
    rw [append_assoc]
    exact (h.jobs.cons queued).trans perm_middle.symm

theorem requeue {after : ActorState} (h : Completes actor (some after) job none dropped)
    (queued : QueuedJob) :
    Completes actor
      (some { after with interactive := after.interactive.pushFrontJob .mutating queued }) job
      (some queued) dropped where
  absent hn := absurd (h.absent hn) (by simp)
  present before hb := by
    obtain ⟨_, ⟨⟩, hep, hin, hw, ho⟩ := h.present before hb
    exact ⟨_, rfl, hep, hin, hw, ho⟩
  jobs := by
    have hp := (after.interactive.drained_pushFrontJob .mutating queued).append_right
      after.maintenance.drained
    refine ((h.jobs.cons queued).trans perm_middle.symm).trans (hp.symm.append_left _)

end Completes

theorem completeJob_spec {state : SchedulerState} (tokens : Token → TokenState)
    (outcome : JobCompletionOutcome) (requeue : Option QueuedJob)
    (hl : state.runningJobs.lookup jobId = some job) :
    ∃ actor retry dropped,
      (completeJob state tokens jobId outcome requeue).1 = state.completed jobId job actor retry ∧
      (completeJob state tokens jobId outcome requeue).2.map Prod.fst =
        dropped.map (·.completion) ∧
      Completes (state.actors job.rootId) actor job requeue dropped := by
  obtain ⟨actor, dropped, hs, han, hc⟩ :=
    completeActor_spec (state.releaseJob jobId job) job outcome
  unfold completeJob
  rw [hl]
  dsimp only
  rw [hs]
  cases requeue with
  | none =>
    refine ⟨actor, _, dropped, rfl, ?_, hc⟩
    rw [append_nil, han]
  | some queued =>
    unfold requeueBind
    dsimp only
    have hse : ∀ response : Response,
        ((state.releaseJob jobId job).completeActor job outcome).2.map Prod.fst ++
          [(queued.completion, response)].map Prod.fst = (dropped ++ [queued]).map (·.completion) := by
      intro response
      rw [han, map_append]
      rfl
    split
    · refine ⟨actor, _, _, rfl, ?_, hc.settle queued⟩
      rw [map_append, hse]
    · rw [Function.update_self]
      cases actor with
      | none =>
        refine ⟨none, _, _, rfl, ?_, hc.settle queued⟩
        rw [map_append, hse]
      | some after =>
        dsimp only
        split
        · refine ⟨some after, _, _, rfl, ?_, hc.settle queued⟩
          rw [map_append, hse]
        · refine ⟨_, state.bindRetryPending || queued.notBefore.isSome, dropped, ?_, ?_,
            hc.requeue queued⟩
          · simp only [setActor, Function.update_idem]
            rfl
          · rw [append_nil, han]

end Aft.Executor
