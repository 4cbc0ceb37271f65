import Aft.Executor.RunningSet

/-!
# Worker accounting

The counters of the scheduler say what runs, and no pass of a dispatch round eats into a reservation
that another one has not used (`SchedulerState.Accounted`). A run keeps this as long as it launches
fewer than `2 ^ 64` jobs, so that no job id comes back.
-/

namespace Aft.Executor

def JobKey.isBind (job : JobKey) : Bool := isBindJob job.jobClass job.lane job.requestId

theorem JobKey.isBind_of_provider {job : JobKey} (h : job.lane = .providerMetadata) :
    job.isBind = false := by
  rw [isBind, h]
  cases job.jobClass <;> rfl

namespace SchedulerState

structure Accounted (config : EffectiveConfig) (launches : ℕ) (state : SchedulerState) : Prop where
  config_eq : state.config = config
  nextJobId_eq : state.nextJobId = idAfter launches
  ids : ∀ jobId ∈ state.runningJobs, jobId ≤ launches
  workers : state.idleWorkers + state.counted (fun _ => true) = config.totalWorkers
  interactive : state.interactiveInflight = state.counted (·.jobClass == .interactive)
  maintenance : state.maintenanceInflight = state.counted (·.jobClass == .maintenance)
  provider : state.providerInflight = state.counted (·.lane == .providerMetadata)
  binds : state.bindsInflight = state.counted JobKey.isBind
  reserves : (config.bindReserve - state.bindsInflight) +
    (config.providerReserve - state.providerInflight) ≤ state.idleWorkers
  provider_le : state.providerInflight ≤ config.providerReserve
  maintenance_le : state.maintenanceInflight ≤ config.maintenanceCap

/-- No maintenance queue has a job in the lanes that only interactive jobs may use. -/
def LanesReserved (state : SchedulerState) : Prop :=
  ∀ rootId actor, state.actors rootId = some actor →
    ∀ lane ∈ actor.maintenance.order, lane ≠ .providerMetadata ∧ lane ≠ .callLedger

variable {config : EffectiveConfig} {launches : ℕ} {state : SchedulerState}

theorem accounted_new (config : EffectiveConfig) : (new config).Accounted config 0 where
  config_eq := rfl
  nextJobId_eq := rfl
  ids jobId h := absurd h (AList.notMem_empty jobId)
  workers := rfl
  interactive := rfl
  maintenance := rfl
  provider := rfl
  binds := rfl
  reserves := by
    change (config.bindReserve - 0) + (config.providerReserve - 0) ≤ config.totalWorkers
    unfold EffectiveConfig.totalWorkers
    omega
  provider_le := Nat.zero_le _
  maintenance_le := Nat.zero_le _

/-- The actors and the order of their turns do not matter. -/
theorem Accounted.withActors (h : state.Accounted config launches)
    (actors : ProjectRootId → Option ActorState) (actorOrder : List ProjectRootId) (cursor : ℕ) :
    ({ state with actors, actorOrder, cursor } : SchedulerState).Accounted config launches :=
  ⟨h.config_eq, h.nextJobId_eq, h.ids, h.workers, h.interactive, h.maintenance, h.provider, h.binds,
    h.reserves, h.provider_le, h.maintenance_le⟩

theorem Accounted.advance (h : state.Accounted config launches) {jobId : ℕ} {job job' : RunningJob}
    (hl : state.runningJobs.lookup jobId = some job) (hkey : job'.key = job.key) :
    ({ state with runningJobs := state.runningJobs.replace jobId job' } :
      SchedulerState).Accounted config launches := by
  have hc := counted_replace hl hkey
  refine ⟨h.config_eq, h.nextJobId_eq, fun id hmem => h.ids id (AList.mem_replace.1 hmem),
    ?_, ?_, ?_, ?_, ?_, h.reserves, h.provider_le, h.maintenance_le⟩
  · rw [hc]
    exact h.workers
  · rw [hc]
    exact h.interactive
  · rw [hc]
    exact h.maintenance
  · rw [hc]
    exact h.provider
  · rw [hc]
    exact h.binds

/-- What the guard of a pass and the lane of its job say about the counters. -/
structure Launchable (state : SchedulerState) (job : JobKey) : Prop where
  provider : job.lane = .providerMetadata → state.providerInflight < state.config.providerReserve
  maintenance : job.jobClass = .maintenance →
    state.maintenanceInflight < state.config.maintenanceCap
  reserves : (state.config.bindReserve - state.bindsInflight) +
      (state.config.providerReserve - state.providerInflight) ≤ state.idleWorkers →
    0 < state.idleWorkers ∧
      (state.config.bindReserve - (state.bindsInflight + job.isBind.toNat)) +
        (state.config.providerReserve -
          (state.providerInflight + (job.lane == .providerMetadata).toNat)) <
        state.idleWorkers

theorem Accounted.launch (h : state.Accounted config launches) {runJob : RunJob}
    (hjob : state.Launchable runJob.key) (hl : launches + 1 < 2 ^ 64) (now : Instant)
    (phase : Phase) : (state.launchRunJob runJob now phase).Accounted config (launches + 1) := by
  have hn : state.nextJobId = launches + 1 := by rw [h.nextJobId_eq, idAfter_of_lt hl]
  have hf : state.nextJobId ∉ state.runningJobs := by
    intro hmem
    have hle := h.ids _ hmem
    omega
  have hc := counted_launchRunJob runJob now phase hf
  obtain ⟨hid, hr⟩ := hjob.reserves (by rw [h.config_eq]; exact h.reserves)
  rw [h.config_eq] at hr
  refine ⟨h.config_eq, ?_, ?_, ?_, ?_, ?_, ?_, ?_, ?_, ?_, ?_⟩
  · change idAfter state.nextJobId = _
    rw [hn]
  · intro jobId hmem
    rcases (AList.mem_insert _).1 hmem with rfl | hold
    · exact hn.le
    · exact (h.ids jobId hold).trans (Nat.le_succ _)
  · rw [hc, ← h.workers]
    change state.idleWorkers - 1 + (_ + 1) = _
    omega
  · rw [hc, ← h.interactive]
    rfl
  · rw [hc, ← h.maintenance]
    rfl
  · rw [hc, ← h.provider]
    rfl
  · rw [hc, ← h.binds]
    rfl
  · exact Nat.le_sub_one_of_lt hr
  · change state.providerInflight + (runJob.key.lane == .providerMetadata).toNat ≤ _
    have hp := hjob.provider
    have hle := h.provider_le
    rw [h.config_eq] at hp
    cases hla : runJob.key.lane == .providerMetadata with
    | false => exact hle
    | true => exact hp (beq_iff_eq.1 hla)
  · change state.maintenanceInflight + (runJob.key.jobClass == .maintenance).toNat ≤ _
    have hm := hjob.maintenance
    have hle := h.maintenance_le
    rw [h.config_eq] at hm
    cases hcl : runJob.key.jobClass == .maintenance with
    | false => exact hle
    | true => exact hm (beq_iff_eq.1 hcl)

/-- A job does not count for both reservations. -/
theorem isBind_add_provider_le (job : JobKey) :
    job.isBind.toNat + (job.lane == .providerMetadata).toNat ≤ 1 := by
  by_cases hl : job.lane = .providerMetadata
  · rw [JobKey.isBind_of_provider hl, Bool.toNat_false, Nat.zero_add]
    exact Bool.toNat_le _
  · rw [beq_false_of_ne hl]
    exact Bool.toNat_le _

theorem Accounted.complete (h : state.Accounted config launches) {jobId : ℕ} {job : RunningJob}
    (hl : state.runningJobs.lookup jobId = some job) (actor : Option ActorState)
    (retry : Bool) : (state.completed jobId job actor retry).Accounted config launches := by
  have hc (p : JobKey → Bool) : state.counted p =
      (state.completed jobId job actor retry).counted p + (p job.key).toNat :=
    counted_releaseJob hl p
  have hw := h.workers
  have hin := h.interactive
  have hm := h.maintenance
  have hp := h.provider
  have hb := h.binds
  rw [hc] at hw hin hm hp hb
  have hk := isBind_add_provider_le job.key
  refine ⟨h.config_eq, h.nextJobId_eq, ?_, ?_, ?_, ?_, ?_, ?_, ?_, ?_, ?_⟩
  · intro id hmem
    exact h.ids id (AList.mem_erase.1 hmem).2
  · change state.idleWorkers + 1 + _ = _
    rw [Bool.toNat_true] at hw
    omega
  · change state.interactiveInflight - (job.key.jobClass == .interactive).toNat = _
    omega
  · change state.maintenanceInflight - (job.key.jobClass == .maintenance).toNat = _
    omega
  · change state.providerInflight - (job.key.lane == .providerMetadata).toNat = _
    omega
  · change state.bindsInflight - job.key.isBind.toNat = _
    omega
  · change (config.bindReserve - (state.bindsInflight - job.key.isBind.toNat)) +
      (config.providerReserve -
        (state.providerInflight - (job.key.lane == .providerMetadata).toNat)) ≤
      state.idleWorkers + 1
    have hr := h.reserves
    omega
  · exact (Nat.sub_le _ _).trans h.provider_le
  · exact (Nat.sub_le _ _).trans h.maintenance_le

end SchedulerState

section Launchable

variable {state : SchedulerState} {job : JobKey}

theorem launchable_bind (hg : AdmissionPass.bind.Guard state)
    (hc : job.jobClass = .interactive) (hl : job.lane = .mutating)
    (hco : isConfigureRequest job.requestId = true) : state.Launchable job := by
  refine ⟨by simp [hl], by simp [hc], fun hr => ?_⟩
  have hid : state.config.providerReserve - state.providerInflight < state.idleWorkers := hg
  have hb : job.isBind = true := by simp [JobKey.isBind, isBindJob, hc, hl, hco]
  rw [hb, Bool.toNat_true]
  omega

theorem launchable_provider (hg : AdmissionPass.providerMetadata.Guard state)
    (hc : job.jobClass = .interactive) (hl : job.lane = .providerMetadata) :
    state.Launchable job := by
  obtain ⟨hid, hp⟩ := hg
  refine ⟨fun _ => hp, by simp [hc], fun hr => ⟨hid, ?_⟩⟩
  rw [hl, beq_self_eq_true, Bool.toNat_true]
  omega

/-- A pass that asks for a worker outside the reservations. -/
theorem launchable_of_canDispatchClass (hg : state.canDispatchClass job.jobClass = true)
    (hl : job.lane ≠ .providerMetadata) : state.Launchable job := by
  unfold SchedulerState.canDispatchClass at hg
  split at hg
  · exact absurd hg (by decide)
  · rename_i hid
    rw [SchedulerState.generalIdle] at hid
    refine ⟨fun h => absurd h hl, fun hc => ?_, fun _ => by omega⟩
    rw [hc] at hg
    exact (of_decide_eq_true hg).1

end Launchable

/-- An admission is within the reservations. -/
theorem Admission.launchable {state : SchedulerState} {rootId : ProjectRootId}
    {actor actor' : ActorState} {pass : AdmissionPass} {queued : QueuedJob} {runJob : RunJob}
    (h : Admission rootId actor pass state.config actor' queued runJob)
    (hg : pass.Guard state) (hl : state.LanesReserved)
    (hac : state.actors rootId = some actor) : state.Launchable runJob.key := by
  have ht := h.takes
  have hc : runJob.key.jobClass = pass.jobClass := by rw [h.key_eq]
  have hr : queued.requestId = runJob.key.requestId := by rw [h.key_eq]
  match pass with
  | .bind => exact launchable_bind hg hc ht.1 (hr ▸ ht.2)
  | .providerMetadata => exact launchable_provider hg hc ht
  | .callLedger =>
    refine launchable_of_canDispatchClass (by rw [hc]; exact hg) ?_
    rw [show runJob.key.lane = .callLedger from ht]
    decide
  | .ofClass .interactive =>
    exact launchable_of_canDispatchClass (by rw [hc]; exact hg) ht.1
  | .ofClass .maintenance =>
    exact launchable_of_canDispatchClass (by rw [hc]; exact hg) (hl rootId actor hac _ ht).1

/-! ## Runs -/

/-- A property of all actors, after one of them changed. -/
theorem forall_actors_update {actors : ProjectRootId → Option ActorState}
    {P : ProjectRootId → ActorState → Prop} (h : ∀ root actor, actors root = some actor → P root actor)
    {rootId : ProjectRootId} {actor : Option ActorState}
    (hac : ∀ after, actor = some after → P rootId after) (root : ProjectRootId)
    (after : ActorState) (haf : Function.update actors rootId actor root = some after) :
    P root after := by
  by_cases hr : root = rootId
  · subst hr
    rw [Function.update_self] at haf
    exact hac after haf
  · rw [Function.update_of_ne hr] at haf
    exact h root after haf

structure Ledger.Accounted (config : EffectiveConfig) (ledger : Ledger) : Prop where
  counters : ledger.state.Accounted config ledger.launched.length
  lanes : ledger.state.LanesReserved

namespace Ledger

variable {rules : Rules} {config : EffectiveConfig} {ledger ledger' : Ledger}

theorem RoundStep.launched_le (h : RoundStep rules ledger ledger') :
    ledger.launched.length ≤ ledger'.launched.length := by
  cases h with
  | launch => simp
  | _ => exact le_rfl

theorem Step.launched_le (h : Step rules ledger ledger') :
    ledger.launched.length ≤ ledger'.launched.length := by
  cases h with
  | round hr => exact hr.launched_le
  | _ => exact le_rfl

theorem Accounted.nextJobId (h : ledger.Accounted config)
    (hl : ledger.launched.length + 1 < 2 ^ 64) :
    ledger.state.nextJobId = ledger.launched.length + 1 ∧
      ledger.state.nextJobId ∉ ledger.state.runningJobs := by
  have hn : ledger.state.nextJobId = ledger.launched.length + 1 := by
    rw [h.counters.nextJobId_eq, idAfter_of_lt hl]
  refine ⟨hn, fun hmem => ?_⟩
  have hle := h.counters.ids _ hmem
  omega

theorem Accounted.roundStep (h : ledger.Accounted config) (hs : RoundStep rules ledger ledger')
    (hl : ledger'.launched.length < 2 ^ 64) : ledger'.Accounted config ∧
      ledger'.state.idleWorkers + ledger'.launched.length =
        ledger.state.idleWorkers + ledger.launched.length := by
  cases hs with
  | move => exact ⟨⟨h.counters.withActors _ _ _, h.lanes⟩, rfl⟩
  | @drop rootId actor actor' dropped answers hac hd =>
    refine ⟨⟨h.counters.withActors _ _ _, forall_actors_update h.lanes ?_⟩, rfl⟩
    rintro after ⟨⟩ lane hla
    exact h.lanes rootId actor hac lane (hd.order hla)
  | @launch rootId actor actor' pass queued runJob channelOpen now hac hg had =>
    rw [List.length_append] at hl
    have hc : (ledger.state.setActor rootId actor').Accounted config ledger.launched.length :=
      h.counters.withActors _ _ _
    have hlau := had.launchable hg h.lanes hac
    have hjob : (ledger.state.setActor rootId actor').Launchable (runJob.sent channelOpen).key := by
      rw [runJob.key_sent]
      exact ⟨hlau.provider, hlau.maintenance, hlau.reserves⟩
    refine ⟨⟨?_, forall_actors_update h.lanes ?_⟩, ?_⟩
    · rw [List.length_append]
      exact hc.launch hjob hl now _
    · rintro after ⟨⟩ lane hla
      exact h.lanes rootId actor hac lane (had.order hla)
    · have hid := (hlau.reserves (h.counters.config_eq ▸ h.counters.reserves)).1
      change ledger.state.idleWorkers - 1 + (ledger.launched ++ [runJob.job]).length = _
      rw [List.length_append, List.length_singleton]
      omega

theorem Accounted.step (h : ledger.Accounted config) (hs : Step rules ledger ledger')
    (hl : ledger'.launched.length < 2 ^ 64) : ledger'.Accounted config := by
  cases hs with
  | round hr => exact (h.roundStep hr hl).1
  | register epoch hac =>
    refine ⟨h.counters.withActors _ _ _, forall_actors_update h.lanes ?_⟩
    rintro after ⟨⟩ lane hla
    exact absurd hla List.not_mem_nil
  | remove hac hre =>
    exact ⟨h.counters.withActors _ _ _, forall_actors_update h.lanes fun after h => by cases h⟩
  | settle => exact ⟨h.counters, h.lanes⟩
  | @queue rootId actor actor' job hac hq =>
    refine ⟨h.counters.withActors _ _ _, forall_actors_update h.lanes ?_⟩
    rintro after ⟨⟩ lane hla
    exact (hq.order lane hla).elim (h.lanes rootId actor hac lane) id
  | advance hlo had => exact ⟨h.counters.advance hlo had.key, h.lanes⟩
  | @complete jobId job outcome requeue tokens hlo hp =>
    obtain ⟨actor, retry, dropped, hst, -, hc⟩ :=
      completeJob_spec tokens outcome requeue hlo
    rw [hst]
    refine ⟨h.counters.complete hlo actor retry, forall_actors_update h.lanes ?_⟩
    rintro after rfl lane hla
    cases hb : ledger.state.actors job.rootId with
    | none => exact absurd (hc.absent hb) (by simp)
    | some before =>
      obtain ⟨_, ⟨⟩, -, -, -, ho⟩ := hc.present before hb
      exact h.lanes job.rootId before hb lane (ho hla)

theorem RoundSteps.idleWorkers (h : RoundSteps rules ledger ledger')
    (hac : ledger.Accounted config) (hl : ledger'.launched.length < 2 ^ 64) :
    ledger'.Accounted config ∧ ledger'.state.idleWorkers + ledger'.launched.length =
      ledger.state.idleWorkers + ledger.launched.length := by
  induction h with
  | refl => exact ⟨hac, rfl⟩
  | tail _ hs ih =>
    obtain ⟨hmid, hid⟩ := ih (hs.launched_le.trans_lt hl)
    obtain ⟨hla, hi'⟩ := hmid.roundStep hs hl
    exact ⟨hla, hi'.trans hid⟩

theorem Steps.accounted (h : Steps rules ledger ledger') (hac : ledger.Accounted config)
    (hl : ledger'.launched.length < 2 ^ 64) : ledger'.Accounted config := by
  induction h with
  | refl => exact hac
  | tail _ hs ih => exact (ih (hs.launched_le.trans_lt hl)).step hs hl

end Ledger

end Aft.Executor
