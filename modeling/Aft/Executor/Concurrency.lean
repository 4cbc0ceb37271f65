import Aft.Executor.Wraparound

/-!
# What runs at once

What runs at once on a root of a reachable executor (`lanes_exclude`), and what its counters and
reserved workers say (`workers_accounted`), until the job ids wrap around
(`read_lost_after_wraparound`, `workers_lost_after_wraparound`).
-/

namespace Aft.Executor

def SchedulerState.runningIn (state : SchedulerState) (rootId : ProjectRootId) (lane : Lane) : ℕ :=
  state.running.countP fun job => job.rootId == rootId && job.lane == lane

/-- The running jobs of a root keep to the rules of its lanes, and its actor knows about them. -/
structure SchedulerState.RootExcludes (config : EffectiveConfig) (state : SchedulerState)
    (rootId : ProjectRootId) : Prop where
  counters : ∀ actor, state.actors rootId = some actor → ∀ kind : Kind, actor.inflight kind =
    state.running.countP fun job => job.rootId == rootId && kind.counts job.key
  writer : ∀ actor, state.actors rootId = some actor →
    (actor.mutatingInflight.map fun writer => (writer.requestId, writer.command)) =
      (state.running.find? fun job => job.rootId == rootId && job.lane == .mutating).map fun job =>
        (job.requestId, job.command)
  atMostOne : ∀ lane ∈ [.mutating, .serialLspStatus, .maintenanceCommit, .providerMetadata,
    .callLedger], state.runningIn rootId lane ≤ 1
  acquisitions : (state.running.countP fun job => job.rootId == rootId &&
    isCallgraphAcquisition job.jobClass job.lane job.requestId) ≤ 1
  reads : state.runningIn rootId .pureRead ≤ config.readCap
  /-- While a writer with an exclusive hold runs, nothing that reads the epoch runs. -/
  exclusive : ∀ writer ∈ state.running, writer.rootId = rootId → writer.lane = .mutating →
    writer.sharedBindGate = false →
      ∀ lane ∈ [.pureRead, .serialLspStatus, .maintenanceCommit], state.runningIn rootId lane = 0
  /-- A commit that runs beside a shared-hold bind was launched before it: ids grow. -/
  shared : ∀ bindId bind jobId job, state.runningJobs.lookup bindId = some bind →
    state.runningJobs.lookup jobId = some job → bind.rootId = rootId → job.rootId = rootId →
    bind.lane = .mutating → bind.sharedBindGate = true → job.lane = .maintenanceCommit →
    jobId < bindId

namespace SchedulerState

variable {config : EffectiveConfig} {state : SchedulerState} {rootId : ProjectRootId}

theorem Mirrors.countedOn_le_one (h : state.Mirrors) (kind : Kind) (hany : kind ≠ .any)
    (hr : kind ≠ .read) : state.countedOn rootId kind ≤ 1 := by
  rw [← h.inflight]
  cases state.actors rootId with
  | none => exact Nat.zero_le _
  | some actor => cases kind <;> first | contradiction | exact Bool.toNat_le _

theorem exists_lookup_of_mem {job : RunningJob} (h : job ∈ state.running) :
    ∃ jobId, state.runningJobs.lookup jobId = some job := by
  obtain ⟨⟨jobId, job⟩, hen, rfl⟩ := List.mem_map.1 h
  exact ⟨jobId, AList.mem_lookup_iff.2 hen⟩

theorem mem_keyed_of_lookup {jobId : ℕ} {job : RunningJob}
    (h : state.runningJobs.lookup jobId = some job) : (jobId, job.key) ∈ state.keyed :=
  List.mem_map.2 ⟨⟨jobId, job⟩, AList.mem_lookup_iff.1 h, rfl⟩

/-- While a writer with an exclusive hold runs, nothing that reads the epoch runs. -/
theorem Excludes.readers (h : state.Excludes) {jobId : ℕ} {writer : RunningJob}
    (hl : state.runningJobs.lookup jobId = some writer) (hla : writer.lane = .mutating)
    (hg : writer.sharedBindGate = false) :
    state.countedOn writer.rootId .read = 0 ∧ state.countedOn writer.rootId .lsp = 0 ∧
      state.countedOn writer.rootId .commit = 0 := by
  have hc : Kind.writer.counts writer.key = true := beq_iff_eq.2 hla
  have hpos : 0 < state.countedOn writer.rootId .writer :=
    countedOn_pos (mem_keyed_of_lookup hl) hc
  cases hac : state.actors writer.rootId with
  | none =>
    rw [← h.mirrors.inflight, hac] at hpos
    exact absurd hpos (lt_irrefl 0)
  | some actor =>
    have hin := h.mirrors.inflight_of_some hac
    have hone : actor.inflight .writer ≤ 1 := Bool.toNat_le _
    rw [← hin] at hpos
    rw [← hin, ← hin, ← hin]
    exact (h.exclusive _ actor hac).writer (by omega) (h.mirrors.sharedBind_eq_zero hl hac hla hg)

theorem Excludes.rootExcludes (h : state.Excludes) (hc : state.config = config)
    (rootId : ProjectRootId) : state.RootExcludes config rootId where
  counters actor hac kind := h.mirrors.inflight_of_some hac kind
  writer actor hac := by
    refine (h.mirrors.writer rootId actor hac).trans ?_
    rw [writerOn, List.find?_map, Option.map_map]
    rfl
  atMostOne lane hl := by
    simp only [List.mem_cons, List.not_mem_nil, or_false] at hl
    rcases hl with rfl | rfl | rfl | rfl | rfl
    · exact h.mirrors.countedOn_le_one .writer (by decide) (by decide)
    · exact h.mirrors.countedOn_le_one .lsp (by decide) (by decide)
    · exact h.mirrors.countedOn_le_one .commit (by decide) (by decide)
    · exact h.mirrors.countedOn_le_one .provider (by decide) (by decide)
    · exact h.mirrors.countedOn_le_one .ledger (by decide) (by decide)
  acquisitions := h.mirrors.countedOn_le_one .acquisition (by decide) (by decide)
  reads := by
    change state.countedOn rootId .read ≤ _
    rw [← h.mirrors.inflight]
    cases hac : state.actors rootId with
    | none => exact Nat.zero_le _
    | some actor => exact hc ▸ (h.exclusive rootId actor hac).reads
  exclusive writer hw hr hl hg lane hmem := by
    subst hr
    obtain ⟨jobId, hlo⟩ := exists_lookup_of_mem hw
    obtain ⟨hre, hlsp, hco⟩ := h.readers hlo hl hg
    simp only [List.mem_cons, List.not_mem_nil, or_false] at hmem
    rcases hmem with rfl | rfl | rfl
    · exact hre
    · exact hlsp
    · exact hco
  shared bindId bind jobId job hb hjob hr hr' hl hg hco := by
    refine h.commits (bindId, bind.key) (mem_keyed_of_lookup hb) (jobId, job.key)
      (mem_keyed_of_lookup hjob) ?_ (beq_iff_eq.2 hco) (hr'.trans hr.symm)
    simp [Kind.counts, RunJob.key, hl, hg]

end SchedulerState

/-- In a run that removes only idle actors, until job ids come back, the running jobs of a root
exclude each other as their lanes say. -/
theorem lanes_exclude (config : EffectiveConfig) (system : System)
    (hreaches : System.Reaches .idleRemoval (.new config) system)
    (hlaunched : system.launched.length < 2 ^ 64) (rootId : ProjectRootId) :
    system.scheduler.RootExcludes config rootId :=
  (hreaches.excludes hlaunched).rootExcludes (hreaches.accounted hlaunched).counters.config_eq rootId

theorem lanes_exclude_reading :
    Wraparound.readingSystem.scheduler.runningIn "r" .pureRead = 1 ∧
      Wraparound.readingSystem.scheduler.RootExcludes Wraparound.config "r" := by
  obtain ⟨⟨hscheduler, -⟩, hlaunched⟩ := Wraparound.readingSystem_eq
  have hlength : Wraparound.readingSystem.launched.length < 2 ^ 64 := by
    rw [hlaunched]
    norm_num
  refine ⟨?_, lanes_exclude _ _ Wraparound.reached_readingSystem hlength "r"⟩
  rw [hscheduler]
  decide

/-- Once job ids come back, an actor counts a read that is no longer among the running jobs. -/
theorem read_lost_after_wraparound :
    ∃ system actor, System.Reaches .idleRemoval (.new Wraparound.config) system ∧
      system.scheduler.actors "r" = some actor ∧ actor.inflight .read = 1 ∧
      system.scheduler.runningIn "r" .pureRead = 0 := by
  obtain ⟨ticket, system, hreached, hscheduler⟩ := Wraparound.exists_collision
  refine ⟨system, Wraparound.actor true .new, hreached, ?_⟩
  rw [hscheduler]
  exact ⟨rfl, rfl, rfl⟩

/-! ## The worker pool -/

def RunningJob.isGeneral (job : RunningJob) : Bool :=
  !isBindJob job.jobClass job.lane job.requestId && job.lane != .providerMetadata

/-- The counters that a completion takes its job off are positive. -/
structure SchedulerState.Releases (state : SchedulerState) (job : RunningJob) : Prop where
  interactive : job.jobClass = .interactive → 0 < state.interactiveInflight
  maintenance : job.jobClass = .maintenance → 0 < state.maintenanceInflight
  provider : job.lane = .providerMetadata → 0 < state.providerInflight
  binds : isBindJob job.jobClass job.lane job.requestId = true → 0 < state.bindsInflight
  total : ∀ actor, state.actors job.rootId = some actor → 0 < actor.actorTotalInflight
  reads : ∀ actor, state.actors job.rootId = some actor → job.lane = .pureRead →
    0 < actor.readInflight

structure SchedulerState.Sound (config : EffectiveConfig) (state : SchedulerState) : Prop where
  workers : state.idleWorkers + state.running.length =
    config.poolSize + config.bindReserve + config.providerReserve
  interactive : state.interactiveInflight = state.running.countP (·.jobClass == .interactive)
  maintenance : state.maintenanceInflight = state.running.countP (·.jobClass == .maintenance)
  provider : state.providerInflight = state.running.countP (·.lane == .providerMetadata)
  binds : state.bindsInflight =
    state.running.countP fun job => isBindJob job.jobClass job.lane job.requestId
  general_le : state.running.countP (·.isGeneral) ≤ config.poolSize
  maintenance_le : state.maintenanceInflight ≤ config.maintenanceCap
  provider_le : state.providerInflight ≤ config.providerReserve
  provider_reserve : config.providerReserve ≤ state.providerInflight + state.idleWorkers
  bind_reserve : state.bindsInflight < config.bindReserve →
    config.providerReserve - state.providerInflight < state.idleWorkers
  releases : ∀ jobId job, state.runningJobs.lookup jobId = some job → state.Releases job

/-- Every job draws on one reservation at most. -/
theorem length_eq_countP (jobs : List RunningJob) :
    jobs.length = jobs.countP (·.isGeneral) +
      jobs.countP (fun job => isBindJob job.jobClass job.lane job.requestId) +
      jobs.countP (·.lane == .providerMetadata) := by
  induction jobs with
  | nil => rfl
  | cons job jobs ih =>
    have hone := SchedulerState.isBind_add_provider_le job.key
    cases hb : isBindJob job.jobClass job.lane job.requestId <;>
      cases hl : job.lane == .providerMetadata <;>
      simp_all [RunningJob.isGeneral, JobKey.isBind, RunJob.key] <;> omega

variable {state : SchedulerState} {jobId : ℕ} {job : RunningJob}

theorem SchedulerState.counted_pos (hl : state.runningJobs.lookup jobId = some job)
    {p : JobKey → Bool} (hp : p job.key = true) : 0 < state.counted p := by
  rw [counted_releaseJob hl, hp]
  exact Nat.succ_pos _

variable {config : EffectiveConfig} {launches : ℕ}

theorem SchedulerState.Accounted.releases (h : state.Accounted config launches)
    (hm : state.Mirrors) (hl : state.runningJobs.lookup jobId = some job) :
    state.Releases job where
  interactive hc := h.interactive ▸ counted_pos hl (beq_iff_eq.2 hc)
  maintenance hc := h.maintenance ▸ counted_pos hl (beq_iff_eq.2 hc)
  provider hla := h.provider ▸ counted_pos hl (beq_iff_eq.2 hla)
  binds hb := h.binds ▸ counted_pos hl hb
  total actor hac := by
    change 0 < actor.inflight .any
    rw [hm.inflight_of_some hac]
    exact counted_pos hl (by simp [Kind.counts, RunJob.key])
  reads actor hac hla := by
    change 0 < actor.inflight .read
    rw [hm.inflight_of_some hac]
    exact counted_pos hl (by simp [Kind.counts, RunJob.key, hla])

theorem SchedulerState.Accounted.sound (h : state.Accounted config launches)
    (hm : state.Mirrors) : state.Sound config := by
  have hl := length_eq_countP state.running
  have hw : state.idleWorkers + state.running.length = config.totalWorkers := by
    rw [← h.workers, counted, List.countP_true]
  have hr := h.reserves
  have hprovider_le := h.provider_le
  rw [EffectiveConfig.totalWorkers] at hw
  have hb : state.bindsInflight =
      state.running.countP fun job => isBindJob job.jobClass job.lane job.requestId := h.binds
  have hp : state.providerInflight = state.running.countP (·.lane == .providerMetadata) :=
    h.provider
  refine ⟨hw, h.interactive, h.maintenance, hp, hb, ?_, h.maintenance_le,
    hprovider_le, ?_, ?_, fun jobId job hlo => ?_⟩
  · omega
  · omega
  · omega
  · exact h.releases hm hlo

/-- Until job ids come back, a scheduler accounts for its workers, and a round takes one idle worker
for each job that it launches. -/
theorem workers_accounted (config : EffectiveConfig) (system : System)
    (hreaches : System.Reaches .idleRemoval (.new config) system)
    (hlaunched : system.launched.length < 2 ^ 64) :
    system.scheduler.Sound config ∧
      ∀ env, (system.dispatch env).launched.length < 2 ^ 64 →
        (system.dispatch env).scheduler.idleWorkers + (system.dispatch env).launched.length =
          system.scheduler.idleWorkers + system.launched.length := by
  have haccounted := hreaches.accounted hlaunched
  refine ⟨haccounted.counters.sound (hreaches.excludes hlaunched).mirrors, fun env hlaunched' => ?_⟩
  have hchannel (attempt : ℕ) : Rules.idleRemoval.channel (env.channelOpen attempt) := trivial
  have hsteps := dispatchRunnable_steps hchannel system.scheduler system.heavy system.answers
    system.launched system.submitted system.invoked
  exact (Ledger.RoundSteps.idleWorkers hsteps haccounted hlaunched').2

theorem workers_accounted_reading :
    Wraparound.readingSystem.scheduler.running.length = 1 ∧
      Wraparound.readingSystem.scheduler.Sound Wraparound.config := by
  obtain ⟨⟨hscheduler, -⟩, hlaunched⟩ := Wraparound.readingSystem_eq
  have hlength : Wraparound.readingSystem.launched.length < 2 ^ 64 := by
    rw [hlaunched]
    norm_num
  refine ⟨?_, (workers_accounted _ _ Wraparound.reached_readingSystem hlength).1⟩
  rw [hscheduler]
  rfl

/-- Once job ids come back, the idle workers and the running jobs no longer make up the pool. -/
theorem workers_lost_after_wraparound :
    ∃ system, System.Reaches .idleRemoval (.new Wraparound.config) system ∧
      system.scheduler.idleWorkers + system.scheduler.running.length ≠
        Wraparound.config.poolSize + Wraparound.config.bindReserve +
          Wraparound.config.providerReserve := by
  obtain ⟨ticket, system, hreached, hscheduler⟩ := Wraparound.exists_collision
  refine ⟨system, hreached, ?_⟩
  rw [hscheduler]
  change 4 + 1 ≠ 2 + 2 + 2
  decide

end Aft.Executor
