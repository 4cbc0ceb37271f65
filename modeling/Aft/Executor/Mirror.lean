import Aft.Executor.Accounting

/-!
# What an actor says about its running jobs

The counters and flags of every actor agree with the running jobs of its root
(`SchedulerState.Mirrors`), and the lanes of a root exclude each other (`Exclusive`). Both are kept by
every step of a run that removes actors only while they are idle.
-/

namespace Aft.Executor

open SchedulerState

/-- Runs that remove actors only while they are idle. -/
def Rules.idleRemoval : Rules := ⟨fun actor => actor.isIdle false = true, fun _ => True⟩

/-! ## The flags of a completed job -/

theorem toNat_sub_one (flag : Bool) : flag.toNat - 1 = 0 := by cases flag <;> rfl

variable {actor : ActorState} {job : RunningJob}

theorem ActorState.inflight_countCompleted
    (hs : job.lane = .mutating → job.sharedBindGate = false → actor.inflight .sharedBind = 0)
    (kind : Kind) :
    (actor.countCompleted job).inflight kind = actor.inflight kind - (kind.counts job.key).toNat := by
  unfold countCompleted
  cases hl : job.lane with
  | heavyInit =>
    by_cases hac : isCallgraphAcquisition job.jobClass .heavyInit job.requestId = true <;>
      cases kind <;>
      simp [inflight, Kind.counts, RunJob.key, hl, hac, beq_eq_decide, toNat_sub_one]
  | mutating =>
    cases hg : job.sharedBindGate <;> cases kind <;>
      simp_all [inflight, Kind.counts, RunJob.key, isCallgraphAcquisition, beq_eq_decide,
        toNat_sub_one]
  | _ =>
    cases kind <;>
      simp [inflight, Kind.counts, RunJob.key, hl, isCallgraphAcquisition, beq_eq_decide,
        toNat_sub_one]

theorem ActorState.runningWriter_countCompleted (actor : ActorState) (job : RunningJob) :
    (actor.countCompleted job).runningWriter =
      if job.lane = .mutating then none else actor.runningWriter := by
  unfold countCompleted
  cases hl : job.lane with
  | heavyInit =>
    by_cases hac : isCallgraphAcquisition job.jobClass .heavyInit job.requestId = true <;>
      simp [hac, runningWriter]
  | _ => rfl

/-! ## The mirror -/

variable {kind : Kind} {jobId : ℕ} {job' : RunningJob} {actor' : ActorState} {runJob : RunJob}

namespace SchedulerState

/-- The number of running jobs of a kind on a root. -/
def countedOn (state : SchedulerState) (rootId : ProjectRootId) (kind : Kind) : ℕ :=
  state.counted fun job => job.rootId == rootId && kind.counts job

def isWriterOf (rootId : ProjectRootId) (job : JobKey) : Bool :=
  job.rootId == rootId && Kind.writer.counts job

def writerOn (state : SchedulerState) (rootId : ProjectRootId) : Option (String × String) :=
  ((state.running.map (·.key)).find? (isWriterOf rootId)).map fun job => (job.requestId, job.command)

/-- The counters and flags of the actors agree with the running jobs. -/
structure Mirrors (state : SchedulerState) : Prop where
  inflight : ∀ rootId kind,
    (state.actors rootId).elim 0 (·.inflight kind) = state.countedOn rootId kind
  writer : ∀ rootId actor, state.actors rootId = some actor →
    actor.runningWriter = state.writerOn rootId

variable {state state' : SchedulerState} {rootId : ProjectRootId}

theorem countedOn_le {kind' : Kind} (h : ∀ job, kind.counts job = true → kind'.counts job = true) :
    state.countedOn rootId kind ≤ state.countedOn rootId kind' := by
  refine List.countP_mono_left fun job _ hjob => ?_
  rw [Bool.and_eq_true] at hjob ⊢
  exact ⟨hjob.1, h _ hjob.2⟩

theorem countedOn_sharedBind_le :
    state.countedOn rootId .sharedBind ≤ state.countedOn rootId .writer :=
  countedOn_le fun _ h => (Bool.and_eq_true _ _ ▸ h).1

theorem writerOn_eq_none (h : state.countedOn rootId .writer = 0) : state.writerOn rootId = none := by
  unfold writerOn
  rw [Option.map_eq_none_iff, List.find?_eq_none]
  intro key hkey
  obtain ⟨job, hjob, rfl⟩ := List.mem_map.1 hkey
  exact List.countP_eq_zero.1 h job hjob

section

variable (hl : state.runningJobs.lookup jobId = some job)
include hl

theorem keys_replace (hkey : job'.key = job.key) :
    (({ state with runningJobs := state.runningJobs.replace jobId job' } :
      SchedulerState).running.map (·.key)) = state.running.map (·.key) := by
  obtain ⟨before, after, hr, -, hre⟩ := running_of_lookup hl
  rw [hr, running, hre job']
  simp [hkey]

theorem countedOn_releaseJob (rootId : ProjectRootId) (kind : Kind) :
    state.countedOn rootId kind = (state.releaseJob jobId job).countedOn rootId kind +
      (job.rootId == rootId && kind.counts job.key).toNat :=
  counted_releaseJob hl _

theorem writerOn_releaseJob (ho : isWriterOf rootId job.key = false) :
    (state.releaseJob jobId job).writerOn rootId = state.writerOn rootId := by
  obtain ⟨before, after, hr, hera, -⟩ := running_of_lookup hl
  have hre : (state.releaseJob jobId job).running = before ++ after := hera
  rw [writerOn, writerOn, hr, hre]
  simp [ho]

end

namespace Mirrors

section

variable (h : state.Mirrors)
include h

theorem update {actor : Option ActorState}
    (hac : state'.actors = Function.update state.actors rootId actor)
    (hc : ∀ root ≠ rootId, ∀ kind, state'.countedOn root kind = state.countedOn root kind)
    (hw : ∀ root ≠ rootId, state'.writerOn root = state.writerOn root)
    (hin : ∀ kind, actor.elim 0 (·.inflight kind) = state'.countedOn rootId kind)
    (hwr : ∀ after, actor = some after → after.runningWriter = state'.writerOn rootId) :
    state'.Mirrors := by
  refine ⟨fun root kind => ?_, fun root after haf => ?_⟩
  · rw [hac]
    by_cases hr : root = rootId
    · rw [hr, Function.update_self, hin]
    · rw [Function.update_of_ne hr, hc root hr, h.inflight]
  · rw [hac] at haf
    by_cases hr : root = rootId
    · subst hr
      rw [Function.update_self] at haf
      exact hwr after haf
    · rw [Function.update_of_ne hr] at haf
      rw [hw root hr, h.writer root after haf]

theorem register (hac : state.actors rootId = none) (epoch : Epoch) :
    (state.setActor rootId (.new epoch)).Mirrors := by
  have hc (kind : Kind) : state.countedOn rootId kind = 0 := by
    rw [← h.inflight, hac]
    rfl
  refine h.update rfl (fun _ _ _ => rfl) (fun _ _ => rfl) (fun kind => ?_) ?_
  · change _ = state.countedOn rootId kind
    rw [hc]
    cases kind <;> rfl
  · rintro after ⟨⟩
    exact (writerOn_eq_none (hc .writer)).symm

section

variable (hac : state.actors rootId = some actor)
include hac

theorem inflight_of_some (kind : Kind) : actor.inflight kind = state.countedOn rootId kind := by
  rw [← h.inflight, hac]
  rfl

theorem sharedBind_le : actor.inflight .sharedBind ≤ actor.inflight .writer := by
  rw [h.inflight_of_some hac, h.inflight_of_some hac]
  exact countedOn_sharedBind_le

theorem setActor (hin : actor'.inflight = actor.inflight)
    (hw : actor'.runningWriter = actor.runningWriter) : (state.setActor rootId actor').Mirrors := by
  refine h.update rfl (fun _ _ _ => rfl) (fun _ _ => rfl) (fun kind => ?_) ?_
  · change actor'.inflight kind = state.countedOn rootId kind
    rw [hin, h.inflight_of_some hac]
  · rintro after ⟨⟩
    exact hw.trans (h.writer rootId actor hac)

theorem remove (hid : actor.isIdle false = true) :
    ({ state with actors := Function.update state.actors rootId none } : SchedulerState).Mirrors := by
  refine h.update rfl (fun _ _ _ => rfl) (fun _ _ => rfl) (fun kind => ?_) nofun
  have ht : actor.inflight .any = 0 := by
    simp only [ActorState.isIdle, Bool.and_eq_true, beq_iff_eq] at hid
    exact hid.1.1
  have hany := h.inflight_of_some hac .any
  have hle : state.countedOn rootId kind ≤ state.countedOn rootId .any :=
    countedOn_le fun _ _ => rfl
  change 0 = state.countedOn rootId kind
  omega

theorem launch (hr : runJob.rootId = rootId)
    (hin : ∀ kind, actor'.inflight kind = actor.inflight kind + (kind.counts runJob.key).toNat)
    (hw : actor'.runningWriter =
      if runJob.lane = .mutating then some (runJob.requestId, runJob.command)
      else actor.runningWriter) (hf : state.nextJobId ∉ state.runningJobs) (now : Instant)
    (phase : Phase) : ((state.setActor rootId actor').launchRunJob runJob now phase).Mirrors := by
  have hc (p : JobKey → Bool) :
      ((state.setActor rootId actor').launchRunJob runJob now phase).counted p =
        state.counted p + (p runJob.key).toNat :=
    counted_launchRunJob runJob now phase hf p
  have hk : ((state.setActor rootId actor').launchRunJob runJob now phase).running.map (·.key) =
      runJob.key :: state.running.map (·.key) := by
    have hru : ((state.setActor rootId actor').launchRunJob runJob now phase).running =
        { runJob with startedAt := now, phase } :: state.running :=
      running_launchRunJob runJob now phase hf
    rw [hru]
    rfl
  have hs : (runJob.key.rootId == rootId) = true := beq_iff_eq.2 hr
  refine h.update rfl (fun root hne kind => ?_) (fun root hne => ?_) (fun kind => ?_) ?_
  · have ho : (runJob.key.rootId == root) = false :=
      beq_false_of_ne fun heq => hne (heq.symm.trans hr)
    rw [countedOn, hc, ho]
    rfl
  · have ho : (runJob.key.rootId == root) = false :=
      beq_false_of_ne fun heq => hne (heq.symm.trans hr)
    rw [writerOn, hk, List.find?_cons_of_neg (by simp [isWriterOf, ho])]
    rfl
  · change actor'.inflight kind = _
    rw [hin, countedOn, hc, hs, h.inflight_of_some hac]
    rfl
  · rintro after ⟨⟩
    rw [hw, writerOn, hk]
    split_ifs with hl
    · rw [List.find?_cons_of_pos (by simp [isWriterOf, Kind.counts, RunJob.key, hr, hl])]
      rfl
    · rw [List.find?_cons_of_neg (by simp [isWriterOf, Kind.counts, RunJob.key, hl]),
        h.writer rootId actor hac]
      rfl

end

section

variable (hl : state.runningJobs.lookup jobId = some job)
include hl

theorem advance (hkey : job'.key = job.key) :
    ({ state with runningJobs := state.runningJobs.replace jobId job' } :
      SchedulerState).Mirrors := by
  refine ⟨fun root kind => ?_, fun root actor hac => ?_⟩
  · exact (h.inflight root kind).trans (counted_replace hl hkey _).symm
  · rw [h.writer root actor hac, writerOn, writerOn, keys_replace hl hkey]

/-- The writer that completes is not shared unless the flag says so. -/
theorem sharedBind_eq_zero (hac : state.actors job.rootId = some actor) (hla : job.lane = .mutating)
    (hg : job.sharedBindGate = false) : actor.inflight .sharedBind = 0 := by
  have hw := countedOn_releaseJob hl job.rootId .writer
  have hs := countedOn_releaseJob hl job.rootId .sharedBind
  have hle : (state.releaseJob jobId job).countedOn job.rootId .sharedBind ≤ _ :=
    countedOn_sharedBind_le
  have hone : actor.inflight .writer ≤ 1 := Bool.toNat_le _
  have hc : Kind.writer.counts job.key = true := beq_iff_eq.2 hla
  have hc' : Kind.sharedBind.counts job.key = false := by simp [Kind.counts, RunJob.key, hg]
  rw [h.inflight_of_some hac] at hone ⊢
  simp only [beq_self_eq_true, Bool.true_and, hc, hc', Bool.toNat_true, Bool.toNat_false] at hw hs
  omega

theorem complete {actor : Option ActorState} {requeue : Option QueuedJob} {dropped : List QueuedJob}
    (hc : Completes (state.actors job.rootId) actor job requeue dropped) (retry : Bool) :
    (state.completed jobId job actor retry).Mirrors := by
  have hco := countedOn_releaseJob hl
  cases hb : state.actors job.rootId with
  | none =>
    have hn := h.inflight job.rootId .any
    rw [hb, hco] at hn
    exact absurd hn (by simp [Kind.counts])
  | some before =>
    obtain ⟨after, rfl, -, hin, hw, -⟩ := hc.present before hb
    refine h.update rfl (fun root hne kind => ?_) (fun root hne => ?_) (fun kind => ?_) ?_
    · rw [hco, beq_false_of_ne (Ne.symm hne)]
      rfl
    · exact writerOn_releaseJob hl (by simp [isWriterOf, RunJob.key, Ne.symm hne])
    · change after.inflight kind = (state.releaseJob jobId job).countedOn job.rootId kind
      rw [hin, ActorState.inflight_countCompleted (h.sharedBind_eq_zero hl hb),
        h.inflight_of_some hb, hco, beq_self_eq_true, Bool.true_and]
      omega
    · rintro _ ⟨⟩
      rw [hw, before.runningWriter_countCompleted]
      split_ifs with hla
      · have hone : before.inflight .writer ≤ 1 := Bool.toNat_le _
        have hcou : Kind.writer.counts job.key = true := beq_iff_eq.2 hla
        rw [h.inflight_of_some hb, hco, hcou] at hone
        have hn : (state.releaseJob jobId job).countedOn job.rootId .writer = 0 := by
          simpa using hone
        exact (writerOn_eq_none hn).symm
      · rw [h.writer job.rootId before hb]
        exact (writerOn_releaseJob hl (by simp [isWriterOf, Kind.counts, RunJob.key, hla])).symm

end

end

end Mirrors

end SchedulerState

/-! ## Exclusion -/

/-- The lanes of an actor that exclude each other, by the numbers of its jobs in flight. -/
structure Exclusive (readCap : ℕ) (inflight : Kind → ℕ) : Prop where
  writer : inflight .writer = 1 → inflight .sharedBind = 0 →
    inflight .read = 0 ∧ inflight .lsp = 0 ∧ inflight .commit = 0
  reads : inflight .read ≤ readCap

theorem Exclusive.complete {readCap : ℕ} {inflight inflight' : Kind → ℕ}
    (h : Exclusive readCap inflight) {job : JobKey}
    (hin : ∀ kind, inflight' kind = inflight kind - (kind.counts job).toNat)
    (hone : inflight .writer ≤ 1) : Exclusive readCap inflight' := by
  refine ⟨fun hw hs => ?_, ?_⟩
  · rw [hin] at hw hs
    have hc : Kind.writer.counts job = false := by
      cases hc : Kind.writer.counts job with
      | false => rfl
      | true =>
        rw [hc, Bool.toNat_true] at hw
        omega
    have hc' : Kind.sharedBind.counts job = false := by
      simp only [Kind.counts] at hc ⊢
      rw [hc, Bool.false_and]
    rw [hc] at hw
    rw [hc'] at hs
    obtain ⟨hr, hlsp, hco⟩ := h.writer hw hs
    rw [hin, hin, hin, hr, hlsp, hco]
    simp
  · rw [hin]
    exact (Nat.sub_le _ _).trans h.reads

variable {pass : AdmissionPass} {queued : QueuedJob} {config : EffectiveConfig}
  {rootId : ProjectRootId}

section

variable (h : Admission rootId actor pass config actor' queued runJob)
include h

theorem Admission.exclusive (hs : actor.inflight .sharedBind ≤ actor.inflight .writer)
    (hexc : Exclusive config.readCap actor.inflight) :
    Exclusive config.readCap actor'.inflight := by
  have hin := h.inflight hs
  have hu := h.unblocked
  obtain ⟨heavy, hr⟩ := h.runnable
  obtain ⟨hw, hre⟩ := hexc
  rw [h.key_eq] at hin
  constructor
  · rw [hin, hin, hin, hin, hin]
    cases hl : runJob.lane <;> rw [hl] at hu hr <;>
      simp_all [Kind.counts, ActorState.inflight, ActorState.blocksLane, ActorState.runnable,
        ActorState.hasEpochReader, beq_eq_decide]
    -- A writer that is not shared was admitted while no reader held the epoch gate.
    intro hg
    rcases hr with hsh | ⟨hn, -⟩
    · exact and_assoc.1 (hg hsh)
    · exact and_assoc.1 hn
  · rw [hin]
    cases hl : runJob.lane <;> rw [hl] at hr <;>
      simp_all [Kind.counts, ActorState.inflight, ActorState.runnable, beq_eq_decide]

theorem Admission.not_commit_of_writer
    (hw : 0 < actor.inflight .writer) : runJob.lane ≠ .maintenanceCommit := by
  intro hl
  have hu := h.unblocked
  have hf : actor.writerInflight = true := by
    cases hf : actor.writerInflight with
    | false => simp [ActorState.inflight, hf] at hw
    | true => rfl
  rw [hl] at hu
  simp [ActorState.blocksLane, hf] at hu

end

/-! ## Runs -/

namespace SchedulerState

variable {state : SchedulerState}

def keyed (state : SchedulerState) : List (ℕ × JobKey) :=
  state.runningJobs.entries.map fun entry => (entry.1, entry.2.key)

/-- A commit that runs beside a shared-hold bind was launched before it. -/
def CommitsFirst (state : SchedulerState) : Prop :=
  ∀ bind ∈ state.keyed, ∀ commit ∈ state.keyed, Kind.sharedBind.counts bind.2 = true →
    Kind.commit.counts commit.2 = true → commit.2.rootId = bind.2.rootId → commit.1 < bind.1

theorem keyed_replace (hl : state.runningJobs.lookup jobId = some job) (hkey : job'.key = job.key) :
    ({ state with runningJobs := state.runningJobs.replace jobId job' } : SchedulerState).keyed =
      state.keyed := by
  obtain ⟨before, after, hen, -, hr⟩ := AList.exists_entries_of_lookup hl
  unfold keyed
  rw [hen]
  rw [hr]
  simp [hkey]

theorem keyed_releaseJob_subset (hl : state.runningJobs.lookup jobId = some job) :
    (state.releaseJob jobId job).keyed ⊆ state.keyed := by
  obtain ⟨before, after, hen, hera, -⟩ := AList.exists_entries_of_lookup hl
  unfold keyed
  rw [hen]
  change (state.runningJobs.erase jobId).entries.map _ ⊆ _
  rw [hera]
  simp

variable {entry : ℕ × JobKey}

theorem mem_keyed_le {launches : ℕ} (h : state.Accounted config launches)
    (hen : entry ∈ state.keyed) : entry.1 ≤ launches := by
  obtain ⟨⟨jobId, job⟩, hmem, rfl⟩ := List.mem_map.1 hen
  exact h.ids jobId (List.mem_keys_of_mem hmem)

/-- A running job counts on its root. -/
theorem countedOn_pos (hen : entry ∈ state.keyed) (hk : kind.counts entry.2 = true) :
    0 < state.countedOn entry.2.rootId kind := by
  obtain ⟨⟨jobId, job⟩, hmem, rfl⟩ := List.mem_map.1 hen
  refine List.countP_pos_iff.2 ⟨job, List.mem_map.2 ⟨_, hmem, rfl⟩, ?_⟩
  simp [hk]

end SchedulerState

/-- The actors mirror the running jobs, and the lanes of a root exclude each other. -/
structure SchedulerState.Excludes (state : SchedulerState) : Prop where
  mirrors : state.Mirrors
  exclusive : ∀ rootId actor, state.actors rootId = some actor →
    Exclusive state.config.readCap actor.inflight
  commits : state.CommitsFirst

variable {rules : Rules}

namespace Ledger

variable {config : EffectiveConfig} {ledger ledger' : Ledger}

section

variable (h : ledger.state.Excludes) (hac : ledger.Accounted config)
include h hac

theorem Excludes.launch {channelOpen : Bool} (hact : ledger.state.actors rootId = some actor)
    (had : Admission rootId actor pass ledger.state.config actor' queued runJob)
    (hl : ledger.launched.length + 1 < 2 ^ 64) (now : Instant) (phase : Phase) :
    ((ledger.state.setActor rootId actor').launchRunJob (runJob.sent channelOpen) now
      phase).Excludes := by
  have hs := h.mirrors.sharedBind_le hact
  have hkey := runJob.key_sent channelOpen
  obtain ⟨hn, hf⟩ := hac.nextJobId hl
  refine ⟨?_, forall_actors_update h.exclusive ?_, ?_⟩
  · refine h.mirrors.launch hact ?_ (fun kind => ?_) ?_ hf now phase
    · exact (congrArg JobKey.rootId (hkey.trans had.key_eq))
    · rw [hkey]
      exact had.inflight hs kind
    · have hla : (runJob.sent channelOpen).lane = runJob.lane := congrArg JobKey.lane hkey
      have hr : (runJob.sent channelOpen).requestId = queued.requestId :=
        congrArg JobKey.requestId (hkey.trans had.key_eq)
      have hc : (runJob.sent channelOpen).command = queued.command :=
        congrArg JobKey.command (hkey.trans had.key_eq)
      rw [had.runningWriter, hla, hr, hc]
  · rintro after ⟨⟩
    exact had.exclusive hs (h.exclusive rootId actor hact)
  · have hk : ((ledger.state.setActor rootId actor').launchRunJob (runJob.sent channelOpen) now
        phase).keyed = (ledger.state.nextJobId, runJob.key) :: ledger.state.keyed := by
      rw [← hkey]
      change (ledger.state.runningJobs.insert ledger.state.nextJobId _).entries.map _ = _
      rw [AList.insert_of_notMem hf]
      rfl
    unfold SchedulerState.CommitsFirst
    rw [hk]
    intro bind hb commit hco hsh hcom hro
    have hm : Kind.writer.counts bind.2 = true := (Bool.and_eq_true _ _ ▸ hsh).1
    rcases List.mem_cons.1 hb with rfl | hb
    · rcases List.mem_cons.1 hco with rfl | hco
      · exact absurd ((beq_iff_eq.1 hm).symm.trans (beq_iff_eq.1 hcom)) (by decide)
      · have hle := mem_keyed_le hac.counters hco
        omega
    · rcases List.mem_cons.1 hco with rfl | hco
      · refine absurd (beq_iff_eq.1 hcom) (had.not_commit_of_writer ?_)
        rw [h.mirrors.inflight_of_some hact]
        have hpos := countedOn_pos hb hm
        rwa [← hro, had.key_eq] at hpos
      · exact h.commits bind hb commit hco hsh hcom hro

theorem Excludes.roundStep
    (hs : RoundStep rules ledger ledger') (hl : ledger'.launched.length < 2 ^ 64) :
    ledger'.state.Excludes := by
  cases hs with
  | move => exact ⟨⟨h.mirrors.inflight, h.mirrors.writer⟩, h.exclusive, h.commits⟩
  | @drop rootId actor actor' dropped answers hact hd =>
    refine ⟨h.mirrors.setActor hact hd.inflight hd.runningWriter,
      forall_actors_update h.exclusive ?_, h.commits⟩
    rintro after ⟨⟩
    rw [hd.inflight]
    exact h.exclusive rootId actor hact
  | @launch rootId actor actor' pass queued runJob channelOpen now hact hg had =>
    rw [List.length_append] at hl
    exact Excludes.launch h hac hact had hl now _

theorem Excludes.step
    (hs : Step .idleRemoval ledger ledger') (hl : ledger'.launched.length < 2 ^ 64) :
    ledger'.state.Excludes := by
  cases hs with
  | round hr => exact Excludes.roundStep h hac hr hl
  | register epoch hact =>
    refine ⟨h.mirrors.register hact epoch, forall_actors_update h.exclusive ?_, h.commits⟩
    rintro after ⟨⟩
    exact ⟨fun hw => absurd (show 0 = 1 from hw) (by decide), Nat.zero_le _⟩
  | remove hact hre =>
    exact ⟨h.mirrors.remove hact hre,
      forall_actors_update h.exclusive (fun after haf => by cases haf), h.commits⟩
  | settle => exact h
  | @queue rootId actor actor' job hact hq =>
    refine ⟨h.mirrors.setActor hact hq.inflight hq.runningWriter,
      forall_actors_update h.exclusive ?_, h.commits⟩
    rintro after ⟨⟩
    rw [hq.inflight]
    exact h.exclusive rootId actor hact
  | advance hlo had =>
    refine ⟨h.mirrors.advance hlo had.key, h.exclusive, ?_⟩
    unfold SchedulerState.CommitsFirst
    rw [keyed_replace hlo had.key]
    exact h.commits
  | @complete jobId job outcome requeue tokens hlo hp =>
    obtain ⟨actor, retry, dropped, hst, -, hc⟩ :=
      completeJob_spec tokens outcome requeue hlo
    rw [hst]
    refine ⟨h.mirrors.complete hlo hc retry, forall_actors_update h.exclusive ?_, ?_⟩
    · rintro after rfl
      cases hb : ledger.state.actors job.rootId with
      | none => exact absurd (hc.absent hb) (by simp)
      | some before =>
        obtain ⟨_, ⟨⟩, -, hin, -⟩ := hc.present before hb
        rw [hin]
        exact (h.exclusive job.rootId before hb).complete
          (ActorState.inflight_countCompleted (h.mirrors.sharedBind_eq_zero hlo hb))
          (Bool.toNat_le _)
    · intro bind hbi commit hco
      have hsu := keyed_releaseJob_subset hlo
      exact h.commits bind (hsu hbi) commit (hsu hco)

end

theorem Steps.excludes (h : Steps .idleRemoval ledger ledger') (hac : ledger.Accounted config)
    (hexc : ledger.state.Excludes) (hl : ledger'.launched.length < 2 ^ 64) :
    ledger'.state.Excludes := by
  induction h with
  | refl => exact hexc
  | tail hs hst ih =>
    have hle := hst.launched_le.trans_lt hl
    exact Excludes.step (ih hle) (Steps.accounted hs hac hle) hst hl

end Ledger

namespace System

variable {config : EffectiveConfig} {system : System}

theorem accounted_new (config : EffectiveConfig) : (new config).ledger.Accounted config :=
  ⟨SchedulerState.accounted_new config, fun _ _ h => by cases h⟩

theorem excludes_new (config : EffectiveConfig) : (new config).ledger.state.Excludes :=
  ⟨⟨fun _ _ => rfl, fun _ _ h => by cases h⟩, (fun _ _ h => by cases h),
    fun _ h => absurd h List.not_mem_nil⟩

theorem Reaches.accounted (h : Reaches rules (new config) system)
    (hl : system.launched.length < 2 ^ 64) : system.ledger.Accounted config :=
  Ledger.Steps.accounted h.steps (accounted_new config) hl

theorem Reaches.excludes (h : Reaches .idleRemoval (new config) system)
    (hl : system.launched.length < 2 ^ 64) : system.scheduler.Excludes :=
  Ledger.Steps.excludes h.steps (accounted_new config) (excludes_new config) hl

end System

end Aft.Executor
