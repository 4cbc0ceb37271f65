import Aft.Executor.Accounting
import Aft.Executor.Removal

/-!
# Every job is settled once

The sender of a job's response is in a queue of the job's own actor, with the worker of its
`running_jobs` entry, in the requeue slot of the entry's completion event, or used
(`submission_settled_once`). Steps other than submissions hand senders around on one root
(`Ledger.Settled.transfer`).
-/

namespace Aft.Executor

open List SchedulerState RunningJob

/-- No actor is removed, and the worker channel stays open. -/
def Rules.serving : Rules := ⟨fun _ => False, fun channelOpen => channelOpen = true⟩

/-- The job that is handed back with a completion event. -/
def RunningJob.requeued (job : RunningJob) : Option QueuedJob :=
  match job.phase with
  | .ended _ requeue => requeue
  | _ => none

/-- The tickets of the senders that a running job's worker or completion event holds. -/
def RunningJob.held (job : RunningJob) : List Ticket :=
  job.completion.toList ++ job.requeued.toList.map (·.completion)

variable {job : RunningJob} {actor : ActorState}

namespace SchedulerState

section

variable (state : SchedulerState) (rootId : ProjectRootId)

def queuedOn : List Ticket :=
  (state.actors rootId).elim [] fun actor => actor.jobs.map (·.completion)

/-- The tickets of the senders that the running jobs of a root hold. -/
def heldOn : List Ticket :=
  (state.running.filter (·.rootId = rootId)).flatMap (·.held)

def sendersOn : List Ticket :=
  state.queuedOn rootId ++ state.heldOn rootId

end

variable {state : SchedulerState} {rootId : ProjectRootId}

theorem queuedOn_update_self (actor : Option ActorState) :
    ({ state with actors := Function.update state.actors rootId actor } : SchedulerState).queuedOn
      rootId = actor.elim [] fun actor => actor.jobs.map (·.completion) := by
  simp [queuedOn]

theorem queuedOn_update_ne (actor : Option ActorState) {root : ProjectRootId} (h : root ≠ rootId) :
    ({ state with actors := Function.update state.actors rootId actor } : SchedulerState).queuedOn
      root = state.queuedOn root := by
  simp [queuedOn, Function.update_of_ne h]

/-- The senders that running jobs hold, with one of them in front. -/
theorem held_middle (before after : List RunningJob) (job : RunningJob) :
    (((before ++ job :: after).filter (·.rootId = rootId)).flatMap (·.held)).Perm
      ((if job.rootId = rootId then job.held else []) ++
        ((before ++ after).filter (·.rootId = rootId)).flatMap (·.held)) := by
  rw [filter_append, filter_cons, filter_append, flatMap_append, flatMap_append]
  split <;> rename_i hr
  · rw [if_pos (of_decide_eq_true hr)]
    exact perm_append_comm_assoc _ _ _
  · rw [if_neg (by simpa using hr)]
    exact List.Perm.refl _

theorem held_middle_of_ne (before after : List RunningJob) (h : rootId ≠ job.rootId) :
    ((before ++ job :: after).filter (·.rootId = rootId)).flatMap (·.held) =
      ((before ++ after).filter (·.rootId = rootId)).flatMap (·.held) := by
  rw [filter_append, filter_cons_of_neg (by simpa using h.symm), filter_append]

theorem queuedOn_of_some (h : state.actors rootId = some actor) :
    state.queuedOn rootId = actor.jobs.map (·.completion) := by
  simp [queuedOn, h]

end SchedulerState

theorem map_elim_jobs (actor : Option ActorState) :
    (actor.elim [] (·.jobs)).map (·.completion) =
      actor.elim [] fun actor => actor.jobs.map (·.completion) := by
  cases actor <;> rfl

/-! ## Senders -/

variable {ticket : Ticket} {rootId : ProjectRootId}

namespace Ledger

def answered (ledger : Ledger) : List Ticket := ledger.answers.map Prod.fst

/-- The sender of every submission is in one place on its own root, or was used once. -/
structure Settled (ledger : Ledger) : Prop where
  once : ∀ rootId ticket,
    (ledger.state.sendersOn rootId).count ticket +
        (if ledger.submitted[ticket]? = some rootId then ledger.answered.count ticket else 0) =
      if ledger.submitted[ticket]? = some rootId then 1 else 0
  known : ∀ ticket, ledger.submitted[ticket]? = none → ledger.answered.count ticket = 0

variable {ledger ledger' : Ledger}

theorem Settled.submitted_of_mem (h : ledger.Settled)
    (hmem : ticket ∈ ledger.state.sendersOn rootId) : ledger.submitted[ticket]? = some rootId := by
  by_contra ho
  have hon := h.once rootId ticket
  rw [if_neg ho, if_neg ho] at hon
  have hpos := count_pos_iff.2 hmem
  omega

/-- Senders move between the queues, the running jobs and the answers of one root. -/
theorem Settled.transfer (h : ledger.Settled) (rootId : ProjectRootId)
    (hs : ledger'.submitted = ledger.submitted) (sent : List Ticket)
    (han : ledger'.answered = ledger.answered ++ sent)
    {queued held : List Ticket} (hq : ledger'.state.queuedOn rootId = queued)
    (hh : ledger'.state.heldOn rootId = held)
    (hp : (ledger.state.queuedOn rootId ++ ledger.state.heldOn rootId).Perm
      (sent ++ (queued ++ held)))
    (ho : ∀ root, root ≠ rootId →
      ledger'.state.queuedOn root = ledger.state.queuedOn root ∧
        ledger'.state.heldOn root = ledger.state.heldOn root) : ledger'.Settled := by
  have hsa : (ledger.state.sendersOn rootId).Perm (sent ++ ledger'.state.sendersOn rootId) := by
    rw [sendersOn, sendersOn, hq, hh]
    exact hp
  have hse : ∀ ticket, ledger.submitted[ticket]? ≠ some rootId → sent.count ticket = 0 := by
    intro ticket hot
    refine count_eq_zero.2 fun hmem => hot (h.submitted_of_mem ?_)
    exact hsa.symm.subset (mem_append_left _ hmem)
  constructor
  · intro root ticket
    have hon := h.once root ticket
    rw [hs, han, count_append]
    by_cases hr : root = rootId
    · subst hr
      have hc := hsa.count_eq ticket
      rw [count_append] at hc
      split at hon
      · rw [if_pos ‹_›, if_pos ‹_›]
        omega
      · rw [if_neg ‹_›, if_neg ‹_›]
        omega
    · rw [sendersOn, (ho root hr).1, (ho root hr).2]
      split at hon
      · rw [if_pos ‹_›, if_pos ‹_›, hse ticket]
        · exact hon
        · rintro hown
          exact hr (Option.mem_unique (‹_ = some root›) hown)
      · rw [if_neg ‹_›, if_neg ‹_›]
        exact hon
  · intro ticket hn
    rw [hs] at hn
    rw [han, count_append, h.known ticket hn, hse ticket (by simp [hn])]

/-! ## The jobs that senders belong to -/

end Ledger

/-- The worker of a running job has the sender of the job until its completion event is sent. -/
def RunningJob.Linked (job : RunningJob) : Prop :=
  match job.phase with
  | .ended _ requeue =>
    job.completion = none ∧ ∀ queued, requeue = some queued → queued.job = queued.completion
  | _ => job.completion = some job.job

variable {job' : RunningJob} {answers : List (Ticket × Response)} {invoked : List Ticket}

theorem RunningJob.Advance.linked (h : job.Advance job' answers invoked) (hl : job.Linked) :
    job'.Linked := by
  cases h with
  | start hp =>
    rw [Linked, hp] at hl
    exact hl
  | answer => exact ⟨rfl, nofun⟩
  | handBack now hp =>
    have hc : job.completion = some job.job := by
      rcases hp with hp | hp <;> rw [Linked, hp] at hl <;> exact hl
    refine ⟨rfl, fun queued hq => ?_⟩
    rw [hc, Option.map_some, Option.some_inj] at hq
    rw [← hq]
    rfl

/-- A step of a worker uses the sender, or leaves it with the entry. -/
theorem RunningJob.Advance.held (h : job.Advance job' answers invoked) :
    job.held = answers.map Prod.fst ++ job'.held := by
  cases h with
  | start hp => simp [held, requeued, hp]
  | answer response outcome hp =>
    rcases hp with hp | hp <;> cases hc : job.completion <;>
      simp [held, requeued, hp, hc]
  | handBack now hp =>
    rcases hp with hp | hp <;> cases hc : job.completion <;>
      simp [held, requeued, hp, hc, System.requeuedJob]

namespace Ledger

/-- Every sender belongs to the job that it travels with, and only launched jobs run. -/
structure Linked (ledger : Ledger) : Prop where
  queued : ∀ rootId actor, ledger.state.actors rootId = some actor →
    ∀ job ∈ actor.jobs, job.job = job.completion
  running : ∀ job ∈ ledger.state.running, job.Linked ∧ job.job ∈ ledger.launched
  invoked : ∀ ticket ∈ ledger.invoked, ticket ∈ ledger.launched

variable {config : EffectiveConfig} {ledger ledger' : Ledger}

theorem running_launch (hac : ledger.Accounted config)
    (hl : ledger.launched.length + 1 < 2 ^ 64) (rootId : ProjectRootId) (actor : ActorState)
    (runJob : RunJob) (now : Instant) :
    ((ledger.state.setActor rootId actor).launchRunJob (runJob.sent true) now
        (.launched true)).running =
      { runJob with startedAt := now, phase := .dispatched } :: ledger.state.running :=
  running_launchRunJob _ _ _ (hac.nextJobId hl).2

theorem Linked.roundStep (h : ledger.Linked) (hac : ledger.Accounted config)
    (hs : RoundStep .serving ledger ledger') (hl : ledger'.launched.length < 2 ^ 64) :
    ledger'.Linked := by
  cases hs with
  | move => exact ⟨h.queued, h.running, h.invoked⟩
  | @drop rootId actor actor' dropped answers hact hd =>
    refine ⟨forall_actors_update h.queued ?_, h.running, h.invoked⟩
    rintro after ⟨⟩ job hjob
    exact h.queued rootId actor hact job (hd.jobs.symm.subset (mem_append_right _ hjob))
  | @launch rootId actor actor' pass queued runJob _ now hact hg had hc =>
    rw [length_append] at hl
    obtain rfl := hc
    have hq : ∀ job ∈ queued :: actor'.jobs, job.job = job.completion :=
      fun job hjob => h.queued rootId actor hact job (had.jobs.symm.subset hjob)
    refine ⟨forall_actors_update h.queued ?_, ?_, ?_⟩
    · rintro after ⟨⟩ job hjob
      exact hq job (mem_cons_of_mem _ hjob)
    · dsimp only
      rw [running_launch hac hl]
      refine forall_mem_cons.2 ⟨⟨?_, mem_append_right _ (mem_singleton_self _)⟩, fun job hjob => ?_⟩
      · have hco : runJob.completion = some runJob.job := by
          rw [had.runJob_eq]
          exact congrArg some (hq queued mem_cons_self).symm
        exact hco
      · exact ⟨(h.running job hjob).1, mem_append_left _ (h.running job hjob).2⟩
    · exact fun ticket ht => mem_append_left _ (h.invoked ticket ht)

theorem Linked.step (h : ledger.Linked) (hac : ledger.Accounted config)
    (hs : Step .serving ledger ledger') (hl : ledger'.launched.length < 2 ^ 64) :
    ledger'.Linked := by
  cases hs with
  | round hr => exact h.roundStep hac hr hl
  | register epoch hact =>
    refine ⟨forall_actors_update h.queued ?_, h.running, h.invoked⟩
    rintro after ⟨⟩ job hjob
    exact absurd hjob not_mem_nil
  | remove hact hre => exact absurd hre id
  | settle => exact ⟨h.queued, h.running, h.invoked⟩
  | @queue rootId actor actor' job hact hq hjob hc =>
    refine ⟨forall_actors_update h.queued ?_, h.running, h.invoked⟩
    rintro after ⟨⟩ other ho
    rcases mem_cons.1 (hq.jobs.subset ho) with rfl | ho
    · exact hjob.trans hc.symm
    · exact h.queued rootId actor hact other ho
  | @advance jobId job job' answers invoked hlo had =>
    obtain ⟨before, after, hru, -, hrep⟩ := running_of_lookup hlo
    have hjob : job.Linked ∧ job.job ∈ ledger.launched :=
      h.running job (hru ▸ mem_append_right _ mem_cons_self)
    have hsa : job'.job = job.job := by cases had <;> rfl
    refine ⟨h.queued, fun other ho => ?_, fun ticket ht => ?_⟩
    · have hmem : other ∈ before ++ job' :: after := hrep job' ▸ ho
      rcases mem_append.1 hmem with hb | hres
      · exact h.running other (hru ▸ mem_append_left _ hb)
      · rcases mem_cons.1 hres with rfl | haf
        · exact ⟨had.linked hjob.1, hsa ▸ hjob.2⟩
        · exact h.running other (hru ▸ mem_append_right _ (mem_cons_of_mem _ haf))
    · rcases mem_append.1 ht with hold | hnew
      · exact h.invoked ticket hold
      · cases had with
        | start => exact mem_singleton.1 hnew ▸ hjob.2
        | _ => exact absurd hnew not_mem_nil
  | @complete jobId job outcome requeue tokens hlo hp =>
    obtain ⟨actor, retry, dropped, hst, -, hco⟩ :=
      completeJob_spec tokens outcome requeue hlo
    obtain ⟨before, after, hru, hera, -⟩ := running_of_lookup hlo
    have hjob : job.Linked :=
      (h.running job (hru ▸ mem_append_right _ mem_cons_self)).1
    rw [RunningJob.Linked, hp] at hjob
    rw [hst]
    refine ⟨forall_actors_update h.queued ?_, fun other ho => ?_, h.invoked⟩
    · rintro after rfl queued hqu
      rcases mem_append.1 (hco.jobs.symm.subset (mem_append_right _ hqu)) with
        hreq | hb
      · exact hjob.2 queued (by simpa using hreq)
      · cases hact : ledger.state.actors job.rootId with
        | none => simp [hact] at hb
        | some actor =>
          rw [hact] at hb
          exact h.queued job.rootId actor hact queued hb
    · have hmem : other ∈ before ++ after := hera ▸ ho
      refine h.running other (hru ▸ ?_)
      rcases mem_append.1 hmem with hb | haf
      · exact mem_append_left _ hb
      · exact mem_append_right _ (mem_cons_of_mem _ haf)

variable {actor' : ActorState}

theorem Settled.drop (h : ledger.Settled) {dropped : List QueuedJob}
    (hac : ledger.state.actors rootId = some actor) (hd : actor.Drops actor' dropped)
    (han : answers.map Prod.fst = dropped.map (·.completion)) :
    Settled { ledger with
      state := ledger.state.setActor rootId actor', answers := ledger.answers ++ answers } := by
  refine h.transfer rootId rfl (dropped.map (·.completion)) ?_
    (queuedOn_update_self (some actor')) rfl ?_
    fun root ho => ⟨queuedOn_update_ne _ ho, rfl⟩
  · simp [answered, han]
  · have hq := (hd.jobs.map (·.completion)).append_right (ledger.state.heldOn rootId)
    rw [map_append, append_assoc] at hq
    rw [queuedOn_of_some hac]
    exact hq

theorem Settled.launch (h : ledger.Settled) (hac : ledger.Accounted config) {pass : AdmissionPass}
    {queued : QueuedJob} {runJob : RunJob} (hact : ledger.state.actors rootId = some actor)
    (had : Admission rootId actor pass ledger.state.config actor' queued runJob)
    (hl : ledger.launched.length + 1 < 2 ^ 64) (now : Instant) :
    Settled { ledger with
      state := (ledger.state.setActor rootId actor').launchRunJob (runJob.sent true) now
        (.launched true)
      launched := ledger.launched ++ [runJob.job] } := by
  have hr : runJob.rootId = rootId := congrArg RunJob.rootId had.runJob_eq
  have hc : runJob.completion = some queued.completion :=
    congrArg RunJob.completion had.runJob_eq
  have hh (root : ProjectRootId) : ((ledger.state.setActor rootId actor').launchRunJob
      (runJob.sent true) now (.launched true)).heldOn root =
        (if root = rootId then [queued.completion] else []) ++ ledger.state.heldOn root := by
    rw [heldOn, running_launch hac hl]
    by_cases ho : root = rootId
    · simp [hr, ho, held, requeued, hc, heldOn]
    · simp [hr, ho, Ne.symm ho, heldOn]
  refine h.transfer rootId rfl [] (append_nil _).symm
    (queuedOn_update_self (some actor')) (hh rootId) ?_ fun root ho => ⟨?_, ?_⟩
  · have hq := (had.jobs.map (·.completion)).append_right (ledger.state.heldOn rootId)
    rw [queuedOn_of_some hact, if_pos rfl]
    exact hq.trans perm_middle.symm
  · exact queuedOn_update_ne _ ho
  · rw [hh, if_neg ho, nil_append]

variable {jobId : ℕ}

section

variable (h : ledger.Settled)
include h

theorem Settled.advance (hl : ledger.state.runningJobs.lookup jobId = some job)
    (had : job.Advance job' answers invoked) :
    Settled { ledger with
      state := { ledger.state with runningJobs := ledger.state.runningJobs.replace jobId job' }
      answers := ledger.answers ++ answers
      invoked := ledger.invoked ++ invoked } := by
  obtain ⟨before, after, hr, -, hre⟩ := running_of_lookup hl
  have hro : job'.rootId = job.rootId := congrArg JobKey.rootId had.key
  refine h.transfer job.rootId rfl (answers.map Prod.fst) (map_append ..) rfl rfl ?_
    fun root ho => ⟨rfl, ?_⟩
  · refine List.Perm.trans (List.Perm.append_left _ ?_) (perm_append_comm_assoc _ _ _)
    rw [heldOn, hr, heldOn, running, hre]
    refine (held_middle _ _ _).trans ?_
    refine List.Perm.trans ?_ ((held_middle _ _ _).symm.append_left _)
    rw [if_pos rfl, if_pos hro, had.held, append_assoc]
  · rw [heldOn, running, hre, heldOn, hr,
      held_middle_of_ne _ _ (hro ▸ ho), held_middle_of_ne _ _ ho]

theorem Settled.complete (hl : ledger.Linked) {outcome : JobCompletionOutcome}
    {requeue : Option QueuedJob} (tokens : Token → TokenState)
    (hlo : ledger.state.runningJobs.lookup jobId = some job)
    (hp : job.phase = .ended outcome requeue) :
    Settled { ledger with
      state := (completeJob ledger.state tokens jobId outcome requeue).1
      answers := ledger.answers ++ (completeJob ledger.state tokens jobId outcome requeue).2 } := by
  obtain ⟨actor, retry, dropped, hs, han, hc⟩ :=
    completeJob_spec tokens outcome requeue hlo
  obtain ⟨before, after, hr, hera, -⟩ := running_of_lookup hlo
  have hjob : job.Linked :=
    (hl.running job (hr ▸ mem_append_right _ mem_cons_self)).1
  rw [RunningJob.Linked, hp] at hjob
  have hh : job.held = requeue.toList.map (·.completion) := by
    simp [held, requeued, hp, hjob.1]
  have heras (root : ProjectRootId) : (ledger.state.completed jobId job actor retry).heldOn root =
      ((before ++ after).filter (·.rootId = root)).flatMap (·.held) := by
    rw [← hera]
    rfl
  rw [hs]
  refine h.transfer job.rootId rfl (dropped.map (·.completion)) ?_
    (queuedOn_update_self actor) (heras job.rootId) ?_
    fun root ho => ⟨queuedOn_update_ne _ ho, ?_⟩
  · rw [answered, map_append, han]
    rfl
  · have hj := hc.jobs.map (·.completion)
    rw [map_append, map_append, ← hh, map_elim_jobs, map_elim_jobs] at hj
    rw [← append_assoc]
    refine List.Perm.trans ?_ (hj.append_right _)
    rw [heldOn, hr]
    refine ((held_middle before after job).append_left _).trans ?_
    rw [if_pos rfl, ← append_assoc]
    exact perm_append_comm.append_right _
  · rw [heras, heldOn, hr, held_middle_of_ne _ _ ho]

/-- The ticket of the next submission was not used yet. -/
theorem Settled.next :
    (∀ rootId, (ledger.state.sendersOn rootId).count ledger.submitted.length = 0) ∧
      ledger.answered.count ledger.submitted.length = 0 := by
  have hn : ledger.submitted[ledger.submitted.length]? = none := by simp
  refine ⟨fun rootId => ?_, h.known _ hn⟩
  have ho := h.once rootId ledger.submitted.length
  rwa [hn] at ho

/-- A submission adds a ticket, whose sender goes to a queue of its root or is used. -/
theorem Settled.submit (rootId : ProjectRootId)
    (hs : ledger'.submitted = ledger.submitted ++ [rootId])
    (hnew : (ledger'.state.sendersOn rootId).count ledger.submitted.length +
      ledger'.answered.count ledger.submitted.length = 1)
    (ho : ∀ root, root ≠ rootId → (ledger'.state.sendersOn root).count ledger.submitted.length = 0)
    (hold : ∀ ticket, ticket ≠ ledger.submitted.length →
      ledger'.answered.count ticket = ledger.answered.count ticket ∧
        ∀ root, (ledger'.state.sendersOn root).count ticket =
          (ledger.state.sendersOn root).count ticket) : ledger'.Settled := by
  have hl : ledger'.submitted[ledger.submitted.length]? = some rootId := by simp [hs]
  have hsa : ∀ ticket, ticket ≠ ledger.submitted.length →
      ledger'.submitted[ticket]? = ledger.submitted[ticket]? := by
    intro ticket ht
    rw [hs]
    rcases Nat.lt_or_gt_of_ne ht with hlt | hgt
    · exact getElem?_append_left hlt
    · rw [getElem?_eq_none (by simp; omega), getElem?_eq_none (by omega)]
  constructor
  · intro root ticket
    by_cases ht : ticket = ledger.submitted.length
    · subst ht
      rw [hl]
      by_cases hr : root = rootId
      · rw [if_pos (congrArg some hr.symm), if_pos (congrArg some hr.symm), hr, hnew]
      · have hne : some rootId ≠ some root := fun h => hr (Option.some_inj.1 h).symm
        rw [if_neg hne, if_neg hne, ho root hr]
    · rw [hsa ticket ht, (hold ticket ht).1, (hold ticket ht).2 root]
      exact h.once root ticket
  · intro ticket hn
    have ht : ticket ≠ ledger.submitted.length := by
      rintro rfl
      rw [hl] at hn
      cases hn
    rw [(hold ticket ht).1]
    exact h.known ticket (hsa ticket ht ▸ hn)

theorem Settled.settle (rootId : ProjectRootId) (response : Response) :
    Settled { ledger with
      submitted := ledger.submitted ++ [rootId]
      answers := ledger.answers ++ [(ledger.submitted.length, response)] } := by
  obtain ⟨hs, han⟩ := h.next
  have hc (ticket : Ticket) :
      ((ledger.answers ++ [(ledger.submitted.length, response)]).map Prod.fst).count ticket =
        ledger.answered.count ticket + [ledger.submitted.length].count ticket := by
    rw [map_append, count_append]
    rfl
  refine h.submit rootId rfl ?_ (fun root _ => hs root) fun ticket ht => ⟨?_, fun _ => rfl⟩
  · have hone := hc ledger.submitted.length
    rw [han, count_singleton_self] at hone
    exact congrArg₂ _ (hs rootId) hone
  · exact (hc ticket).trans (by simp [ht.symm])

theorem Settled.queue {job : QueuedJob} (hac : ledger.state.actors rootId = some actor)
    (hq : actor.Queues actor' job) (hc : job.completion = ledger.submitted.length) :
    Settled { ledger with
      state := ledger.state.setActor rootId actor'
      submitted := ledger.submitted ++ [rootId] } := by
  obtain ⟨hs, han⟩ := h.next
  have hse (ticket : Ticket) : ((ledger.state.setActor rootId actor').sendersOn rootId).count ticket =
      (ledger.state.sendersOn rootId).count ticket + [ledger.submitted.length].count ticket := by
    have hj := (hq.jobs.map (·.completion)).count_eq ticket
    have hqu : (ledger.state.setActor rootId actor').queuedOn rootId =
        actor'.jobs.map (·.completion) := queuedOn_update_self (some actor')
    rw [sendersOn, sendersOn, hqu, queuedOn_of_some hac, count_append, count_append, hj,
      map_cons, hc, count_cons, count_singleton]
    exact Nat.add_right_comm _ _ _
  have ho (root : ProjectRootId) (hr : root ≠ rootId) :
      (ledger.state.setActor rootId actor').sendersOn root = ledger.state.sendersOn root :=
    congrArg (· ++ ledger.state.heldOn root) (queuedOn_update_ne _ hr)
  refine h.submit rootId rfl ?_ (fun root hr => ?_) fun ticket ht => ⟨rfl, fun root => ?_⟩
  · exact (congrArg₂ _ ((hse _).trans (by simp [hs])) han)
  · exact (congrArg _ (ho root hr)).trans (hs root)
  · by_cases hr : root = rootId
    · rw [hr]
      exact (hse ticket).trans (by simp [ht.symm])
    · exact congrArg _ (ho root hr)

theorem Settled.step (hl : ledger.Linked) (hac : ledger.Accounted config)
    (hs : Step .serving ledger ledger') (hla : ledger'.launched.length < 2 ^ 64) :
    ledger'.Settled := by
  cases hs with
  | round hr =>
    cases hr with
    | move => exact ⟨h.once, h.known⟩
    | drop hact hd han => exact h.drop hact hd han
    | launch now hact hg had hc =>
      rw [length_append] at hla
      obtain rfl := hc
      exact h.launch hac hact had hla now
  | @register rootId epoch hact =>
    have hq : ledger.state.queuedOn rootId = [] := by simp [queuedOn, hact]
    refine h.transfer rootId rfl [] (append_nil _).symm
      (queuedOn_update_self (some (.new epoch))) rfl ?_
      fun root ho => ⟨queuedOn_update_ne _ ho, rfl⟩
    rw [hq]
    exact List.Perm.refl _
  | remove hact hre => exact absurd hre id
  | settle rootId response => exact h.settle rootId response
  | queue hact hqu hjob hco => exact h.queue hact hqu hco
  | advance hlo hadv => exact h.advance hlo hadv
  | complete tokens hlo hp => exact h.complete hl tokens hlo hp

end

theorem Step.answered_subset {rules : Rules} (h : Step rules ledger ledger') :
    ledger.answered ⊆ ledger'.answered := by
  have hap (answers : List (Ticket × Response)) :
      ledger.answered ⊆ (ledger.answers ++ answers).map Prod.fst :=
    map_subset _ (subset_append_left _ _)
  cases h with
  | round hr =>
    cases hr with
    | drop => exact hap _
    | _ => exact List.Subset.refl _
  | settle | advance | complete => exact hap _
  | _ => exact List.Subset.refl _

theorem Settled.not_launched (h : ledger.Settled) (hl : ledger.Linked)
    (hs : Step .serving ledger ledger') (han : ticket ∈ ledger.answered)
    (ht : ticket ∉ ledger.launched) : ticket ∉ ledger'.launched := by
  cases hs with
  | round hr =>
    cases hr with
    | @launch rootId actor actor' pass queued runJob _ now hac hg had =>
      have hq : queued ∈ actor.jobs := had.jobs.symm.subset mem_cons_self
      have hjob : runJob.job = queued.completion :=
        (congrArg RunJob.job had.runJob_eq).trans (hl.queued rootId actor hac queued hq)
      rintro hla
      rcases mem_append.1 hla with hold | hnew
      · exact ht hold
      · obtain rfl : ticket = queued.completion := (mem_singleton.1 hnew).trans hjob
        have hmem : queued.completion ∈ ledger.state.sendersOn rootId := by
          rw [sendersOn, queuedOn_of_some hac]
          exact mem_append_left _ (mem_map_of_mem hq)
        have ho := h.once rootId queued.completion
        rw [if_pos (h.submitted_of_mem hmem), if_pos (h.submitted_of_mem hmem)] at ho
        have hse := count_pos_iff.2 hmem
        have hans := count_pos_iff.2 han
        omega
    | _ => exact ht
  | _ => exact ht

/-! ## Runs -/

/-- What holds of the senders and the jobs in every state that is reached. -/
structure Kept (config : EffectiveConfig) (ledger : Ledger) : Prop where
  accounted : ledger.Accounted config
  linked : ledger.Linked
  settled : ledger.Settled

theorem Kept.step (h : ledger.Kept config) (hs : Step .serving ledger ledger')
    (hl : ledger'.launched.length < 2 ^ 64) : ledger'.Kept config :=
  ⟨h.accounted.step hs hl, h.linked.step h.accounted hs hl,
    h.settled.step h.linked h.accounted hs hl⟩

theorem Kept.steps (h : ledger.Kept config) (hs : Steps .serving ledger ledger')
    (hl : ledger'.launched.length < 2 ^ 64) : ledger'.Kept config := by
  induction hs with
  | refl => exact h
  | tail _ hst ih => exact (ih (hst.launched_le.trans_lt hl)).step hst hl

theorem Kept.not_launched (h : ledger.Kept config) (hs : Steps .serving ledger ledger')
    (hl : ledger'.launched.length < 2 ^ 64) (han : ticket ∈ ledger.answered)
    (ht : ticket ∉ ledger.launched) : ticket ∈ ledger'.answered ∧ ticket ∉ ledger'.launched := by
  induction hs with
  | refl => exact ⟨han, ht⟩
  | tail hs hst ih =>
    have hle := hst.launched_le.trans_lt hl
    have hmid := h.steps hs hle
    obtain ⟨han, ht⟩ := ih hle
    exact ⟨hst.answered_subset han, hmid.settled.not_launched hmid.linked hst han ht⟩

end Ledger

namespace System

variable {config : EffectiveConfig} {system : System}

theorem kept_new (config : EffectiveConfig) : (new config).ledger.Kept config where
  accounted := ⟨SchedulerState.accounted_new config, fun _ _ h => by cases h⟩
  linked := ⟨(fun _ _ h => by cases h), fun _ h => absurd h not_mem_nil, nofun⟩
  settled := ⟨fun _ _ => rfl, fun _ _ => rfl⟩

theorem Reaches.kept (h : Reaches .serving (new config) system)
    (hl : system.launched.length < 2 ^ 64) : system.ledger.Kept config :=
  (kept_new config).steps h.steps hl

def answered (system : System) : List Ticket := system.answers.map Prod.fst

/-- While no actor is removed, the channel is served and job ids do not come back, the sender of
every submitted job is in one queue of its own actor, with the worker or in the requeue slot of one
running job of its root, or was used exactly once. A job answered before its launch is never
invoked. -/
theorem submission_settled_once (h : Reaches .serving (new config) system)
    (hlaunched : system.launched.length < 2 ^ 64) :
    (∀ ticket rootId, system.submitted[ticket]? = some rootId →
      (system.scheduler.queuedOn rootId).count ticket +
          (system.scheduler.heldOn rootId).count ticket + system.answered.count ticket = 1 ∧
        ∀ other, other ≠ rootId →
          ticket ∉ system.scheduler.queuedOn other ∧ ticket ∉ system.scheduler.heldOn other) ∧
      ∀ ticket ∈ system.answered, ticket ∉ system.launched →
        ∀ later, Reaches .serving system later → later.launched.length < 2 ^ 64 →
          ticket ∉ later.invoked := by
  have hkept := h.kept hlaunched
  refine ⟨fun ticket rootId hroot => ⟨?_, fun other hother => ?_⟩, ?_⟩
  · have honce := hkept.settled.once rootId ticket
    have hsubmitted : system.ledger.submitted[ticket]? = some rootId := hroot
    rw [if_pos hsubmitted, if_pos hsubmitted, SchedulerState.sendersOn, count_append] at honce
    exact honce
  · have hsenders : ticket ∉ system.scheduler.sendersOn other := fun hmem =>
      hother (Option.mem_unique (hkept.settled.submitted_of_mem hmem) hroot)
    exact ⟨fun hmem => hsenders (mem_append_left _ hmem),
      fun hmem => hsenders (mem_append_right _ hmem)⟩
  · intro ticket hanswered hticket later hlater hless hinvoked
    refine (hkept.not_launched hlater.steps hless hanswered hticket).2 ?_
    exact ((hkept.steps hlater.steps hless).linked.invoked ticket hinvoked)

end System

namespace Settlement

/-- The executor while the worker runs a submitted writer. -/
def writing : System :=
  (((System.new Removal.config).registerActor "r").apply Removal.edit).dispatch Removal.roundEnv

theorem reaches_writing : System.Reaches .serving (.new Removal.config) writing :=
  .step (.dispatch Removal.roundEnv) (.step Removal.edit (.step (.registerActor "r") .refl trivial)
    trivial) fun _ => rfl

theorem submission_settled_once_writing :
    (writing.scheduler.queuedOn "r").count 0 + (writing.scheduler.heldOn "r").count 0 +
      writing.answered.count 0 = 1 :=
  ((System.submission_settled_once reaches_writing (by decide +kernel)).1 0 "r"
    (by decide +kernel)).1

/-- Between the response and the completion event a job is settled and still among the running
jobs. -/
theorem answered_while_running :
    ∃ system, System.Reaches .serving (.new Removal.config) system ∧ 0 ∈ system.answered ∧
      ∃ job ∈ system.scheduler.running, job.job = 0 :=
  ⟨(writing.start 1).finish 1 (.reply ""),
    .step (.finish 1 (.reply "")) (.step (.start 1) reaches_writing trivial) trivial,
    by decide +kernel, by decide +kernel⟩

end Settlement

end Aft.Executor
