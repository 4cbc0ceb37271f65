import Aft.Hashline.Composition
import Aft.Hashline.TransactionRun

/-!
# The law of a transaction

The rows of a run follow the steps: applied steps, at most one that stopped, then steps that were
not attempted. Under every pattern of outcomes the rows are right about the disk, and the operation
id about the journal, exactly when no step that can be carried out shares a path with a later one
and the backup store keeps records (`executeTransaction_lawful_iff`).
-/

namespace Aft.Hashline

open List PlannedStep FileClassification StepIo ExecState

/-- Rows of applied steps, then of at most one stopped step, then of steps not attempted. -/
inductive StepOrder : List PlannedStep → List FileOutcome → Prop
  | nil : StepOrder [] []
  | applied {step rest rows files} (hpaths : rows.map FileOutcome.canonicalPath = step.paths)
      (hrows : ∀ row ∈ rows, row.classification.isAppliedStar = true)
      (hrest : StepOrder rest files) : StepOrder (step :: rest) (rows ++ files)
  | stopped {step rest rows files} (hpaths : rows.map FileOutcome.canonicalPath = step.paths)
      (hrows : ∃ row ∈ rows, row.classification.isAppliedStar = false)
      (hrest : files.map FileOutcome.canonicalPath = rest.flatMap PlannedStep.paths)
      (hfiles : ∀ row ∈ files, row.classification = .notAttempted) :
      StepOrder (step :: rest) (rows ++ files)

variable {steps : List PlannedStep} {files : List FileOutcome}

theorem StepOrder.paths (h : StepOrder steps files) :
    files.map FileOutcome.canonicalPath = steps.flatMap paths := by
  induction h with
  | nil => rfl
  | applied hp _ _ ih => rw [map_append, flatMap_cons, hp, ih]
  | stopped hp _ hr _ => rw [map_append, flatMap_cons, hp, hr]

variable {row : FileOutcome}

theorem StepOrder.path_mem (h : StepOrder steps files) (hrow : row ∈ files) :
    ∃ step ∈ steps, row.canonicalPath ∈ step.paths := by
  rw [← mem_flatMap, ← h.paths]
  exact mem_map_of_mem hrow

theorem notAttemptedForStep_paths (step : PlannedStep) :
    (notAttemptedForStep step).map FileOutcome.canonicalPath = step.paths := by
  cases step <;> rfl

variable {step : PlannedStep}

theorem mem_notAttemptedForStep (h : row ∈ notAttemptedForStep step) :
    row.classification = .notAttempted ∧ row.mutationState = .unmutated := by
  cases step with
  | mutate file =>
    obtain rfl := mem_singleton.1 h
    exact ⟨rfl, rfl⟩
  | mv mv =>
    rcases mem_cons.1 h with rfl | h
    · exact ⟨rfl, rfl⟩
    · obtain rfl := mem_singleton.1 h
      exact ⟨rfl, rfl⟩

/-- No step that can be carried out has a path twice or shares one with a later step. -/
def Separate : List PlannedStep → Prop
  | [] => True
  | step :: rest => step.Runnable →
      step.paths.Nodup ∧ (∀ later ∈ rest, step.paths.Disjoint later.paths) ∧ Separate rest

variable {rest : List PlannedStep} {index : ℕ} {state : ExecState}

section Loop

variable (ctx : ExecuteContext)

theorem executeSteps_applied {ctx : ExecuteContext}
    (h : (executeStep ctx index step state).1.isApplied = true) :
    executeSteps ctx index (step :: rest) state =
      ((executeStep ctx index step state).1.outcomes ++
          (executeSteps ctx (index + 1) rest (executeStep ctx index step state).2).1,
        (executeSteps ctx (index + 1) rest (executeStep ctx index step state).2).2) := by
  rw [executeSteps]
  generalize executeStep ctx index step state = result at h ⊢
  rcases result with ⟨_ | _, next⟩
  · rfl
  · cases h

theorem executeSteps_stopped {ctx : ExecuteContext}
    (h : (executeStep ctx index step state).1.isApplied = false) :
    (executeSteps ctx index (step :: rest) state).1 =
        (executeStep ctx index step state).1.outcomes ++ rest.flatMap notAttemptedForStep ∧
      (executeSteps ctx index (step :: rest) state).2.2 = (executeStep ctx index step state).2 := by
  rw [executeSteps]
  generalize executeStep ctx index step state = result at h ⊢
  rcases result with ⟨_ | _, next⟩
  · cases h
  · exact ⟨rfl, rfl⟩

section

variable (index : ℕ) (steps : List PlannedStep) (state : ExecState)

theorem executeSteps_order : StepOrder steps (executeSteps ctx index steps state).1 := by
  induction steps generalizing index state with
  | nil => exact .nil
  | cons step rest ih =>
    have hs := executeStep_spec ctx index step state
    cases hap : (executeStep ctx index step state).1.isApplied with
    | true =>
      rw [executeSteps_applied hap]
      exact .applied hs.paths (fun row hrow => (hs.applied hap row hrow).1) (ih _ _)
    | false =>
      rw [(executeSteps_stopped hap).1]
      refine .stopped hs.paths (hs.stopped hap) ?_ ?_
      · rw [map_flatMap]
        exact flatMap_congr fun step _ => notAttemptedForStep_paths step
      intro row hrow
      obtain ⟨later, -, hrow⟩ := mem_flatMap.1 hrow
      exact (mem_notAttemptedForStep hrow).1

theorem executeSteps_unmutated (hs : Separate steps) :
    ∀ row ∈ (executeSteps ctx index steps state).1, row.mutationState = .unmutated →
      (executeSteps ctx index steps state).2.2.disk row.canonicalPath =
        state.disk row.canonicalPath := by
  induction steps generalizing index state with
  | nil => exact fun row hrow => absurd hrow not_mem_nil
  | cons step rest ih =>
    have hsp := executeStep_spec ctx index step state
    intro row hrow hst
    cases hap : (executeStep ctx index step state).1.isApplied with
    | true =>
      obtain ⟨-, hd, hr⟩ := hs (hsp.matched hap).runnable
      rw [executeSteps_applied hap] at hrow ⊢
      rcases mem_append.1 hrow with hrow | hrow
      · cases (hsp.applied hap row hrow).2.symm.trans hst
      · obtain ⟨later, hl, hp⟩ := (executeSteps_order ctx _ _ _).path_mem hrow
        exact (ih _ _ hr row hrow hst).trans (hsp.frame _ fun hmem => hd later hl hmem hp)
    | false =>
      rw [(executeSteps_stopped hap).1] at hrow
      rw [(executeSteps_stopped hap).2]
      by_cases hru : step.Runnable
      · obtain ⟨hn, hd, -⟩ := hs hru
        rcases mem_append.1 hrow with hrow | hrow
        · exact hsp.unmutated hn row hrow hst
        · obtain ⟨later, hl, hrow⟩ := mem_flatMap.1 hrow
          have hp := mem_map_of_mem (f := FileOutcome.canonicalPath) hrow
          rw [notAttemptedForStep_paths] at hp
          exact hsp.frame _ fun hmem => hd later hl hmem hp
      · exact congrFun (hsp.refused hru) _

theorem executeSteps_kept
    (hd : 0 < ctx.maxDepth) (h : state.journaled = true ↔ state.records ≠ []) :
    (executeSteps ctx index steps state).2.2.journaled = true ↔
      (executeSteps ctx index steps state).2.2.records ≠ [] := by
  induction steps generalizing index state with
  | nil => exact h
  | cons step rest ih =>
    have hn := (executeStep_spec ctx index step state).kept hd h
    cases hap : (executeStep ctx index step state).1.isApplied with
    | true =>
      rw [executeSteps_applied hap]
      exact ih _ _ hn
    | false =>
      rw [(executeSteps_stopped hap).2]
      exact hn

end

end Loop

/-- What a result says about its run from a disk and the session's registers. -/
structure Lawful (plan : TransactionPlan) (session : RegisterStore) (disk : Disk)
    (result : Executed) : Prop where
  order : StepOrder plan.steps result.envelope.files
  unmutated : ∀ row ∈ result.envelope.files, row.mutationState = .unmutated →
    result.state.disk row.canonicalPath = disk row.canonicalPath
  registers : result.registers =
    if result.envelope.complete then plan.stagedRegisters.working else session
  success : result.envelope.success = true ↔ ∃ row ∈ result.envelope.files,
    countsTowardCompletion row = true ∧ row.classification.isAppliedStar = true
  opId : result.envelope.opId.isSome = true ↔ result.state.records ≠ []

theorem commitRegistersIfComplete_fst (session : RegisterStore) (staged : StagedRegisters)
    (classifications : List FileClassification) :
    (commitRegistersIfComplete session staged classifications).1 =
      if classifications.countP isAppliedStar = classifications.length ∧
          0 < classifications.length then staged.working else session := by
  have hc : (!classifications.isEmpty && classifications.all isAppliedStar)
      = true ↔ classifications.countP isAppliedStar = classifications.length ∧
        0 < classifications.length := by
    simp [length_pos_iff, and_comm]
  unfold commitRegistersIfComplete
  simp only [hc]
  split_ifs <;> rfl

section Transaction

variable {plan : TransactionPlan} {ctx : ExecuteContext} {session : RegisterStore} {disk : Disk}

theorem executeTransaction_success :
    (executeTransaction plan ctx session disk).envelope.success = true ↔
      ∃ row ∈ (executeTransaction plan ctx session disk).envelope.files,
        countsTowardCompletion row = true ∧ row.classification.isAppliedStar = true := by
  simp only [executeTransaction, decide_eq_true_eq, countP_pos_iff, mem_map, mem_filter]
  constructor
  · rintro ⟨_, ⟨row, ⟨hrow, hc⟩, rfl⟩, hap⟩
    exact ⟨row, hrow, hc, hap⟩
  · rintro ⟨row, hrow, hc, hap⟩
    exact ⟨_, ⟨row, ⟨hrow, hc⟩, rfl⟩, hap⟩

theorem executeTransaction_opId :
    (executeTransaction plan ctx session disk).envelope.opId.isSome = true ↔
      (executeTransaction plan ctx session disk).state.journaled = true := by
  unfold executeTransaction
  dsimp only
  split_ifs with h <;> simp [h]

theorem executeTransaction_lawful (hs : Separate plan.steps)
    (hd : plan.steps = [] ∨ 0 < ctx.maxDepth) :
    Lawful plan session disk (executeTransaction plan ctx session disk) where
  order := executeSteps_order ctx 0 plan.steps _
  unmutated := executeSteps_unmutated ctx 0 plan.steps _ hs
  registers := by
    unfold executeTransaction
    simp only [commitRegistersIfComplete_fst, decide_eq_true_eq]
  success := executeTransaction_success
  opId := by
    rw [executeTransaction_opId]
    rcases hd with hnil | hd
    · unfold executeTransaction
      rw [hnil]
      simp [executeSteps]
    · exact executeSteps_kept ctx 0 plan.steps _ hd (by simp)

end Transaction

/-! ## Runs that break the law -/

/-- Everything succeeds, and no backup is taken. -/
def StepIo.clear : StepIo where
  backup := .skipped
  destBackup := .skipped
  readable := true
  destReadable := true
  write := .ok []
  rereadable := true
  unlinkable := true
  published := ⟨none, none⟩

/-- The write fails and leaves some bytes. -/
def StepIo.torn (left : Option Bytes) : StepIo := { StepIo.clear with write := .error ⟨false, left⟩ }

/-- The baseline cannot be read. -/
def StepIo.unreadable : StepIo := { StepIo.clear with readable := false }

/-- Everything succeeds before step `k`. -/
def ioUntil (k : ℕ) (bad : StepIo) (index : ℕ) : StepIo := if index < k then .clear else bad

variable {bad : StepIo}

theorem ioUntil_of_lt {k : ℕ} (h : index < k) : ioUntil k bad index = .clear :=
  if_pos h

theorem ioUntil_of_le {k : ℕ} (h : k ≤ index) : ioUntil k bad index = bad :=
  if_neg (Nat.not_lt.2 h)

/-- The baselines are read, and no backup is taken. -/
structure StepIo.Quiet (io : StepIo) : Prop where
  backup : io.backup = .skipped
  destBackup : io.destBackup = .skipped
  readable : io.readable = true
  destReadable : io.destReadable = true

section Quiet

variable {ctx : ExecuteContext} {index : ℕ} {state : ExecState} (hfault : ctx.fault = none)

include hfault

theorem faultIs_of_none (want : ExecuteFault) : ctx.faultIs want = false := by
  simp [ExecuteContext.faultIs, hfault]

theorem executeMutate_quiet {file : PlannedFile} (hq : (ctx.io index).Quiet)
    (hm : (mutate file).Matches state.disk) :
    executeMutate ctx index file state = if file.removeFile then removeMutate ctx index file none state
      else writeMutate ctx index file none state := by
  have hj : state.journal ctx.maxDepth file.canonicalPath
      (if (state.disk file.canonicalPath).isSome then (ctx.io index).backup else .skipped) =
        some (none, state) := by
    rw [hq.backup, ite_self]
    rfl
  have hba : baselineMatches true (state.disk file.canonicalPath) file.baselineBytes = true :=
    hm
  unfold executeMutate
  simp [faultIs_of_none hfault, hj, hq.readable, hba]

theorem executeMv_quiet {mv : PlannedMv} (hq : (ctx.io index).Quiet)
    (hm : (PlannedStep.mv mv).Matches state.disk) :
    executeMv ctx index mv state = writeMv ctx index mv none none state := by
  have hdr : mv.destBaselineBytes.any (fun expected =>
      !baselineMatches true (state.disk mv.destCanonical) expected) = false := by
    rw [← Bool.not_eq_true, Option.any_eq_true]
    rintro ⟨expected, hexp, hno⟩
    rw [hm.2 expected hexp] at hno
    cases hno
  unfold executeMv
  simp [faultIs_of_none hfault, hq.1, hq.2, hq.3, hq.4, journal, hm.1, hdr]

end Quiet

/-- The path whose bytes a step replaces. -/
def PlannedStep.written : PlannedStep → Option PathBuf
  | .mutate file => if file.removeFile then none else some file.canonicalPath
  | .mv move => some move.destCanonical

def PlannedStep.removed : PlannedStep → Option PathBuf
  | .mutate file => if file.removeFile then some file.canonicalPath else none
  | .mv move => some move.sourceCanonical

/-- A disk that lets a step through. -/
def PlannedStep.start : PlannedStep → Disk
  | .mutate file => fun _ => some file.baselineBytes
  | .mv move => fun path =>
    if path = move.sourceCanonical then some move.sourceBaselineBytes else move.destBaselineBytes

variable {path : PathBuf}

theorem PlannedStep.written_or_removed (h : path ∈ step.paths) :
    step.written = some path ∨ step.removed = some path := by
  cases step with
  | mutate file =>
    obtain rfl := mem_singleton.1 h
    cases hr : file.removeFile <;> simp [written, removed]
  | mv move =>
    rcases mem_cons.1 h with rfl | h
    · exact .inl rfl
    · obtain rfl := mem_singleton.1 h
      exact .inr rfl

theorem PlannedStep.removed_mem (h : step.removed = some path) : path ∈ step.paths := by
  cases step with
  | mutate file =>
    simp only [removed, Option.ite_none_right_eq_some, Option.some.injEq] at h
    exact mem_singleton.2 h.2.symm
  | mv move =>
    cases h
    exact mem_cons_of_mem _ (mem_singleton_self _)

section Start

variable {step : PlannedStep} {disk : Disk} (hdisk : ∀ path ∈ step.paths, disk path = step.start path)

include hdisk

theorem matches_start (hr : step.Runnable) : step.Matches disk := by
  cases step with
  | mutate file =>
    have hf := hdisk _ (mem_singleton_self _)
    simp [PlannedStep.Matches, hf, start, baselineMatches]
  | mv move =>
    have hd := hdisk _ (mem_cons_self)
    have hs := hdisk _ (mem_cons_of_mem _ (mem_singleton_self _))
    refine ⟨by simp [hs, start, baselineMatches], fun expected hexp => ?_⟩
    by_cases hsa : move.destCanonical = move.sourceCanonical
    · simp [hs, start, hsa, baselineMatches, hr hsa.symm expected hexp]
    · simp [hd, start, hsa, baselineMatches, Option.mem_def.1 hexp]

theorem completes_start : step.Completes disk := by
  cases step with
  | mutate file => trivial
  | mv move =>
    have hs := hdisk _ (mem_cons_of_mem _ (mem_singleton_self _))
    simp [PlannedStep.Completes, hs, start]

theorem isSome_start (hr : step.removed = some path) : (disk path).isSome = true := by
  rw [hdisk path (removed_mem hr)]
  cases step with
  | mutate file => rfl
  | mv move =>
    cases hr
    simp [start]

end Start

section Breaks

variable {ctx : ExecuteContext} {index : ℕ} {state : ExecState} {step : PlannedStep}
  (hfault : ctx.fault = none)

include hfault

theorem executeStep_torn {left : Option Bytes} (hio : ctx.io index = .torn left)
    (hm : step.Matches state.disk) (hw : step.written = some path) :
    (executeStep ctx index step state).1.isApplied = false ∧
      (executeStep ctx index step state).2.disk path = left := by
  cases step with
  | mutate file =>
    simp only [written, Option.ite_none_left_eq_some, Option.some.injEq] at hw
    obtain ⟨hk, rfl⟩ := hw
    rw [executeStep, executeMutate_quiet hfault (hio ▸ ⟨rfl, rfl, rfl, rfl⟩) hm,
      if_neg hk, writeMutate, hio]
    exact ⟨rfl, Function.update_self _ _ _⟩
  | mv move =>
    cases hw
    rw [executeStep, executeMv_quiet hfault (hio ▸ ⟨rfl, rfl, rfl, rfl⟩) hm, writeMv, hio]
    exact ⟨rfl, Function.update_self _ _ _⟩

theorem executeStep_clear (hio : ctx.io index = .clear) (hm : step.Matches state.disk)
    (hp : step.Completes state.disk) :
    (executeStep ctx index step state).1.isApplied = true ∧
      ∀ path, step.removed = some path → (executeStep ctx index step state).2.disk path = none := by
  cases step with
  | mutate file =>
    rw [executeStep, executeMutate_quiet hfault (hio ▸ ⟨rfl, rfl, rfl, rfl⟩) hm]
    cases hr : file.removeFile with
    | true =>
      rw [removeMutate, hio]
      refine ⟨rfl, fun path hre => ?_⟩
      simp only [removed, hr, if_true, Option.some.injEq] at hre
      subst hre
      exact Function.update_self _ _ _
    | false =>
      rw [writeMutate, hio]
      refine ⟨by simp [clear, faultIs_of_none hfault, StepExec.isApplied], fun path h => ?_⟩
      simp [removed, hr] at h
  | mv move =>
    have hs : ((state.put move.destCanonical move.destBaselineBytes
        (some move.finalBytes)).disk move.sourceCanonical).isNone = false := by
      by_cases hsa : move.sourceCanonical = move.destCanonical
      · rw [hsa]
        simp [put]
      · rw [put_disk_of_ne hsa]
        exact Option.isNone_eq_false_iff.2 hp
    rw [executeStep, executeMv_quiet hfault (hio ▸ ⟨rfl, rfl, rfl, rfl⟩) hm, writeMv, hio]
    simp only [faultIs_of_none hfault, hs]
    refine ⟨rfl, fun path hre => ?_⟩
    cases hre
    exact Function.update_self _ _ _

theorem executeStep_unreadable (hio : ctx.io index = .unreadable) :
    (executeStep ctx index step state).1.isApplied = false ∧
      (executeStep ctx index step state).2 = state ∧
      ∀ row ∈ (executeStep ctx index step state).1.outcomes, row.mutationState = .unmutated := by
  cases step with
  | mutate file =>
    simp [executeStep, executeMutate, faultIs_of_none hfault, hio, unreadable, clear,
      journal, baselineMatches, StepExec.isApplied, StepExec.outcomes, PlannedFile.failed,
      failedOutcome, mutationState]
  | mv move =>
    simp [executeStep, executeMv, faultIs_of_none hfault, hio, unreadable, clear,
      journal, baselineMatches, StepExec.isApplied, StepExec.outcomes, mvFailedPair,
      failedOutcome, mutationState]

end Breaks

/-- Some row calls a path unmutated that the run has changed. -/
def Misreports (ctx : ExecuteContext) (index : ℕ) (steps : List PlannedStep) (state : ExecState) :
    Prop :=
  ∃ row ∈ (executeSteps ctx index steps state).1, row.mutationState = .unmutated ∧
    (executeSteps ctx index steps state).2.2.disk row.canonicalPath ≠ state.disk row.canonicalPath

variable {later : PlannedStep}

/-- A path that is not attempted any more, but was changed by the step that stopped. -/
theorem misreports_of_stopped {ctx : ExecuteContext}
    (hs : (executeStep ctx index step state).1.isApplied = false) (hl : later ∈ rest)
    (hp : path ∈ later.paths)
    (hc : (executeStep ctx index step state).2.disk path ≠ state.disk path) :
    Misreports ctx index (step :: rest) state := by
  rw [← notAttemptedForStep_paths] at hp
  obtain ⟨row, hrow, rfl⟩ := mem_map.1 hp
  refine ⟨row, ?_, (mem_notAttemptedForStep hrow).2, ?_⟩
  · rw [(executeSteps_stopped hs).1]
    exact mem_append_right _ (mem_flatMap.2 ⟨later, hl, hrow⟩)
  · rw [(executeSteps_stopped hs).2]
    exact hc

/-- A step whose baseline cannot be read stops the run, and no row reports a change. -/
theorem unmutated_of_unreadable {ctx : ExecuteContext} (hfault : ctx.fault = none)
    (hio : ctx.io index = .unreadable) :
    (executeSteps ctx index steps state).2.2 = state ∧
      ∀ row ∈ (executeSteps ctx index steps state).1, row.mutationState = .unmutated := by
  cases steps with
  | nil => exact ⟨rfl, fun row hrow => absurd hrow not_mem_nil⟩
  | cons step rest =>
    obtain ⟨hs, hst, hr⟩ : (executeStep ctx index step state).1.isApplied = false ∧ _ :=
      executeStep_unreadable hfault hio
    rw [(executeSteps_stopped hs).1, (executeSteps_stopped hs).2]
    refine ⟨hst, fun row hrow => ?_⟩
    rcases mem_append.1 hrow with hrow | hrow
    · exact hr row hrow
    · obtain ⟨later, -, hrow⟩ := mem_flatMap.1 hrow
      exact (mem_notAttemptedForStep hrow).2

/-- The replies under which a run misreports, from every state with the given disk. -/
def Breaks (index : ℕ) (steps : List PlannedStep) (disk : Disk) (k : ℕ) (bad : StepIo) : Prop :=
  ∀ (ctx : ExecuteContext) (state : ExecState), ctx.fault = none → ctx.io = ioUntil k bad →
    (∀ step ∈ steps, ∀ path ∈ step.paths, state.disk path = disk path) →
      Misreports ctx index steps state

theorem exists_ne_bytes (found : Option Bytes) : ∃ left : Option Bytes, left ≠ found := by
  cases found with
  | none => exact ⟨some [], by simp⟩
  | some _ => exact ⟨none, by simp⟩

theorem exists_breaks_shared (index : ℕ) (hr : step.Runnable) (hl : later ∈ rest)
    (hp : path ∈ step.paths) (hs : path ∈ later.paths) :
    ∃ disk k bad, index ≤ k ∧ Breaks index (step :: rest) disk k bad := by
  rcases written_or_removed hp with hw | hre
  · obtain ⟨left, hle⟩ := exists_ne_bytes (step.start path)
    refine ⟨step.start, index, .torn left, le_rfl, fun ctx state hfault hio hdisk => ?_⟩
    have hst := hdisk step mem_cons_self
    obtain ⟨hsto, hc⟩ := executeStep_torn hfault
      ((congrFun hio index).trans (ioUntil_of_le le_rfl)) (matches_start hst hr) hw
    refine misreports_of_stopped hsto hl hs ?_
    rw [hc, hst path hp]
    exact hle
  · refine ⟨step.start, index + 1, .unreadable, by omega, fun ctx state hfault hio hdisk => ?_⟩
    have hst := hdisk step mem_cons_self
    obtain ⟨hap, hg⟩ := executeStep_clear hfault
      ((congrFun hio index).trans (ioUntil_of_lt (Nat.lt_succ_self _)))
      (matches_start hst hr) (completes_start hst)
    obtain ⟨hsta, hro⟩ : (executeSteps ctx (index + 1) rest
        (executeStep ctx index step state).2).2.2 = (executeStep ctx index step state).2 ∧ _ :=
      unmutated_of_unreadable hfault ((congrFun hio (index + 1)).trans (ioUntil_of_le le_rfl))
    have hmem : path ∈ (executeSteps ctx (index + 1) rest
        (executeStep ctx index step state).2).1.map FileOutcome.canonicalPath := by
      rw [(executeSteps_order ctx _ _ _).paths]
      exact mem_flatMap.2 ⟨later, hl, hs⟩
    obtain ⟨row, hrow, rfl⟩ := mem_map.1 hmem
    refine ⟨row, ?_, hro row hrow, ?_⟩
    · rw [executeSteps_applied hap]
      exact mem_append_right _ hrow
    · rw [executeSteps_applied hap]
      intro heq
      have hpr := isSome_start hst hre
      rw [← heq, hsta, hg _ hre] at hpr
      cases hpr

/-- An MV onto its own source. -/
theorem exists_breaks_self (index : ℕ) (hr : step.Runnable) (hs : ¬ step.paths.Nodup) :
    ∃ disk k bad, index ≤ k ∧ Breaks index (step :: rest) disk k bad := by
  cases step with
  | mutate file => exact absurd (nodup_singleton _) hs
  | mv move =>
    have hsa : move.destCanonical = move.sourceCanonical := by
      by_contra hne
      exact hs (by simp [paths, hne])
    obtain ⟨left, hl⟩ := exists_ne_bytes ((mv move).start move.destCanonical)
    refine ⟨(mv move).start, index, .torn left, le_rfl,
      fun ctx state hfault hio hdisk => ?_⟩
    have hio := (congrFun hio index).trans (ioUntil_of_le le_rfl)
    have hst := hdisk _ mem_cons_self
    have hrun : executeStep ctx index (.mv move) state =
        (.stopped (mvFailedPair move .failedWrite .notAttempted) "failed_write",
          state.put move.destCanonical move.destBaselineBytes left) := by
      rw [executeStep, executeMv_quiet hfault (hio ▸ ⟨rfl, rfl, rfl, rfl⟩) (matches_start hst hr),
        writeMv, hio]
      rfl
    have hsto : (executeStep ctx index (.mv move) state).1.isApplied = false := by
      rw [hrun]
      rfl
    refine ⟨failedOutcome move.sourceCanonical move.sourceRequested .mvSource .notAttempted false [],
      ?_, rfl, ?_⟩
    · rw [(executeSteps_stopped hsto).1, hrun]
      exact mem_append_left _ (mem_cons_of_mem _ (mem_singleton_self _))
    · rw [(executeSteps_stopped hsto).2, hrun]
      change Function.update state.disk move.destCanonical left move.sourceCanonical ≠
        state.disk move.sourceCanonical
      rw [← hsa, Function.update_self, hst _ mem_cons_self]
      exact hl

theorem exists_breaks (steps : List PlannedStep) (index : ℕ) (h : ¬ Separate steps) :
    ∃ disk k bad, index ≤ k ∧ Breaks index steps disk k bad := by
  induction steps generalizing index with
  | nil => exact absurd trivial h
  | cons step rest ih =>
    rw [Separate, Classical.not_imp] at h
    obtain ⟨hr, h⟩ := h
    by_cases hs : step.paths.Nodup
    swap
    · exact exists_breaks_self index hr hs
    by_cases hd : ∀ later ∈ rest, step.paths.Disjoint later.paths
    swap
    · simp only [List.Disjoint, not_forall] at hd
      obtain ⟨later, hl, path, hp, hsh, -⟩ := hd
      exact exists_breaks_shared index hr hl hp hsh
    obtain ⟨disk, k, bad, hk, hb⟩ := ih (index + 1) fun hre => h ⟨hs, hd, hre⟩
    refine ⟨fun path => if path ∈ step.paths then step.start path else disk path, k, bad, by omega,
      fun ctx state hfault hio hdisk => ?_⟩
    have hst : ∀ path ∈ step.paths, state.disk path = step.start path := fun path hp =>
      (hdisk step mem_cons_self path hp).trans (if_pos hp)
    have hap := (executeStep_clear hfault ((congrFun hio index).trans (ioUntil_of_lt (by omega)))
      (matches_start hst hr) (completes_start hst)).1
    have hsp := executeStep_spec ctx index step state
    have hf : ∀ later ∈ rest, ∀ path ∈ later.paths,
        (executeStep ctx index step state).2.disk path = state.disk path :=
      fun later hl path hp => hsp.frame path fun hmem => hd later hl hmem hp
    obtain ⟨row, hrow, hsta, hc⟩ := hb ctx (executeStep ctx index step state).2 hfault hio
      fun later hl path hp => by
        rw [hf later hl path hp, hdisk later (mem_cons_of_mem _ hl) path hp]
        exact if_neg fun hmem => hd later hl hmem hp
    obtain ⟨later, hl, hp⟩ := (executeSteps_order ctx _ _ _).path_mem hrow
    refine ⟨row, ?_, hsta, ?_⟩
    · rw [executeSteps_applied hap]
      exact mem_append_right _ hrow
    · rw [executeSteps_applied hap, ← hf later hl _ hp]
      exact hc

/-- Replies under which the first step takes a backup and then stops. -/
def StepIo.backedUp : StepIo := { StepIo.unreadable with
  backup := .captured "0"
  destBackup := .captured "0" }

theorem executeSteps_backedUp {ctx : ExecuteContext} (hfault : ctx.fault = none)
    (hio : ctx.io 0 = .backedUp) (hd : ctx.maxDepth = 0) :
    (executeSteps ctx 0 (step :: rest) ⟨fun _ => some [], false, [], []⟩).2.2 =
      ⟨fun _ => some [], true, [], []⟩ := by
  have hs : (executeStep ctx 0 step ⟨fun _ => some [], false, [], []⟩).1.isApplied = false ∧
      (executeStep ctx 0 step ⟨fun _ => some [], false, [], []⟩).2 =
        ⟨fun _ => some [], true, [], []⟩ := by
    cases step <;>
      simp [executeStep, executeMutate, executeMv, faultIs_of_none hfault, hio, hd,
        backedUp, unreadable, journal, baselineMatches, StepExec.isApplied]
  rw [(executeSteps_stopped hs.1).2, hs.2]

/-- Whatever the outside answers, results are right about their runs exactly when no step that can
be carried out shares a path with a later one and the backup store keeps what it journals. -/
theorem executeTransaction_lawful_iff (plan : TransactionPlan) (maxDepth : ℕ) :
    (∀ (ctx : ExecuteContext) (session : RegisterStore) (disk : Disk), ctx.maxDepth = maxDepth →
        Lawful plan session disk (executeTransaction plan ctx session disk)) ↔
      Separate plan.steps ∧ (plan.steps = [] ∨ 0 < maxDepth) := by
  constructor
  · intro hlawful
    constructor
    · by_contra hseparate
      obtain ⟨disk, k, bad, -, hbreaks⟩ := exists_breaks plan.steps 0 hseparate
      obtain ⟨row, hrow, hstate, hchanged⟩ := hbreaks ⟨"", maxDepth, none, ioUntil k bad⟩
        ⟨disk, false, [], []⟩ rfl rfl fun _ _ _ _ => rfl
      exact hchanged ((hlawful ⟨"", maxDepth, none, ioUntil k bad⟩ .new disk rfl).unmutated
        row hrow hstate)
    · by_contra hdepth
      rw [not_or, Nat.not_lt, Nat.le_zero] at hdepth
      obtain ⟨step, rest, hsteps⟩ := exists_cons_of_ne_nil hdepth.1
      have hopId := (hlawful ⟨"", maxDepth, none, fun _ => .backedUp⟩ .new
        (fun _ => some []) rfl).opId
      have hfinal : (executeTransaction plan ⟨"", maxDepth, none, fun _ => .backedUp⟩ .new
          fun _ => some []).state = ⟨fun _ => some [], true, [], []⟩ := by
        unfold executeTransaction
        rw [hsteps]
        exact executeSteps_backedUp rfl rfl hdepth.2
      rw [executeTransaction_opId, hfinal] at hopId
      exact hopId.1 rfl rfl
  · rintro ⟨hseparate, hdepth⟩ ctx session disk rfl
    exact executeTransaction_lawful hseparate hdepth

def moveSection (source destination : PathBuf) (bytes : Bytes) : TransactionSectionInput where
  toSectionPlanInput := { readSection bytes [.mv "" 1] [.wholeFile] with canonicalPath := source }
  mvDestination := some ⟨destination, "", none⟩

/-- Two files moved to one new path. -/
def collidingMoves : List TransactionSectionInput :=
  [moveSection ["a"] ["c"] [97, 10], moveSection ["b"] ["c"] [98, 10]]

/-- The second source has changed, so its move stops; its row calls the destination unmutated, where
the first move put its bytes. -/
theorem executeTransaction_misreports_destination :
    (planTransaction collidingMoves .new true).toOption.any (fun plan =>
      let disk : Disk := fun path => if path = ["a"] then some [97, 10] else
        if path = ["b"] then some [66, 10] else none
      let result := executeTransaction plan ⟨"op", 20, none, fun _ => .clear⟩ .new disk
      result.envelope.files.any fun row => decide (row.canonicalPath = ["c"] ∧
        row.mutationState = .unmutated ∧ disk ["c"] = none ∧
        result.state.disk ["c"] = some [97, 10])) = true := by
  decide

end Aft.Hashline
