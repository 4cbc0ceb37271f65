import Aft.Hashline.Transaction

/-!
# Runs of a transaction

What one step of Phase 2 can do to the disk and the journal (`StepCase`), and from it the law of a
whole run: rows in step order, untouched paths behind every row that says so, registers published
with complete envelopes only, and an operation id with every kept record.
-/

namespace Aft.Hashline

open List FileClassification

/-! ## What a step can do -/

def PlannedStep.paths : PlannedStep → List PathBuf
  | .mutate file => [file.canonicalPath]
  | .mv move => [move.destCanonical, move.sourceCanonical]

/-- Going on without touching the disk; a store of some depth keeps the records it names. -/
structure Journaled (maxDepth : ℕ) (state next : ExecState) : Prop where
  disk : next.disk = state.disk
  effects : next.effects = state.effects
  kept : 0 < maxDepth → (state.journaled = true ↔ state.records ≠ []) →
    (next.journaled = true ↔ next.records ≠ [])

theorem Journaled.refl (maxDepth : ℕ) (state : ExecState) : Journaled maxDepth state state :=
  ⟨rfl, rfl, fun _ h => h⟩

variable {maxDepth : ℕ}

theorem Journaled.trans {a b c : ExecState} (hab : Journaled maxDepth a b)
    (hbc : Journaled maxDepth b c) : Journaled maxDepth a c :=
  ⟨hbc.disk.trans hab.disk, hbc.effects.trans hab.effects, fun hd h => hbc.kept hd (hab.kept hd h)⟩

variable {next : ExecState} {path : PathBuf} {state : ExecState}

theorem journaled_of_journal {reply : BackupReply} {id : Option String}
    (h : state.journal maxDepth path reply = some (id, next)) : Journaled maxDepth state next := by
  cases reply with
  | failed => cases h
  | skipped =>
    cases h
    exact .refl _ _
  | captured name =>
    cases h
    refine ⟨rfl, rfl, fun hd _ => ?_⟩
    simp [hd]

/-- The baselines that a step checks before it writes. -/
def PlannedStep.Matches (disk : Disk) : PlannedStep → Prop
  | .mutate file => baselineMatches true (disk file.canonicalPath) file.baselineBytes = true
  | .mv move => baselineMatches true (disk move.sourceCanonical) move.sourceBaselineBytes = true ∧
      ∀ expected ∈ move.destBaselineBytes,
        baselineMatches true (disk move.destCanonical) expected = true

/-- What a step writes first, with the bytes that it expects there. -/
def PlannedStep.target : PlannedStep → PathBuf × Option Bytes
  | .mutate file => (file.canonicalPath, some file.baselineBytes)
  | .mv move => (move.destCanonical, move.destBaselineBytes)

/-- The unlink of an MV's source. -/
def PlannedStep.finish (state : ExecState) : PlannedStep → ExecState
  | .mutate _ => state
  | .mv move => state.put move.sourceCanonical (some move.sourceBaselineBytes) none

/-- The unlink of an MV needs its source. -/
def PlannedStep.Completes (disk : Disk) : PlannedStep → Prop
  | .mutate _ => True
  | .mv move => (disk move.sourceCanonical).isSome = true

/-- A step stops before it touches the disk, stops once it wrote its target, or is applied. -/
inductive StepCase (maxDepth : ℕ) (step : PlannedStep) (state : ExecState) :
    StepExec → ExecState → Prop
  | refused (rows reason next) (hpaths : rows.map FileOutcome.canonicalPath = step.paths)
      (hrow : ∃ row ∈ rows, row.classification.isAppliedStar = false)
      (hnext : Journaled maxDepth state next) :
      StepCase maxDepth step state (.stopped rows reason) next
  | stopped (first rest reason middle content)
      (hpaths : (first :: rest).map FileOutcome.canonicalPath = step.paths)
      (hrow : ∃ row ∈ first :: rest, row.classification.isAppliedStar = false)
      (hfirst : first.mutationState ≠ .unmutated) (hnext : Journaled maxDepth state middle)
      (hmatches : step.Matches state.disk) :
      StepCase maxDepth step state (.stopped (first :: rest) reason)
        (middle.put step.target.1 step.target.2 content)
  | applied (rows middle content) (hpaths : rows.map FileOutcome.canonicalPath = step.paths)
      (hrows : ∀ row ∈ rows,
        row.classification.isAppliedStar = true ∧ row.mutationState = .applied)
      (hnext : Journaled maxDepth state middle) (hmatches : step.Matches state.disk)
      (hcompletes : step.Completes (middle.put step.target.1 step.target.2 content).disk) :
      StepCase maxDepth step state (.applied rows)
        (step.finish (middle.put step.target.1 step.target.2 content))

variable {found : Option Bytes}

theorem baselineMatches_of_readable {readable : Bool} {expected : Bytes}
    (h : baselineMatches readable found expected = true) :
    baselineMatches true found expected = true := by
  cases readable with
  | true => exact h
  | false => cases h

theorem WriteFailure.mutationState_classification (failure : WriteFailure) :
    failure.classification.mutationState = .unknownPossiblyMutated := by
  unfold WriteFailure.classification
  split_ifs <;> rfl

variable {classification : FileClassification}

theorem observeTag_applied (ctx : ExecuteContext) (index : ℕ) :
    (ctx.observeTag index).2.2.isAppliedStar = true := by
  unfold ExecuteContext.observeTag
  split
  · rfl
  · unfold tagFromPublish
    split_ifs <;> cases (ctx.io index).published.tag <;> rfl

/-- Steps that some disk lets through; an MV onto its own source needs equal baselines. -/
def PlannedStep.Runnable : PlannedStep → Prop
  | .mutate _ => True
  | .mv move => move.sourceCanonical = move.destCanonical →
      ∀ expected ∈ move.destBaselineBytes, expected = move.sourceBaselineBytes

/-- The rows of a step, and what is behind them. -/
structure StepSpec (maxDepth : ℕ) (step : PlannedStep) (state : ExecState) (exec : StepExec)
    (next : ExecState) : Prop where
  paths : exec.outcomes.map FileOutcome.canonicalPath = step.paths
  frame : ∀ path ∉ step.paths, next.disk path = state.disk path
  applied : exec.isApplied = true → ∀ row ∈ exec.outcomes,
    row.classification.isAppliedStar = true ∧ row.mutationState = .applied
  matched : exec.isApplied = true → step.Matches state.disk
  completes : exec.isApplied = true → step.paths.Nodup → step.Completes state.disk
  stopped : exec.isApplied = false → ∃ row ∈ exec.outcomes, row.classification.isAppliedStar = false
  unmutated : step.paths.Nodup → ∀ row ∈ exec.outcomes,
    row.mutationState = .unmutated → next.disk row.canonicalPath = state.disk row.canonicalPath
  refused : ¬ step.Runnable → next.disk = state.disk
  effects : state.effects ⊆ next.effects
  kept : 0 < maxDepth → (state.journaled = true ↔ state.records ≠ []) →
    (next.journaled = true ↔ next.records ≠ [])

variable {recorded content : Option Bytes}

theorem ExecState.effects_subset_put (h : Journaled maxDepth state next) :
    state.effects ⊆ (next.put path recorded content).effects := by
  rw [← h.effects]
  exact subset_append_left _ _

theorem ExecState.put_disk_of_ne {other : PathBuf} (h : other ≠ path) :
    (state.put path recorded content).disk other = state.disk other :=
  Function.update_of_ne h _ _

theorem FileClassification.mutationState_of_applied (h : classification.isAppliedStar = true) :
    classification.mutationState = .applied := by
  cases classification <;> first | rfl | cases h

theorem FileClassification.not_applied_of_unknown
    (h : classification.mutationState = .unknownPossiblyMutated) :
    classification.isAppliedStar = false := by
  cases classification <;> first | rfl | cases h

theorem baselineMatches_unique {a b : Bytes} (ha : baselineMatches true found a = true)
    (hb : baselineMatches true found b = true) : a = b := by
  cases found with
  | none =>
    simp only [baselineMatches, Bool.true_and, List.isEmpty_iff] at ha hb
    rw [ha, hb]
  | some bytes =>
    simp only [baselineMatches, Bool.true_and, decide_eq_true_eq] at ha hb
    rw [← ha, hb]

theorem PlannedStep.Matches.runnable {step : PlannedStep} {disk : Disk} (h : step.Matches disk) :
    step.Runnable := by
  cases step with
  | mutate file => trivial
  | mv move =>
    intro hs expected hexp
    exact baselineMatches_unique (h.2 expected hexp) (hs ▸ h.1)

variable {file : PlannedFile} {mv : PlannedMv}

section Steps

variable {ctx : ExecuteContext} {index : ℕ} {state : ExecState}

section

variable (hc : classification.isAppliedStar = false) (hn : Journaled maxDepth state next)
include hc hn

theorem refusedMutate {reason : String} :
    StepCase maxDepth (.mutate file) state (.stopped (file.failed classification) reason) next :=
  .refused _ _ _ rfl ⟨_, mem_singleton_self _, hc⟩ hn

theorem refusedMv {reason : String} : StepCase maxDepth (.mv mv) state
      (.stopped (mvFailedPair mv classification .notAttempted) reason) next :=
  .refused _ _ _ rfl ⟨_, mem_cons_self, hc⟩ hn

end

theorem writeMutate_cases (backupId : Option String) (hn : Journaled ctx.maxDepth state next)
    (hm : (PlannedStep.mutate file).Matches state.disk) :
    StepCase ctx.maxDepth (.mutate file) state (writeMutate ctx index file backupId next).1
      (writeMutate ctx index file backupId next).2 := by
  unfold writeMutate
  cases (ctx.io index).write with
  | error failure =>
    have hf := failure.mutationState_classification
    exact .stopped _ _ _ _ _ rfl ⟨_, mem_singleton_self _, not_applied_of_unknown hf⟩
      (fun h => by cases hf.symm.trans h) hn hm
  | ok writeWarnings =>
    split_ifs
    · exact .stopped _ _ _ _ _ rfl ⟨_, mem_singleton_self _, rfl⟩ nofun hn hm
    · have ho := observeTag_applied ctx index
      exact .applied _ _ _ rfl (forall_mem_singleton.2
        ⟨ho, mutationState_of_applied ho⟩) hn hm trivial
    · exact .applied _ _ _ rfl (forall_mem_singleton.2 ⟨rfl, rfl⟩) hn hm trivial

theorem executeMutate_cases (file : PlannedFile) :
    StepCase ctx.maxDepth (.mutate file) state (executeMutate ctx index file state).1
      (executeMutate ctx index file state).2 := by
  unfold executeMutate
  by_cases hf : ctx.faultIs (.backup index) = true
  · rw [if_pos hf]
    exact refusedMutate rfl (.refl _ _)
  rw [if_neg hf]
  dsimp only
  cases hj : state.journal ctx.maxDepth file.canonicalPath
      (if (state.disk file.canonicalPath).isSome then (ctx.io index).backup else .skipped) with
  | none => exact refusedMutate rfl (.refl _ _)
  | some journaled =>
    obtain ⟨backupId, next⟩ := journaled
    have hn := journaled_of_journal hj
    dsimp only
    split_ifs with hd
    · exact refusedMutate rfl hn
    · exact refusedMutate rfl hn
    all_goals
      have hm : (PlannedStep.mutate file).Matches state.disk := by
        simp only [Bool.or_eq_true, Bool.not_eq_true', not_or, Bool.not_eq_false] at hd
        exact hn.disk ▸ baselineMatches_of_readable hd.2
    · unfold removeMutate
      split_ifs
      · exact .applied _ _ _ rfl (forall_mem_singleton.2 ⟨rfl, rfl⟩) hn hm trivial
      · exact refusedMutate rfl hn
    · exact writeMutate_cases backupId hn hm

theorem writeMv_cases (destBackupId sourceBackupId : Option String)
    (hn : Journaled ctx.maxDepth state next) (hm : (PlannedStep.mv mv).Matches state.disk) :
    StepCase ctx.maxDepth (.mv mv) state (writeMv ctx index mv destBackupId sourceBackupId next).1
      (writeMv ctx index mv destBackupId sourceBackupId next).2 := by
  have ho := observeTag_applied ctx index
  have ha := mutationState_of_applied ho
  unfold writeMv
  cases (ctx.io index).write with
  | error failure =>
    have hf := failure.mutationState_classification
    exact .stopped _ _ _ _ _ rfl ⟨_, mem_cons_self, not_applied_of_unknown hf⟩
      (fun h => by cases hf.symm.trans h) hn hm
  | ok writeWarnings =>
    dsimp only
    split_ifs with _ hu
    · exact .stopped _ _ _ _ _ rfl ⟨_, mem_cons_self, rfl⟩ nofun hn hm
    · exact .stopped _ _ _ _ _ rfl ⟨_, mem_cons_of_mem _ (mem_singleton_self _), rfl⟩
        (fun h => by cases ha.symm.trans h) hn hm
    · simp only [Bool.or_eq_true, not_or, Bool.not_eq_true, Option.isNone_eq_false_iff] at hu
      exact .applied _ _ _ rfl (forall_mem_cons.2 ⟨⟨ho, ha⟩,
        forall_mem_singleton.2 ⟨rfl, rfl⟩⟩) hn hm hu.2

theorem executeMv_cases (mv : PlannedMv) :
    StepCase ctx.maxDepth (.mv mv) state (executeMv ctx index mv state).1
      (executeMv ctx index mv state).2 := by
  unfold executeMv
  by_cases hf : ctx.faultIs (.backup index) = true
  · rw [if_pos hf]
    exact refusedMv rfl (.refl _ _)
  rw [if_neg hf]
  cases hd : state.journal ctx.maxDepth mv.destCanonical (ctx.io index).destBackup with
  | none => exact refusedMv rfl (.refl _ _)
  | some journaled =>
    obtain ⟨destBackupId, middle⟩ := journaled
    have hm := journaled_of_journal hd
    dsimp only
    cases hs : middle.journal ctx.maxDepth mv.sourceCanonical (ctx.io index).backup with
    | none => exact refusedMv rfl hm
    | some journaled =>
      obtain ⟨sourceBackupId, next⟩ := journaled
      have hn := hm.trans (journaled_of_journal hs)
      dsimp only
      split_ifs with hdr
      · exact refusedMv rfl hn
      · exact refusedMv rfl hn
      refine writeMv_cases destBackupId sourceBackupId hn ?_
      simp only [Bool.or_eq_true, Bool.not_eq_true', not_or, Bool.not_eq_false,
        Option.any_eq_true, not_exists, not_and] at hdr
      rw [hn.disk] at hdr
      exact ⟨baselineMatches_of_readable hdr.1.2,
        fun expected hexp => baselineMatches_of_readable (hdr.2 expected hexp)⟩

theorem executeStep_cases (ctx : ExecuteContext) (index : ℕ) (step : PlannedStep)
    (state : ExecState) : StepCase ctx.maxDepth step state (executeStep ctx index step state).1
      (executeStep ctx index step state).2 := by
  cases step with
  | mutate file => exact executeMutate_cases file
  | mv mv => exact executeMv_cases mv

end Steps

variable {exec : StepExec} {step : PlannedStep}

theorem PlannedStep.exists_paths (step : PlannedStep) : ∃ rest, step.paths = step.target.1 :: rest := by
  cases step <;> exact ⟨_, rfl⟩

theorem Journaled.disk_put (hn : Journaled maxDepth state next) {other : PathBuf}
    (h : other ≠ path) : (next.put path recorded content).disk other = state.disk other :=
  (ExecState.put_disk_of_ne h).trans (congrFun hn.disk other)

theorem StepCase.spec (h : StepCase maxDepth step state exec next) :
    StepSpec maxDepth step state exec next := by
  obtain ⟨others, hst⟩ := step.exists_paths
  have hne {path : PathBuf} (hp : path ∉ step.paths) : path ≠ step.target.1 :=
    ne_of_not_mem_cons (hst ▸ hp)
  cases h with
  | refused rows reason _ hp hr hn => exact {
      paths := hp
      frame := fun path _ => congrFun hn.disk path
      applied := nofun
      matched := nofun
      completes := nofun
      stopped := fun _ => hr
      unmutated := fun _ row _ _ => congrFun hn.disk row.canonicalPath
      refused := fun _ => hn.disk
      effects := hn.effects.symm ▸ List.Subset.refl _
      kept := hn.kept }
  | stopped first rest reason middle content hp hr hf hn hm => exact {
      paths := hp
      frame := fun path hpath => hn.disk_put (hne hpath)
      applied := nofun
      matched := nofun
      completes := nofun
      stopped := fun _ => hr
      unmutated := by
        intro hd row hrow hun
        rcases mem_cons.1 hrow with rfl | hrow
        · exact absurd hun hf
        · rw [← hp] at hd
          have hfirst := (cons.inj (hp.trans hst)).1
          exact hn.disk_put fun h => (nodup_cons.1 hd).1
            (mem_map.2 ⟨row, hrow, h.trans hfirst.symm⟩)
      refused := fun h => absurd hm.runnable h
      effects := ExecState.effects_subset_put hn
      kept := hn.kept }
  | applied rows middle content hp hr hn hm hc => exact {
      paths := hp
      frame := fun path hpath => by
        cases step with
        | mutate file => exact hn.disk_put (hne hpath)
        | mv move =>
          refine (ExecState.put_disk_of_ne ?_).trans (hn.disk_put (hne hpath))
          exact ne_of_not_mem_cons (not_mem_of_not_mem_cons hpath)
      applied := fun _ => hr
      matched := fun _ => hm
      completes := fun _ hd => by
        cases step with
        | mutate file => trivial
        | mv move =>
          have hso : move.sourceCanonical ≠ move.destCanonical := fun h =>
            (nodup_cons.1 hd).1 (mem_singleton.2 h.symm)
          exact (congrArg Option.isSome (hn.disk_put hso)).symm.trans hc
      stopped := nofun
      unmutated := fun _ row hrow hun => by cases (hr row hrow).2.symm.trans hun
      refused := fun h => absurd hm.runnable h
      effects := by
        cases step with
        | mutate file => exact ExecState.effects_subset_put hn
        | mv move =>
          exact List.Subset.trans (ExecState.effects_subset_put hn) (subset_append_left _ _)
      kept := by cases step <;> exact hn.kept }

theorem executeStep_spec (ctx : ExecuteContext) (index : ℕ) (step : PlannedStep)
    (state : ExecState) : StepSpec ctx.maxDepth step state (executeStep ctx index step state).1
      (executeStep ctx index step state).2 :=
  (executeStep_cases ctx index step state).spec

end Aft.Hashline
