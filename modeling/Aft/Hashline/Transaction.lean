import Aft.Hashline.Apply

/-!
# Cross-file transactions

Phase 1 (`planTransaction`) takes MV off the sections, plans the line operations of every path and
turns each planned file into one step. Phase 2 (`executeTransaction`) carries the steps out in
order: journal, recheck of the baseline, write, unlink. The first step that fails stops it. What
the operating system, the backup store and the tag store answer at each step is a parameter
(`StepIo`); a write that fails may leave anything at its path.
-/

namespace Aft.Hashline

/-! ## Phase 1 -/

/-- Where a section that ends in MV goes; no bytes if nothing is there yet. -/
structure MvDestinationInput where
  canonicalPath : PathBuf
  requestedPath : String
  baselineBytes : Option Bytes
deriving DecidableEq

structure TransactionSectionInput extends SectionPlanInput where
  mvDestination : Option MvDestinationInput
deriving DecidableEq

structure PlannedMv where
  sourceCanonical : PathBuf
  sourceRequested : String
  sourceBaselineBytes : Bytes
  destCanonical : PathBuf
  destRequested : String
  destExisted : Bool
  destBaselineBytes : Option Bytes
  finalBytes : Bytes
  affected : AffectedRegion
  warnings : List String
  repairLayers : List String
deriving DecidableEq

inductive PlannedStep where
  | mutate (file : PlannedFile)
  | mv (mv : PlannedMv)
deriving DecidableEq

structure TransactionPlan where
  steps : List PlannedStep
  stagedRegisters : StagedRegisters
deriving DecidableEq

structure MergedMove where
  destination : MvDestinationInput
  operationLabel : String
deriving DecidableEq

def mvMisplaced : HashlineRejection := .parse "MV must occur once and after all line operations"

/-- Take a final MV off a section: the line operations, their addresses and the line of the MV. -/
def splitMv (operations : List Operation) (resolved : List ResolvedOperation) :
    Except HashlineRejection (List Operation × List ResolvedOperation × Option ℕ) :=
  if operations.length ≠ resolved.length then .error countMismatch
  else
    match operations.getLast? with
    | some (.mv _ line) =>
      if operations.dropLast.any Operation.isMv then .error mvMisplaced
      else .ok (operations.dropLast, resolved.dropLast, some line)
    | _ =>
      if operations.any Operation.isMv then .error mvMisplaced
      else .ok (operations, resolved, none)

/-- What the first loop over the sections collects. -/
structure SectionSplit where
  lineSections : List SectionPlanInput
  sourcePaths : List PathBuf
  moves : SortedMap PathBuf MergedMove
  remPaths : List PathBuf
deriving DecidableEq

def SectionSplit.empty : SectionSplit := ⟨[], [], .empty, []⟩

def SectionSplit.add (split : SectionSplit) (input : TransactionSectionInput) :
    Except HashlineRejection SectionSplit :=
  match split.moves.find? input.canonicalPath with
  | some previous => .error (.parse (previous.operationLabel ++
      " is followed by another section for the same canonical source; MV must be the final same-path operation"))
  | none => do
    let (lineOps, lineResolved, mvLine) ← splitMv input.operations input.resolved
    let moves ← match mvLine, input.mvDestination with
      | some _, none => .error (.parse "MV section is missing resolved destination coordinates")
      | none, some _ => .error (.parse "destination coordinates supplied without an MV operation")
      | some line, some destination => .ok (split.moves.insert input.canonicalPath
          ⟨destination, s!"MV at patch line {line}"⟩)
      | none, none => .ok split.moves
    return {
      lineSections := split.lineSections ++ [{ input.toSectionPlanInput with
        operations := lineOps
        resolved := lineResolved }]
      sourcePaths := input.canonicalPath :: split.sourcePaths
      moves := moves
      remPaths := if lineOps.any Operation.isRem then input.canonicalPath :: split.remPaths
        else split.remPaths }

/-- Refuse a move that clashes with another section. -/
def SectionSplit.checkMove (split : SectionSplit) (source : PathBuf) (move : MergedMove) :
    Except HashlineRejection Unit :=
  if source ∈ split.remPaths then .error (.parse (move.operationLabel ++
    " cannot follow REM sections for the same canonical source"))
  else if move.destination.canonicalPath = source then .error (.parse (move.operationLabel ++
    " resolves its destination to the same canonical path as its source"))
  else if move.destination.canonicalPath ∈ split.sourcePaths then
    .error (.parse (move.operationLabel ++
      " targets a canonical path that is also edited by another patch section; split the move and destination edit into separate requests"))
  else .ok ()

def plannedStep (moves : SortedMap PathBuf MergedMove) (file : PlannedFile) : PlannedStep :=
  match moves.find? file.canonicalPath with
  | some move => .mv {
      sourceCanonical := file.canonicalPath
      sourceRequested := file.requestedPath
      sourceBaselineBytes := file.baselineBytes
      destCanonical := move.destination.canonicalPath
      destRequested := move.destination.requestedPath
      destExisted := move.destination.baselineBytes.isSome
      destBaselineBytes := move.destination.baselineBytes
      finalBytes := file.finalBytes
      affected := file.affected
      warnings := file.warnings
      repairLayers := file.repairLayers }
  | none => .mutate file

def assertRollbackAvailable (backupsEnabled : Bool) (step : PlannedStep) :
    Except HashlineRejection Unit :=
  if backupsEnabled then .ok ()
  else
    match step with
    | .mutate _ => .error (.backupUnavailable
        "backups are disabled; refusing destructive hashline mutation without a restore record")
    | .mv mv =>
      if mv.destExisted then .error (.backupUnavailable
        "backups are disabled; refusing MV onto an existing destination without a restore record")
      else .ok ()

/-- Plan every section. A move is taken out of the map when its file is met. -/
def planSteps (backupsEnabled : Bool) :
    SortedMap PathBuf MergedMove → List PlannedFile → Except HashlineRejection (List PlannedStep)
  | _, [] => .ok []
  | moves, file :: rest => do
    let step := plannedStep moves file
    assertRollbackAvailable backupsEnabled step
    let steps ← planSteps backupsEnabled (moves.erase file.canonicalPath) rest
    return step :: steps

def planTransaction (sections : List TransactionSectionInput) (sessionRegisters : RegisterStore)
    (backupsEnabled : Bool) : Except HashlineRejection TransactionPlan := do
  if sections.isEmpty then throw (.parse "transaction plan requires at least one section")
  let split ← sections.foldlM SectionSplit.add .empty
  split.moves.entries.forM fun (source, move) => split.checkMove source move
  let plan ← planApply split.lineSections sessionRegisters
  let steps ← planSteps backupsEnabled split.moves plan.files
  return ⟨steps, plan.stagedRegisters⟩

/-! ## Outcomes -/

inductive FileRole where
  | primary
  | mvDestination
  | mvSource
deriving DecidableEq, Repr

/-- One row of the result. -/
structure FileOutcome where
  canonicalPath : PathBuf
  requestedPath : String
  role : FileRole
  classification : FileClassification
  mutationState : MutationState
  finalBytes : Option Bytes
  finalTag : Option String
  affected : AffectedRegion
  warnings : List String
  formatSkippedReason : Option String
  backupId : Option String
  removeFile : Bool
  tagNotice : Option String
deriving DecidableEq

structure TransactionEnvelope where
  success : Bool
  complete : Bool
  files : List FileOutcome
  opId : Option String
  stopReason : Option String
  registersCommitted : Bool
  preview : Bool
  summaryText : String
deriving DecidableEq

def FileClassification.asStr : FileClassification → String
  | applied => "applied"
  | appliedWithValidationFailure => "applied_with_validation_failure"
  | appliedTagUnavailable => "applied_tag_unavailable"
  | failedBackup => "failed_backup"
  | failedWrite => "failed_write"
  | failedDurability => "failed_durability"
  | failedSourceUnlink => "failed_source_unlink"
  | failedBaselineDrift => "failed_baseline_drift"
  | notAttempted => "not_attempted"

def failedOutcome (path : PathBuf) (requested : String) (role : FileRole)
    (classification : FileClassification) (removeFile : Bool) (warnings : List String) :
    FileOutcome where
  canonicalPath := path
  requestedPath := requested
  role := role
  classification := classification
  mutationState := classification.mutationState
  finalBytes := none
  finalTag := none
  affected := .default
  warnings := warnings
  formatSkippedReason := none
  backupId := none
  removeFile := removeFile
  tagNotice := none

def PlannedFile.failed (file : PlannedFile) (classification : FileClassification) :
    List FileOutcome :=
  [failedOutcome file.canonicalPath file.requestedPath .primary classification file.removeFile
    file.warnings]

def mvFailedPair (mv : PlannedMv) (destClass sourceClass : FileClassification) : List FileOutcome :=
  [failedOutcome mv.destCanonical mv.destRequested .mvDestination destClass false mv.warnings,
    failedOutcome mv.sourceCanonical mv.sourceRequested .mvSource sourceClass false []]

def notAttemptedForStep : PlannedStep → List FileOutcome
  | .mutate file => [failedOutcome file.canonicalPath file.requestedPath .primary .notAttempted
      file.removeFile []]
  | .mv mv => mvFailedPair mv .notAttempted .notAttempted

def countsTowardCompletion (file : FileOutcome) : Bool :=
  !(file.role == .mvSource && file.classification.isAppliedStar)

def summaryCounts (files : List FileOutcome) : String :=
  let primary := files.filter countsTowardCompletion
  let applied := primary.countP fun file => file.classification.isAppliedStar
  s!"{applied} of {primary.length} files applied"

/-! ## Phase 2 -/

/-- The bytes of every file. -/
abbrev Disk := PathBuf → Option Bytes

inductive ExecuteFault where
  | baselineDrift (step : ℕ)
  | backup (step : ℕ)
  | write (step : ℕ)
  | durability (step : ℕ)
  | sourceUnlink (step : ℕ)
  | finalTagUnavailable (step : ℕ)
  | validationFailure (step : ℕ)
deriving DecidableEq

/-- What the backup store answers: an error, a skipped backup, or the name of a record. -/
inductive BackupReply where
  | failed
  | skipped
  | captured (id : String)
deriving DecidableEq

/-- A failed write: whether its error speaks of durability, and what it leaves at the path. -/
structure WriteFailure where
  durability : Bool
  left : Option Bytes
deriving DecidableEq

/-- The snapshot of an edit response: its tag, if one was published, and a notice. -/
structure EditResponseReply where
  tag : Option String
  notice : Option String
deriving DecidableEq

/-- What the outside answers while a step is carried out. -/
structure StepIo where
  backup : BackupReply
  destBackup : BackupReply
  readable : Bool
  destReadable : Bool
  write : Except WriteFailure (List String)
  rereadable : Bool
  unlinkable : Bool
  published : EditResponseReply

structure ExecuteContext where
  opId : String
  maxDepth : ℕ
  fault : Option ExecuteFault
  io : ℕ → StepIo

variable (ctx : ExecuteContext)

def ExecuteContext.faultIs (want : ExecuteFault) : Bool :=
  ctx.fault = some want

/-- A write or removal: what was at the path, and what the plan had recorded for it. -/
structure DiskEffect where
  path : PathBuf
  found : Option Bytes
  recorded : Option Bytes
deriving DecidableEq

/-- The state of Phase 2: `records` are the paths of the kept backup records, `effects` the writes
and removals so far. -/
structure ExecState where
  disk : Disk
  journaled : Bool
  records : List PathBuf
  effects : List DiskEffect

inductive StepExec where
  | applied (outcomes : List FileOutcome)
  | stopped (outcomes : List FileOutcome) (reason : String)
deriving DecidableEq

def StepExec.outcomes : StepExec → List FileOutcome
  | applied outcomes | stopped outcomes _ => outcomes

def StepExec.isApplied : StepExec → Bool
  | applied _ => true
  | stopped _ _ => false

namespace ExecState

/-- Take a backup. A store of depth zero names a record that it does not keep. -/
def journal (state : ExecState) (maxDepth : ℕ) (path : PathBuf) :
    BackupReply → Option (Option String × ExecState)
  | .failed => none
  | .skipped => some (none, state)
  | .captured id => some (some id, { state with
      journaled := true
      records := if 0 < maxDepth then state.records ++ [path] else state.records })

/-- Change a path for which the plan has recorded some bytes, or none. -/
def put (state : ExecState) (path : PathBuf) (recorded content : Option Bytes) : ExecState :=
  { state with
    disk := Function.update state.disk path content
    effects := state.effects ++ [⟨path, state.disk path, recorded⟩] }

end ExecState

/-- A path that is gone matches an empty baseline. -/
def baselineMatches (readable : Bool) (found : Option Bytes) (expected : Bytes) : Bool :=
  readable && match found with
    | some bytes => decide (bytes = expected)
    | none => expected.isEmpty

def WriteFailure.classification (failure : WriteFailure) : FileClassification :=
  if failure.durability then .failedDurability else .failedWrite

def tagFromPublish (published : EditResponseReply) (classification : FileClassification) :
    Option String × Option String × FileClassification :=
  match published.tag with
  | some tag => (some tag, published.notice, classification)
  | none => (none, published.notice <|> some "final tag unavailable; re-read before chaining",
      .appliedTagUnavailable)

variable (index : ℕ)

/-- The tag of what was written at a step. -/
def ExecuteContext.observeTag : Option String × Option String × FileClassification :=
  if ctx.faultIs (.finalTagUnavailable index) then
    (none, some "final tag unavailable; re-read before chaining", .appliedTagUnavailable)
  else
    let classification :=
      if ctx.faultIs (.validationFailure index) then .appliedWithValidationFailure else .applied
    tagFromPublish (ctx.io index).published classification

section

variable (file : PlannedFile)

def PlannedFile.removed (backupId : Option String) : FileOutcome where
  canonicalPath := file.canonicalPath
  requestedPath := file.requestedPath
  role := .primary
  classification := .applied
  mutationState := .applied
  finalBytes := none
  finalTag := none
  affected := .default
  warnings := file.warnings
  formatSkippedReason := none
  backupId := backupId
  removeFile := true
  tagNotice := some "source path removed; no final tag"

/-- The row of a written file, with the bytes read back and their tag. -/
def PlannedFile.written (onDisk : Bytes) (backupId : Option String)
    (observed : Option String × Option String × FileClassification) : FileOutcome where
  canonicalPath := file.canonicalPath
  requestedPath := file.requestedPath
  role := .primary
  classification := observed.2.2
  mutationState := observed.2.2.mutationState
  finalBytes := some onDisk
  finalTag := observed.1
  affected := file.affected
  warnings := file.warnings
  formatSkippedReason := none
  backupId := backupId
  removeFile := false
  tagNotice := observed.2.1

/-- Write the final bytes of a file and read them back. -/
def writeMutate (backupId : Option String) (state : ExecState) : StepExec × ExecState :=
  match (ctx.io index).write with
  | .error failure => (.stopped (file.failed failure.classification) failure.classification.asStr,
      state.put file.canonicalPath (some file.baselineBytes) failure.left)
  | .ok writeWarnings =>
    let file := { file with warnings := file.warnings ++ writeWarnings }
    let state := state.put file.canonicalPath (some file.baselineBytes) (some file.finalBytes)
    if ctx.faultIs (.durability index) then
      (.stopped (file.failed .failedDurability) "failed_durability", state)
    else if (ctx.io index).rereadable then
      (.applied [file.written file.finalBytes backupId (ctx.observeTag index)], state)
    else (.applied [file.written file.finalBytes backupId
      (none, some "final bytes could not be re-read for tagging", .appliedTagUnavailable)], state)

def removeMutate (backupId : Option String) (state : ExecState) : StepExec × ExecState :=
  if (ctx.io index).unlinkable then
    (.applied [file.removed backupId],
      state.put file.canonicalPath (some file.baselineBytes) none)
  else (.stopped (file.failed .failedWrite) "failed_write", state)

def executeMutate (state : ExecState) : StepExec × ExecState :=
  if ctx.faultIs (.backup index) then
    (.stopped (file.failed .failedBackup) "failed_backup", state)
  else
    let reply := if (state.disk file.canonicalPath).isSome then (ctx.io index).backup else .skipped
    match state.journal ctx.maxDepth file.canonicalPath reply with
    | none => (.stopped (file.failed .failedBackup) "failed_backup", state)
    | some (backupId, state) =>
      if ctx.faultIs (.baselineDrift index) ||
          !baselineMatches (ctx.io index).readable (state.disk file.canonicalPath)
            file.baselineBytes then
        (.stopped (file.failed .failedBaselineDrift) "hashline_baseline_drift", state)
      else if ctx.faultIs (.write index) then
        (.stopped (file.failed .failedWrite) "failed_write", state)
      else if file.removeFile then removeMutate ctx index file backupId state
      else writeMutate ctx index file backupId state

end

def PlannedMv.destination (mv : PlannedMv) (backupId : Option String)
    (observed : Option String × Option String × FileClassification) : FileOutcome where
  canonicalPath := mv.destCanonical
  requestedPath := mv.destRequested
  role := .mvDestination
  classification := observed.2.2
  mutationState := observed.2.2.mutationState
  finalBytes := some mv.finalBytes
  finalTag := observed.1
  affected := mv.affected
  warnings := mv.warnings
  formatSkippedReason := none
  backupId := backupId
  removeFile := false
  tagNotice := observed.2.1

/-- The row of an MV source that is left in place. -/
def PlannedMv.sourceKept (mv : PlannedMv) (backupId : Option String) : FileOutcome where
  canonicalPath := mv.sourceCanonical
  requestedPath := mv.sourceRequested
  role := .mvSource
  classification := .failedSourceUnlink
  mutationState := .partialMv
  finalBytes := some mv.sourceBaselineBytes
  finalTag := none
  affected := .default
  warnings := []
  formatSkippedReason := none
  backupId := backupId
  removeFile := false
  tagNotice := some "destination written; source unlink failed — partial MV under shared op_id"

def PlannedMv.sourceRemoved (mv : PlannedMv) (backupId : Option String) : FileOutcome where
  canonicalPath := mv.sourceCanonical
  requestedPath := mv.sourceRequested
  role := .mvSource
  classification := .applied
  mutationState := .applied
  finalBytes := none
  finalTag := none
  affected := .default
  warnings := []
  formatSkippedReason := none
  backupId := backupId
  removeFile := true
  tagNotice := some "source path removed; no final tag"

def writeMv (mv : PlannedMv) (destBackupId sourceBackupId : Option String) (state : ExecState) :
    StepExec × ExecState :=
  match (ctx.io index).write with
  | .error failure => (.stopped (mvFailedPair mv failure.classification .notAttempted)
      failure.classification.asStr,
      state.put mv.destCanonical mv.destBaselineBytes failure.left)
  | .ok writeWarnings =>
    let mv := { mv with warnings := mv.warnings ++ writeWarnings }
    let state := state.put mv.destCanonical mv.destBaselineBytes (some mv.finalBytes)
    if ctx.faultIs (.durability index) then
      (.stopped (mvFailedPair mv .failedDurability .notAttempted) "failed_durability", state)
    else
      let observed := ctx.observeTag index
      if ctx.faultIs (.sourceUnlink index) || !(ctx.io index).unlinkable ||
          (state.disk mv.sourceCanonical).isNone then
        (.stopped [mv.destination destBackupId observed, mv.sourceKept sourceBackupId]
          "failed_source_unlink", state)
      else (.applied [mv.destination destBackupId observed, mv.sourceRemoved sourceBackupId],
        state.put mv.sourceCanonical (some mv.sourceBaselineBytes) none)

def executeMv (mv : PlannedMv) (state : ExecState) : StepExec × ExecState :=
  if ctx.faultIs (.backup index) then
    (.stopped (mvFailedPair mv .failedBackup .notAttempted) "failed_backup", state)
  else
    match state.journal ctx.maxDepth mv.destCanonical (ctx.io index).destBackup with
    | none => (.stopped (mvFailedPair mv .failedBackup .notAttempted) "failed_backup", state)
    | some (destBackupId, state) =>
      match state.journal ctx.maxDepth mv.sourceCanonical (ctx.io index).backup with
      | none => (.stopped (mvFailedPair mv .failedBackup .notAttempted) "failed_backup", state)
      | some (sourceBackupId, state) =>
        if ctx.faultIs (.baselineDrift index) ||
            !baselineMatches (ctx.io index).readable (state.disk mv.sourceCanonical)
              mv.sourceBaselineBytes ||
            mv.destBaselineBytes.any (fun expected => !baselineMatches (ctx.io index).destReadable
              (state.disk mv.destCanonical) expected) then
          (.stopped (mvFailedPair mv .failedBaselineDrift .notAttempted) "hashline_baseline_drift",
            state)
        else if ctx.faultIs (.write index) then
          (.stopped (mvFailedPair mv .failedWrite .notAttempted) "failed_write", state)
        else writeMv ctx index mv destBackupId sourceBackupId state

def executeStep (step : PlannedStep) (state : ExecState) : StepExec × ExecState :=
  match step with
  | .mutate file => executeMutate ctx index file state
  | .mv mv => executeMv ctx index mv state

/-- The loop over the steps: the rows, the reason for stopping, and the last state. -/
def executeSteps (ctx : ExecuteContext) :
    ℕ → List PlannedStep → ExecState → List FileOutcome × Option String × ExecState
  | _, [], state => ([], none, state)
  | index, step :: rest, state =>
    match executeStep ctx index step state with
    | (.applied outcomes, state) =>
      let (files, reason, final) := executeSteps ctx (index + 1) rest state
      (outcomes ++ files, reason, final)
    | (.stopped outcomes reason, state) =>
      (outcomes ++ rest.flatMap notAttemptedForStep, some reason, state)

/-- The result of a transaction: the envelope, the session's registers and the last state. -/
structure Executed where
  envelope : TransactionEnvelope
  registers : RegisterStore
  state : ExecState

def executeTransaction (plan : TransactionPlan) (ctx : ExecuteContext) (registers : RegisterStore)
    (disk : Disk) : Executed :=
  let (files, stopReason, final) := executeSteps ctx 0 plan.steps ⟨disk, false, [], []⟩
  let classifications := (files.filter countsTowardCompletion).map FileOutcome.classification
  let (registers, committed) :=
    commitRegistersIfComplete registers plan.stagedRegisters classifications
  let applied := classifications.countP FileClassification.isAppliedStar
  { envelope :=
      { success := 0 < applied
        complete := applied = classifications.length ∧ 0 < classifications.length
        files := files
        opId := if final.journaled then some ctx.opId else none
        stopReason := stopReason
        registersCommitted := committed
        preview := false
        summaryText := summaryCounts files }
    registers := registers
    state := final }

end Aft.Hashline
