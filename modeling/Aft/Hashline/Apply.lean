import Aft.Hashline.Registers
import Aft.Hashline.Edits

/-!
# In-memory apply

Phase-1 planning of line mutations. `applySectionOps` plans one section against one baseline:
operations are lowered to edits, coalesced, repaired, materialized and joined. A path that several
sections name is planned by a `CompositionState`, which applies the operations one after another,
re-scans the bytes after each, and re-addresses the next one through the origins of the current
rows. `planApply` verifies all sections first.
-/

namespace Aft.Hashline

/-! ## Affected regions -/

structure LineRange where
  start : ℕ
  stop : ℕ
deriving DecidableEq, Repr

def LineRange.isEmpty (range : LineRange) : Bool :=
  range.start == 0 || decide (range.stop < range.start)

/-- Add a range to a list of ranges kept in reverse, merging it with the last one if they touch. -/
def pushRange (result : List LineRange) (range : LineRange) : List LineRange :=
  match result with
  | last :: rest =>
    if range.start ≤ last.stop + 1 then ⟨last.start, max last.stop range.stop⟩ :: rest
    else range :: last :: rest
  | [] => [range]

def coalesceRanges (ranges : List LineRange) : List LineRange :=
  (((ranges.filter fun range => !range.isEmpty).insertionSort fun a b =>
    toLex (a.start, a.stop) ≤ toLex (b.start, b.stop)).foldl pushRange []).reverse

structure AffectedRegion where
  ranges : List LineRange
deriving DecidableEq, Repr

namespace AffectedRegion

def default : AffectedRegion := ⟨[]⟩

def new (ranges : List LineRange) : AffectedRegion := ⟨coalesceRanges ranges⟩

def insertion (start insertedLines : ℕ) : AffectedRegion :=
  if insertedLines = 0 then default else new [⟨start, start + insertedLines - 1⟩]

end AffectedRegion

def commonPrefix : List String → List String → ℕ
  | a :: as, b :: bs => if a = b then commonPrefix as bs + 1 else 0
  | _, _ => 0

/-- The output rows that differ, from the common first and last lines. -/
def affectedFromLineDiff (before after : List String) : AffectedRegion :=
  if before.isEmpty then .insertion 1 after.length
  else if after.isEmpty then .default
  else
    let first := commonPrefix before after
    let last := commonPrefix (before.drop first).reverse (after.drop first).reverse
    let afterMid := after.length - (first + last)
    if afterMid = 0 then
      let hole := if first < after.length then first + 1 else max after.length 1
      .new [⟨hole, hole⟩]
    else .insertion (first + 1) afterMid

/-! ## Plans -/

/-- One file's plan. -/
structure PlannedFile where
  canonicalPath : PathBuf
  requestedPath : String
  baselineBytes : Bytes
  finalBytes : Bytes
  affected : AffectedRegion
  removeFile : Bool
  warnings : List String
  repairLayers : List String
deriving DecidableEq

structure ApplyPlan where
  files : List PlannedFile
  stagedRegisters : StagedRegisters
deriving DecidableEq

structure SectionPlanInput where
  canonicalPath : PathBuf
  requestedPath : String
  baseline : Baseline
  snapshot : Snapshot
  operations : List Operation
  resolved : List ResolvedOperation
deriving DecidableEq

/-- What a branch that the source marks unreachable gives here. -/
def unreachableCode : HashlineRejection := .parse "entered unreachable code"

/-! ## Lowering -/

/-- Where the text of a gap goes. After the last row the end of the file is the anchor. -/
def gapPlacement : ResolvedGap → ℕ × InsertPlace
  | ⟨none, none⟩ | ⟨none, some 1⟩ => (1, .bof)
  | ⟨none, some after⟩ => (after, .before)
  | ⟨some before, none⟩ => (before, .eof)
  | ⟨some before, some _⟩ => (before, .after)

def lowerPutBody (address : ResolvedAddress) (body : List String) (opIndex : ℕ) : List LineEdit :=
  match address with
  | .span span =>
    body.map (fun text => .insert span.start .before text .replacement opIndex) ++
      span.lines.map fun line => .delete line opIndex
  | .gap gap =>
    body.map fun text => .insert (gapPlacement gap).1 (gapPlacement gap).2 text .plain opIndex
  | .wholeFile => body.map fun text => .insert 1 .before text .replacement opIndex
  | .blockAnchor _ | .blockGapAnchor _ _ => []

def ResolvedAddress.isSpan : ResolvedAddress → Bool
  | .span _ => true
  | _ => false

section

variable (source : PutSource) (address : ResolvedAddress) (registers : StagedRegisters)

def putBody : Except HashlineRejection (List String) :=
  match source with
  | .text lines => .ok lines
  | .register register => registers.readForPut register address.isSpan

def lowerPut (opIndex : ℕ) : Except HashlineRejection (List LineEdit) := do
  let body ← putBody source address registers
  return lowerPutBody address body opIndex

end

/-- Delete the lines of a span and capture them. -/
def lowerCutSpan (register : Option RegisterRef) (span : LineSpan) (lines : List String)
    (registers : StagedRegisters) (opIndex : ℕ) :
    Except HashlineRejection (List LineEdit × StagedRegisters) := do
  let captured := span.lines.map fun line => lines.getD (line - 1) ""
  let registers ← registers.capture (register.getD .anonymous) captured
  return (span.lines.map fun line => .delete line opIndex, registers)

def lowerCut (register : Option RegisterRef) (address : ResolvedAddress) (lines : List String)
    (registers : StagedRegisters) (opIndex : ℕ) :
    Except HashlineRejection (List LineEdit × StagedRegisters) :=
  match address with
  | .span span => lowerCutSpan register span lines registers opIndex
  | .wholeFile =>
    if h : 0 < lines.length then
      lowerCutSpan register ⟨1, lines.length, Nat.one_pos, h⟩ lines registers opIndex
    else .ok ([], registers)
  | .gap _ | .blockAnchor _ | .blockGapAnchor _ _ =>
    .error (.eligibility .boundaryIneligible "CUT requires a line or range address")

/-- Lower one line operation. REM and MV never get here. -/
def lowerOperation (lines : List String) (operation : Operation) (resolved : ResolvedOperation)
    (registers : StagedRegisters) : Except HashlineRejection (List LineEdit × StagedRegisters) :=
  match operation with
  | .put _ source _ => do
    let edits ← lowerPut source resolved.address registers resolved.operationIndex
    return (edits, registers)
  | .cut _ register _ =>
    lowerCut register resolved.address lines registers resolved.operationIndex
  | .rem _ | .mv _ _ => .error unreachableCode

def lowerOperations (lines : List String) : List (Operation × ResolvedOperation) → StagedRegisters →
      Except HashlineRejection (List LineEdit × StagedRegisters)
  | [], registers => .ok ([], registers)
  | (operation, resolved) :: rest, registers => do
    let (edits, registers) ← lowerOperation lines operation resolved registers
    let (more, registers) ← lowerOperations lines rest registers
    return (edits ++ more, registers)

def fromUtf8 (bytes : Bytes) : Option String := String.fromUTF8? ⟨bytes.toArray⟩

def lineContentUtf8 (record : RawLineRecord) : Except HashlineRejection String :=
  match fromUtf8 record.content with
  | some line => .ok line
  | none => .error (.new .untaggablePath .path "baseline line is not valid UTF-8")

def baselineLines (baseline : Baseline) : Except HashlineRejection (List String) :=
  (List.range' 1 baseline.snapshot.totalLines).mapM fun line =>
    match baseline.rawRecord line with
    | some record => lineContentUtf8 record
    | none => .error (.parse s!"baseline is missing raw record for line {line}")

/-! ## One section -/

def Operation.isRem : Operation → Bool
  | .rem _ => true
  | _ => false

def Operation.isMv : Operation → Bool
  | .mv _ _ => true
  | _ => false

/-- Whether replacement coalescing is reported. -/
def coalescedApplied (edits coalesced : List LineEdit) : Bool :=
  coalesced != edits ||
    ((findReplacementGroup coalesced).isSome && edits.any LineEdit.isReplacementInsert)

def recordedLayers (edits coalesced : List LineEdit) (layers : List String) : List String :=
  if coalescedApplied edits coalesced ∧ (findReplacementGroup coalesced).isSome ∧
      "replacement-coalescing" ∉ layers ∧ 1 < coalesced.countP LineEdit.isDelete then
    "replacement-coalescing" :: layers
  else layers

/-- What line operations make of a file: its final logical lines and the diagnostics. -/
structure LinePlan where
  finalLines : List String
  warnings : List String
  repairLayers : List String
deriving DecidableEq

def planLines (originalLines : List String) (edits : List LineEdit) : LinePlan :=
  let coalesced := coalesceReplacementEdits edits
  let repaired := applyRepairLayers coalesced originalLines
  { finalLines := materializeEdits originalLines repaired.edits
    warnings := repaired.warnings
    repairLayers := recordedLayers edits coalesced repaired.layersApplied }

def planSectionLines (baseline : Baseline) (operations : List Operation)
    (resolved : List ResolvedOperation) (registers : StagedRegisters) :
    Except HashlineRejection (List String × LinePlan × StagedRegisters) := do
  let originalLines ← baselineLines baseline
  let (edits, registers) ← lowerOperations originalLines (operations.zip resolved) registers
  return (originalLines, planLines originalLines edits, registers)

def countMismatch : HashlineRejection :=
  .parse "resolved operation count does not match the parsed section"

def applySectionOps (requestedPath : String) (canonicalPath : PathBuf) (baseline : Baseline)
    (operations : List Operation) (resolved : List ResolvedOperation)
    (registers : StagedRegisters) : Except HashlineRejection (PlannedFile × StagedRegisters) := do
  if operations.length ≠ resolved.length then throw countMismatch
  if operations.head?.any Operation.isRem then
    if operations.length ≠ 1 then throw (.parse "REM cannot be combined with other operations")
    return (⟨canonicalPath, requestedPath, baseline.bytes, [], .default, true, [], []⟩, registers)
  if operations.any Operation.isMv then
    throw (.parse "MV is not handled by the line-apply engine")
  let (originalLines, plan, registers) ← planSectionLines baseline operations resolved registers
  let policy := terminatorPolicy baseline.snapshot.records
  return (
    { canonicalPath := canonicalPath
      requestedPath := requestedPath
      baselineBytes := baseline.bytes
      finalBytes := joinLines plan.finalLines policy.1 policy.2
      affected := affectedFromLineDiff originalLines plan.finalLines
      removeFile := false
      warnings := plan.warnings
      repairLayers := plan.repairLayers }, registers)

/-! ## Composition of several sections of one path -/

structure OriginalGap where
  before : Option ℕ
  after : Option ℕ
deriving DecidableEq, Repr

/-- Where a row of the current bytes comes from, in pre-request coordinates. -/
inductive LineOrigin where
  | original (line : ℕ)
  | replacement (source : LineSpan) (operation : String)
  | inserted (gap : OriginalGap)
deriving DecidableEq

def LineOrigin.coversLine (origin : LineOrigin) (line : ℕ) : Bool :=
  match origin with
  | .original row => row == line
  | .replacement source _ => decide (source.start ≤ line ∧ line ≤ source.stop)
  | .inserted _ => false

def spansOverlap (left right : LineSpan) : Bool :=
  decide (left.start ≤ right.stop ∧ right.start ≤ left.stop)

def spanContains (outer inner : LineSpan) : Bool :=
  decide (outer.start ≤ inner.start ∧ inner.stop ≤ outer.stop)

def operationLabel : Operation → String
  | .put _ _ line => s!"PUT at patch line {line}"
  | .cut _ _ line => s!"CUT at patch line {line}"
  | .rem line => s!"REM at patch line {line}"
  | .mv _ line => s!"MV at patch line {line}"

def compositionConflict (currentOperation previousOperation reason : String) : HashlineRejection :=
  .eligibility .boundaryIneligible
    s!"same-path composition conflict: {currentOperation} conflicts with {previousOperation}: {reason}"

structure CompositionState where
  canonicalPath : PathBuf
  requestedPath : String
  original : Baseline
  current : Baseline
  origins : List LineOrigin
  deletedBy : SortedMap ℕ String
  removedBy : Option String
  warnings : List String
  repairLayers : List String
  removeFile : Bool
deriving DecidableEq

/-- Whether a span of pre-request rows takes a row of this origin; `none` for part of a
replacement. -/
def LineOrigin.selectedBy (span : LineSpan) : LineOrigin → Option Bool
  | .original line => some (decide (span.start ≤ line ∧ line ≤ span.stop))
  | .replacement source _ =>
    if spansOverlap source span then if spanContains span source then some true else none
    else some false
  | .inserted _ => some false

def LineOrigin.operation : LineOrigin → String
  | .replacement _ operation => operation
  | .original _ | .inserted _ => ""

def indicesOf (p : LineOrigin → Bool) (origins : List LineOrigin) : List ℕ :=
  (List.range origins.length).filter fun index => origins[index]?.any p

theorem indicesOf_pairwise (p : LineOrigin → Bool) (origins : List LineOrigin) :
    (indicesOf p origins).Pairwise (· < ·) :=
  List.pairwise_lt_range.filter _

/-- The rows from the first to the last of some increasing indices. -/
def spanOfIndices (indices : List ℕ) (hsorted : indices.Pairwise (· < ·)) (hne : indices ≠ []) :
    LineSpan where
  start := indices.head hne + 1
  stop := indices.getLast hne + 1
  pos := Nat.succ_pos _
  le := by
    cases indices with
    | nil => exact absurd rfl hne
    | cons first rest =>
      rcases List.mem_cons.1 (List.getLast_mem hne) with h | h
      · rw [h, List.head_cons]
      · exact Nat.succ_le_succ ((List.pairwise_cons.1 hsorted).1 _ h).le

namespace CompositionState

def new (input : SectionPlanInput) : CompositionState where
  canonicalPath := input.canonicalPath
  requestedPath := input.requestedPath
  original := input.baseline
  current := input.baseline
  origins := (List.range' 1 input.baseline.snapshot.totalLines).map .original
  deletedBy := .empty
  removedBy := none
  warnings := []
  repairLayers := []
  removeFile := false

variable (state : CompositionState)

/-- Refuse the first of some rows that an earlier operation deleted. -/
def checkNotDeleted (lines : List ℕ) (currentOperation : String) (reason : ℕ → String) :
    Except HashlineRejection Unit :=
  match lines.findSome? fun line => (state.deletedBy.find? line).map (line, ·) with
  | some (line, previous) => .error (compositionConflict currentOperation previous (reason line))
  | none => .ok ()

def remapSpan (span : LineSpan) (currentOperation : String) :
    Except HashlineRejection LineSpan := do
  state.checkNotDeleted span.lines currentOperation fun line =>
    s!"pre-request line {line} was deleted earlier"
  match state.origins.find? fun origin => (origin.selectedBy span).isNone with
  | some origin => throw (compositionConflict currentOperation origin.operation
      "the later pre-request span only partially overlaps an earlier replacement")
  | none =>
    let selects (origin : LineOrigin) : Bool := origin.selectedBy span == some true
    if h : indicesOf selects state.origins = [] then
      throw (.eligibility .boundaryIneligible (currentOperation ++
        " cannot resolve its pre-request span after earlier same-path operations"))
    else return spanOfIndices _ (indicesOf_pairwise selects state.origins) h

/-- The first row that stands for a pre-request line, counted from one. -/
def firstIndexForOriginal (line : Option ℕ) : Option ℕ := do
  let line ← line
  (indicesOf (fun origin => origin.coversLine line) state.origins).head?.map (· + 1)

/-- The last row that stands for a pre-request line, counted from one. -/
def lastIndexForOriginal (line : Option ℕ) : Option ℕ := do
  let line ← line
  (indicesOf (fun origin => origin.coversLine line) state.origins).getLast?.map (· + 1)

def remapGap (gap : OriginalGap) (currentOperation : String) :
    Except HashlineRejection ResolvedGap := do
  state.checkNotDeleted (gap.before.toList ++ gap.after.toList) currentOperation fun line =>
    s!"required pre-request gap anchor line {line} was deleted earlier"
  let before := state.lastIndexForOriginal gap.before
  let after := state.firstIndexForOriginal gap.after
  let lastInserted :=
    (indicesOf (fun origin => origin == .inserted gap) state.origins).getLast?.map (· + 1)
  return ⟨lastInserted <|> before, after⟩

def remapAddress (address : ResolvedAddress) (currentOperation : String) :
    Except HashlineRejection ResolvedAddress :=
  match address with
  | .span span => (state.remapSpan span currentOperation).map .span
  | .gap gap => (state.remapGap ⟨gap.before, gap.after⟩ currentOperation).map .gap
  | .wholeFile | .blockAnchor _ | .blockGapAnchor _ _ => .ok address

def markDeleted (lines : List ℕ) (operationName : String) : SortedMap ℕ String :=
  lines.foldl (fun deletedBy line => deletedBy.insert line operationName) state.deletedBy

def updateOrigins (operation : Operation) (originalAddress currentAddress : ResolvedAddress)
    (operationName : String) (beforeLines afterLines : ℕ) :
    Except HashlineRejection CompositionState :=
  match operation with
  | .put _ _ _ =>
    match originalAddress, currentAddress with
    | .span original, .span current =>
      let replaced := current.stop - current.start + 1
      if afterLines + replaced < beforeLines then
        .error (.parse "same-path replacement produced inconsistent line accounting")
      else .ok { state with
        origins := state.origins.take (current.start - 1) ++
          List.replicate (afterLines + replaced - beforeLines)
            (.replacement original operationName) ++
          state.origins.drop current.stop }
    | .gap original, .gap current =>
      if afterLines < beforeLines then
        .error (.parse "same-path gap insertion produced inconsistent line accounting")
      else
        let index := current.before.getD 0
        .ok { state with
          origins := state.origins.take index ++
            List.replicate (afterLines - beforeLines)
              (.inserted ⟨original.before, original.after⟩) ++
            state.origins.drop index }
    | _, _ => .ok state
  | .cut _ _ _ =>
    match originalAddress, currentAddress with
    | .span original, .span current =>
      .ok { state with
        origins := state.origins.take (current.start - 1) ++ state.origins.drop current.stop
        deletedBy := state.markDeleted original.lines operationName }
    | _, _ => .ok state
  | .rem _ =>
    .ok { state with
      origins := []
      deletedBy := state.markDeleted (List.range' 1 state.original.snapshot.totalLines) operationName
      removedBy := some operationName }
  | .mv _ _ => .ok state

def addLayers (recorded layers : List String) : List String :=
  layers.foldl (fun recorded layer =>
    if layer ∈ recorded then recorded else recorded ++ [layer]) recorded

def applyOperation (operation : Operation) (resolved : ResolvedOperation)
    (registers : StagedRegisters) :
    Except HashlineRejection (CompositionState × StagedRegisters) := do
  let currentOperation := operationLabel operation
  if let some previous := state.removedBy then
    throw (compositionConflict currentOperation previous
      "the earlier operation removed the whole pre-request file")
  let currentAddress ← state.remapAddress resolved.address currentOperation
  let (planned, registers) ← applySectionOps state.requestedPath state.canonicalPath state.current
    [operation] [⟨resolved.operationIndex, currentAddress⟩] registers
  let after := Baseline.fromBytes planned.finalBytes
  let updated ← state.updateOrigins operation resolved.address currentAddress currentOperation
    state.current.snapshot.totalLines after.snapshot.totalLines
  return ({ updated with
    current := after
    removeFile := planned.removeFile
    warnings := state.warnings ++ planned.warnings
    repairLayers := addLayers state.repairLayers planned.repairLayers }, registers)

def applyOperations (state : CompositionState) :
    List (Operation × ResolvedOperation) → StagedRegisters →
      Except HashlineRejection (CompositionState × StagedRegisters)
  | [], registers => .ok (state, registers)
  | (operation, resolved) :: rest, registers => do
    let (next, registers) ← state.applyOperation operation resolved registers
    next.applyOperations rest registers

def applySection (input : SectionPlanInput) (registers : StagedRegisters) :
    Except HashlineRejection (CompositionState × StagedRegisters) :=
  if input.operations.length ≠ input.resolved.length then .error countMismatch
  else state.applyOperations (input.operations.zip input.resolved) registers

def finish : Except HashlineRejection PlannedFile := do
  let affected ←
    if state.removeFile then pure AffectedRegion.default
    else do
      let originalLines ← baselineLines state.original
      let finalLines ← baselineLines state.current
      pure (affectedFromLineDiff originalLines finalLines)
  return ⟨state.canonicalPath, state.requestedPath, state.original.bytes, state.current.bytes,
    affected, state.removeFile, state.warnings, state.repairLayers⟩

end CompositionState

/-! ## The whole patch -/

inductive ApplyPlanSlot where
  | complete (file : PlannedFile)
  | composing (state : CompositionState)
deriving DecidableEq

def ApplyPlanSlot.finish : ApplyPlanSlot → Except HashlineRejection PlannedFile
  | .complete file => .ok file
  | .composing state => state.finish

def verifySectionAgainstPreRequestBaseline (input : SectionPlanInput) :
    Except HashlineRejection Unit :=
  input.resolved.forM fun resolved =>
    match verifyExact input.snapshot input.baseline resolved.address with
    | .exact => .ok ()
    | .recoveryRequired _ => .error (.new .staleTag .recovery
        "addressed content no longer matches the Phase-1 baseline")
    | .rejected rejection => .error rejection
    | .blockNeedsResolution _ => .error (.new .boundaryIneligible .eligibility
        "block address was not expanded before apply planning")

/-- Verify sections in order; sections of one path must share one baseline. -/
def verifySections : List SectionPlanInput → SortedMap PathBuf Bytes →
    Except HashlineRejection Unit
  | [], _ => .ok ()
  | input :: rest, commonBaselines => do
    let commonBaselines ← match commonBaselines.find? input.canonicalPath with
      | some existing =>
        if existing ≠ input.baseline.bytes then
          throw (.new .staleTag .baseline
            "sections for one canonical path did not retain one Phase-1 baseline")
        else pure commonBaselines
      | none => pure (commonBaselines.insert input.canonicalPath input.baseline.bytes)
    verifySectionAgainstPreRequestBaseline input
    verifySections rest commonBaselines

def sectionCount (sections : List SectionPlanInput) (path : PathBuf) : ℕ :=
  sections.countP fun input => input.canonicalPath = path

/-- The planning loop's state: one slot for each path met so far. -/
structure PlanState where
  staged : StagedRegisters
  slots : List ApplyPlanSlot
  slotByPath : SortedMap PathBuf ℕ
deriving DecidableEq

section

variable (state : PlanState) (input : SectionPlanInput)

def PlanState.withSlot (slot : ApplyPlanSlot) : PlanState :=
  { state with
    slots := state.slots ++ [slot]
    slotByPath := state.slotByPath.insert input.canonicalPath state.slots.length }

def PlanState.planSingle : Except HashlineRejection PlanState := do
  let (planned, staged) ← applySectionOps input.requestedPath input.canonicalPath input.baseline
    input.operations input.resolved state.staged
  return { state.withSlot input (.complete planned) with staged := staged }

def PlanState.planRepeated : Except HashlineRejection PlanState := do
  let opened : PlanState := match state.slotByPath.find? input.canonicalPath with
    | some _ => state
    | none => state.withSlot input (.composing (.new input))
  let slot := (opened.slotByPath.find? input.canonicalPath).getD 0
  match opened.slots[slot]? with
  | some (.composing composition) =>
    let (composition, staged) ← composition.applySection input state.staged
    return { opened with
      staged := staged
      slots := opened.slots.set slot (.composing composition) }
  | _ => throw unreachableCode

end

def PlanState.planSection (sections : List SectionPlanInput) (state : PlanState)
    (input : SectionPlanInput) : Except HashlineRejection PlanState :=
  if sectionCount sections input.canonicalPath = 1 then state.planSingle input
  else state.planRepeated input

def planApply (sections : List SectionPlanInput) (sessionRegisters : RegisterStore) :
    Except HashlineRejection ApplyPlan := do
  verifySections sections .empty
  let state ← sections.foldlM (PlanState.planSection sections) ⟨sessionRegisters.stage, [], .empty⟩
  let files ← state.slots.mapM ApplyPlanSlot.finish
  return ⟨files, state.staged⟩

/-! ## Classifications of written files -/

inductive FileClassification where
  | applied
  | appliedWithValidationFailure
  | appliedTagUnavailable
  | failedBackup
  | failedWrite
  | failedDurability
  | failedSourceUnlink
  | failedBaselineDrift
  | notAttempted
deriving DecidableEq, Repr

inductive MutationState where
  | unmutated
  | applied
  | unknownPossiblyMutated
  | partialMv
deriving DecidableEq, Repr

namespace FileClassification

/-- The classifications that authorize publishing the registers. -/
def isAppliedStar : FileClassification → Bool
  | applied | appliedWithValidationFailure | appliedTagUnavailable => true
  | _ => false

def mutationState : FileClassification → MutationState
  | applied | appliedWithValidationFailure | appliedTagUnavailable => .applied
  | failedBackup | failedBaselineDrift | notAttempted => .unmutated
  | failedWrite | failedDurability => .unknownPossiblyMutated
  | failedSourceUnlink => .partialMv

end FileClassification

def commitRegistersIfComplete (session : RegisterStore) (staged : StagedRegisters)
    (classifications : List FileClassification) : RegisterStore × Bool :=
  if !classifications.isEmpty && classifications.all FileClassification.isAppliedStar then
    (session.commit staged, true)
  else (session, false)

end Aft.Hashline
