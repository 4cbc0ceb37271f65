import Aft.Hashline.Scan
import Aft.Lib.Result

/-!
# Addresses, eligibility and verification

The operations of a hashline patch and the Phase-1 checks on them. An address is resolved against
the retained snapshot (`resolveAddress`), must be authorized by what it has seen
(`checkEligibility`), and is compared with one baseline (`verifyExact`). A resolved address names
rows of the snapshot and gaps between neighbouring rows (`resolveWith_inside`), except that a gap
before row one names a row zero; a gap that verification finds exact has its rows where they were
(`verifyExact_gap_keeps`).
-/

namespace Aft.Hashline

/-! ## Rejections -/

inductive HashlineRejectionCode where
  | missingTag
  | malformedTag
  | unknownTag
  | evictedTag
  | ambiguousTag
  | staleTag
  | unseenLine
  | boundaryIneligible
  | untaggablePath
  | registerOverflow
  | backupUnavailable
  | parseError
deriving DecidableEq, Repr

inductive RejectionStage where
  | parse
  | header
  | path
  | resolution
  | eligibility
  | verification
  | recovery
  | register
  | baseline
deriving DecidableEq, Repr

/-- The advice that goes with a rejection. -/
def steeringFor : HashlineRejectionCode → RejectionStage → String
  | .missingTag, _ | .malformedTag, _ =>
    "run `read <path>` on the file, then include the four-hex tag it returns"
  | .unknownTag, .resolution | .evictedTag, .resolution =>
    "run `read <path>` again to mint a fresh tag, then retry the edit"
  | .ambiguousTag, .resolution =>
    "use apply_patch or another available non-hashline edit surface; re-reading preserves this " ++
      "colliding four-hex tag"
  | .ambiguousTag, .recovery =>
    "re-address the current tagged content; the stale span has multiple verbatim landings"
  | .staleTag, .verification =>
    "run `read <path>` over the addressed range because required boundary context changed"
  | .staleTag, .recovery =>
    "re-address the current tagged content; the stale span no longer occurs verbatim"
  | .unseenLine, _ | .boundaryIneligible, _ =>
    "re-read the file to mint a fresh tag that includes every addressed row and boundary, then " ++
      "retry the edit"
  | .untaggablePath, _ =>
    "choose a writable regular text file or use an available non-hashline surface"
  | .registerOverflow, _ => "reduce register contents before retrying the patch"
  | .backupUnavailable, _ => "enable backups or use apply_patch for this destructive change"
  | .parseError, _ =>
    "submit only a hashline patch with tagged section headers and valid operations"
  | _, _ => "run `read <path>` again to mint a fresh tag, then retry the edit"

structure HashlineRejection where
  code : HashlineRejectionCode
  stage : RejectionStage
  message : String
  steering : String
deriving DecidableEq, Repr

namespace HashlineRejection

def new (code : HashlineRejectionCode) (stage : RejectionStage) (message : String) :
    HashlineRejection :=
  ⟨code, stage, message, steeringFor code stage⟩

def parse (message : String) : HashlineRejection := .new .parseError .parse message

def eligibility (code : HashlineRejectionCode) (message : String) : HashlineRejection :=
  .new code .eligibility message

def staleVerification (message : String) : HashlineRejection :=
  .new .staleTag .verification message

def backupUnavailable (message : String) : HashlineRejection :=
  .new .backupUnavailable .baseline message

end HashlineRejection

/-! ## Operations -/

inductive LineReference where
  | absolute (line : ℕ) (pos : 0 < line)
  | eofRelative (offset : ℕ)
deriving DecidableEq

inductive GapSide where
  | before
  | after
deriving DecidableEq, Repr

inductive Address where
  | bof
  | line (reference : LineReference)
  | range (start stop : LineReference)
  | gap (side : GapSide) (line : LineReference)
  | block (reference : LineReference)
  | blockGap (side : GapSide) (line : LineReference)
deriving DecidableEq

inductive RegisterRef where
  | anonymous
  | named (name : String)
deriving DecidableEq, Repr

inductive PutSource where
  | text (lines : List String)
  | register (register : RegisterRef)
deriving DecidableEq, Repr

/-- An operation of a section; `line` is its line in the patch. -/
inductive Operation where
  | put (address : Address) (source : PutSource) (line : ℕ)
  | cut (address : Address) (register : Option RegisterRef) (line : ℕ)
  | rem (line : ℕ)
  | mv (destination : String) (line : ℕ)
deriving DecidableEq

def Operation.address : Operation → Option Address
  | .put address _ _ | .cut address _ _ => some address
  | .rem _ | .mv _ _ => none

/-! ## Resolved addresses -/

/-- A non-empty inclusive span of rows. -/
structure LineSpan where
  start : ℕ
  stop : ℕ
  pos : 0 < start
  le : start ≤ stop
deriving DecidableEq

variable {span : LineSpan}

namespace LineSpan

def new (start stop : ℕ) : Option LineSpan :=
  if h : 0 < start ∧ start ≤ stop then some ⟨start, stop, h.1, h.2⟩ else none

def single (line : ℕ) (pos : 0 < line) : LineSpan := ⟨line, line, pos, le_rfl⟩

def lines (span : LineSpan) : List ℕ := List.range' span.start (span.stop + 1 - span.start)

variable {line : ℕ}

theorem mem_lines : line ∈ span.lines ↔ span.start ≤ line ∧ line ≤ span.stop := by
  rw [lines, List.mem_range'_1]
  omega

theorem start_mem_lines (span : LineSpan) : span.start ∈ span.lines := mem_lines.2 ⟨le_rfl, span.le⟩

theorem pos_of_mem_lines (h : line ∈ span.lines) : 0 < line :=
  span.pos.trans_le (mem_lines.1 h).1

end LineSpan

/-- The two rows a gap lies between; `none` stands for the beginning or the end of the file. -/
structure ResolvedGap where
  before : Option ℕ
  after : Option ℕ
deriving DecidableEq, Repr

def ResolvedGap.anchors (gap : ResolvedGap) : List ℕ := gap.before.toList ++ gap.after.toList

inductive ResolvedAddress where
  | wholeFile
  | span (span : LineSpan)
  | gap (gap : ResolvedGap)
  | blockAnchor (line : ℕ)
  | blockGapAnchor (side : GapSide) (anchor : ℕ)
deriving DecidableEq

structure ResolvedOperation where
  operationIndex : ℕ
  address : ResolvedAddress
deriving DecidableEq

def outsideSnapshot : HashlineRejection :=
  .eligibility .boundaryIneligible "address falls outside the retained snapshot boundary"

/-- The row a reference names, which is positive. -/
def resolveLineReference (reference : LineReference) (totalLines : ℕ) :
    Except HashlineRejection {line : ℕ // 0 < line} :=
  match reference with
  | .absolute line pos => if line ≤ totalLines then .ok ⟨line, pos⟩ else .error outsideSnapshot
  | .eofRelative offset =>
    if h : offset < totalLines then .ok ⟨totalLines - offset, Nat.sub_pos_of_lt h⟩
    else .error outsideSnapshot

/-- The gap beside the rows `first` to `last`. -/
def gapBeside (side : GapSide) (first last totalLines : ℕ) : ResolvedGap :=
  match side with
  | .before => ⟨some (first - 1), some first⟩
  | .after => ⟨some last, if last < totalLines then some (last + 1) else none⟩

def resolveAddress (address : Address) (snapshot : Snapshot) :
    Except HashlineRejection ResolvedAddress := do
  let totalLines := snapshot.totalLines
  match address with
  | .bof => return .gap ⟨none, if 0 < totalLines then some 1 else none⟩
  | .line reference =>
    let line ← resolveLineReference reference totalLines
    return .span (.single line.1 line.2)
  | .range start stop =>
    let start ← resolveLineReference start totalLines
    let stop ← resolveLineReference stop totalLines
    match LineSpan.new start.1 stop.1 with
    | some span => return .span span
    | none => throw (.eligibility .boundaryIneligible
        "range start occurs after range end in the retained snapshot")
  | .gap side line =>
    let line ← resolveLineReference line totalLines
    return .gap (gapBeside side line.1 line.1 totalLines)
  | .block reference =>
    let line ← resolveLineReference reference totalLines
    return .blockAnchor line.1
  | .blockGap side line =>
    let line ← resolveLineReference line totalLines
    return .blockGapAnchor side line.1

/-- Substitute a language-aware block span for a parsed block anchor. -/
def expandBlock (resolved : ResolvedAddress) (span : LineSpan) (snapshot : Snapshot) :
    Except HashlineRejection ResolvedAddress := do
  let (side, anchor) ← match resolved with
    | .blockAnchor anchor => pure (none, anchor)
    | .blockGapAnchor side anchor => pure (some side, anchor)
    | .wholeFile | .span _ | .gap _ =>
      throw (.parse "only a parsed block address can be expanded as a block")
  if anchor ∉ span.lines ∨ span.stop > snapshot.totalLines then
    throw (.eligibility .boundaryIneligible
      "block resolver returned a span outside the retained snapshot")
  match side with
  | none => return .span span
  | some side => return .gap (gapBeside side span.start span.stop snapshot.totalLines)

/-! ## Eligibility -/

def unseenLine (message : String) : HashlineRejection := .eligibility .unseenLine message

/-- Refuse the first of some rows that the snapshot has not seen. -/
def checkSeen (snapshot : Snapshot) (lines : List ℕ) (message : ℕ → String) :
    Except HashlineRejection Unit :=
  match lines.find? fun line => !snapshot.isSeen line with
  | some line => .error (unseenLine (message line))
  | none => .ok ()

/-- Whether the snapshot authorizes every record and boundary fact an address will use. -/
def checkEligibility (snapshot : Snapshot) (address : ResolvedAddress) :
    Except HashlineRejection Unit :=
  match address with
  | .wholeFile =>
    if snapshot.records.size ≠ snapshot.totalLines ∨
        (List.range' 1 snapshot.totalLines).any fun line => !snapshot.isSeen line then
      .error (unseenLine "REM and MV require a tagged read that retained the whole source file")
    else .ok ()
  | .span span =>
    checkSeen snapshot span.lines fun line => s!"line {line} was not retained by the tagged read"
  | .blockAnchor line | .blockGapAnchor _ line =>
    checkSeen snapshot [line] fun line =>
      s!"block anchor line {line} was not retained by the tagged read"
  | .gap gap =>
    if gap.before.isNone ∧ gap.after.isNone then
      if snapshot.boundary.emptyFile then .ok ()
      else .error (.eligibility .boundaryIneligible
        "empty-file gap has no retained empty-file boundary evidence")
    else do
      checkSeen snapshot gap.anchors fun line =>
        s!"gap boundary line {line} was not retained by the tagged read"
      if gap.before.isNone ∧ !snapshot.boundary.bofObserved then
        throw (.eligibility .boundaryIneligible "BOF boundary evidence was not retained")
      if gap.after.isNone ∧ !snapshot.boundary.eofObserved then
        throw (.eligibility .boundaryIneligible "EOF boundary evidence was not retained")

/-- Resolve the operations of a section and check that the snapshot authorizes them; REM and MV
address the whole file. -/
def resolveOperations (snapshot : Snapshot) (operations : List Operation) :
    Except HashlineRejection (List ResolvedOperation) :=
  operations.zipIdx.mapM fun (operation, operationIndex) => do
    let address ← match operation.address with
      | some address => resolveAddress address snapshot
      | none => pure .wholeFile
    checkEligibility snapshot address
    return ⟨operationIndex, address⟩

/-! ## Verification -/

/-- The bytes of one path that a whole patch is planned against, and their scan. -/
structure Baseline where
  bytes : Bytes
  snapshot : Snapshot
  scanned : snapshot = scanBytes bytes
deriving DecidableEq

namespace Baseline

def fromBytes (bytes : Bytes) : Baseline := ⟨bytes, scanBytes bytes, rfl⟩

def rawRecord (baseline : Baseline) (line : ℕ) : Option RawLineRecord :=
  baseline.snapshot.rawRecord line

end Baseline

structure RecoveryPlan where
  oldSpan : LineSpan
  expectedRecords : List RawLineRecord
deriving DecidableEq

inductive VerificationOutcome where
  | exact
  | recoveryRequired (plan : RecoveryPlan)
  | rejected (rejection : HashlineRejection)
  | blockNeedsResolution (anchor : ℕ)
deriving DecidableEq

/-- Whether a row's record is not the baseline's. -/
def recordChanged (snapshot : Snapshot) (baseline : Baseline) (line : ℕ) : Bool :=
  decide (snapshot.rawRecord line ≠ baseline.rawRecord line)

def verifyExact (snapshot : Snapshot) (baseline : Baseline) (address : ResolvedAddress) :
    VerificationOutcome :=
  match checkEligibility snapshot address with
  | .error rejection => .rejected rejection
  | .ok () =>
    match address with
    | .wholeFile =>
      if snapshot.totalLines ≠ baseline.snapshot.totalLines ∨
          snapshot.records ≠ baseline.snapshot.records then
        .rejected (.staleVerification "the whole-file source changed since the tagged read")
      else .exact
    | .blockAnchor anchor | .blockGapAnchor _ anchor => .blockNeedsResolution anchor
    | .gap gap =>
      match gap.anchors.find? (recordChanged snapshot baseline) with
      | some line => .rejected (.staleVerification
          s!"required gap anchor line {line} changed since the tagged read")
      | none => .exact
    | .span span =>
      if span.lines.any (recordChanged snapshot baseline) then
        .recoveryRequired ⟨span, span.lines.filterMap snapshot.rawRecord⟩
      else .exact

variable {snapshot : Snapshot}

theorem checkSeen_eq_ok {lines : List ℕ} {message : ℕ → String} :
    checkSeen snapshot lines message = .ok () ↔ ∀ line ∈ lines, snapshot.isSeen line := by
  unfold checkSeen
  cases h : lines.find? fun line => !snapshot.isSeen line with
  | none =>
    simp only [true_iff]
    intro line hl
    simpa using List.find?_eq_none.1 h line hl
  | some line =>
    simp only [reduceCtorEq, false_iff, not_forall]
    exact ⟨line, List.mem_of_find?_eq_some h, by simpa using List.find?_some h⟩

theorem checkEligibility_wholeFile :
    checkEligibility snapshot .wholeFile = .ok () ↔
      snapshot.records.size = snapshot.totalLines ∧
        ∀ line, 0 < line → line ≤ snapshot.totalLines → snapshot.isSeen line := by
  have hr (line : ℕ) :
      line ∈ List.range' 1 snapshot.totalLines ↔ 0 < line ∧ line ≤ snapshot.totalLines := by
    rw [List.mem_range'_1]
    omega
  simp [checkEligibility, hr]

variable {baseline : Baseline}

/-- Exact verification of a span: its rows were seen, and as the baseline has them. -/
theorem verifyExact_span :
    verifyExact snapshot baseline (.span span) = .exact ↔
      ∀ line ∈ span.lines, snapshot.isSeen line ∧
        snapshot.rawRecord line = baseline.rawRecord line := by
  unfold verifyExact
  cases h : checkEligibility snapshot (.span span) with
  | error rejection =>
    simp only [reduceCtorEq, false_iff]
    intro hall
    have hok : checkEligibility snapshot (.span span) = .ok () :=
      checkSeen_eq_ok.2 fun line hl => (hall line hl).1
    rw [hok] at h
    cases h
  | ok =>
    have hs := checkSeen_eq_ok.1 h
    simp only
    split_ifs with hany
    · simp only [false_iff]
      obtain ⟨line, hl, hc⟩ := List.any_eq_true.1 hany
      exact fun hall => by simp [recordChanged, (hall line hl).2] at hc
    · simp only [true_iff]
      intro line hl
      refine ⟨hs line hl, ?_⟩
      by_contra hne
      exact hany (List.any_eq_true.2 ⟨line, hl, by simpa [recordChanged] using hne⟩)

/-- Exact verification of a whole file: every row was seen, and the records are the baseline's. -/
theorem verifyExact_wholeFile :
    verifyExact snapshot baseline .wholeFile = .exact ↔
      checkEligibility snapshot .wholeFile = .ok () ∧
        snapshot.totalLines = baseline.snapshot.totalLines ∧
        snapshot.records = baseline.snapshot.records := by
  unfold verifyExact
  cases checkEligibility snapshot .wholeFile <;> simp [not_or]

/-! ## Where an address leads -/

/-- Resolve an address, a block form with the span that the language service gives for it. -/
def resolveWith (address : Address) (block : LineSpan) (snapshot : Snapshot) :
    Except HashlineRejection ResolvedAddress := do
  match ← resolveAddress address snapshot with
  | .blockAnchor anchor => expandBlock (.blockAnchor anchor) block snapshot
  | .blockGapAnchor side anchor => expandBlock (.blockGapAnchor side anchor) block snapshot
  | resolved => return resolved

/-- Neighbouring rows of a file, or its beginning or end. -/
def ResolvedGap.Inside (totalLines : ℕ) : ResolvedGap → Prop
  | ⟨some before, some after⟩ => 1 ≤ before ∧ after = before + 1 ∧ after ≤ totalLines
  | ⟨some before, none⟩ => 1 ≤ before ∧ before = totalLines
  | ⟨none, some after⟩ => after = 1 ∧ after ≤ totalLines
  | ⟨none, none⟩ => totalLines = 0

def ResolvedAddress.Inside (totalLines : ℕ) : ResolvedAddress → Prop
  | .wholeFile => True
  | .span rows => 1 ≤ rows.start ∧ rows.start ≤ rows.stop ∧ rows.stop ≤ totalLines
  | .gap neighbours => neighbours.Inside totalLines
  | .blockAnchor anchor | .blockGapAnchor _ anchor => 1 ≤ anchor ∧ anchor ≤ totalLines

/-- The gap before row one, not spelled `0`: `<1`, `<$` in a file of one row, `<k*` for a block
there. -/
def Address.BeforeFirst (block : LineSpan) (totalLines : ℕ) : Address → Prop
  | .gap .before (.absolute row _) => row = 1
  | .gap .before (.eofRelative offset) => offset + 1 = totalLines
  | .blockGap .before _ => block.start = 1
  | _ => False

variable {totalLines : ℕ}

/-- A row that a reference names is in the file, and row one only by its two spellings. -/
theorem resolveLineReference_spec {reference : LineReference} {line : { line : ℕ // 0 < line }}
    (h : resolveLineReference reference totalLines = .ok line) (block : LineSpan) :
    line.1 ≤ totalLines ∧
      (line.1 = 1 → (Address.gap .before reference).BeforeFirst block totalLines) := by
  unfold resolveLineReference at h
  cases reference with
  | absolute row pos =>
    dsimp only at h
    split_ifs at h with hle
    cases h
    exact ⟨hle, id⟩
  | eofRelative offset =>
    dsimp only at h
    split_ifs at h with hlt
    cases h
    refine ⟨Nat.sub_le _ _, fun hone => ?_⟩
    change totalLines - offset = 1 at hone
    change offset + 1 = totalLines
    omega

theorem gapBeside_inside {side : GapSide} (rows : LineSpan) (hl : rows.stop ≤ totalLines)
    (h : side = .before → rows.start ≠ 1) :
    (gapBeside side rows.start rows.stop totalLines).Inside totalLines := by
  have hp := rows.pos
  have hle := rows.le
  cases side with
  | before =>
    have := h rfl
    exact ⟨by omega, by omega, by omega⟩
  | after =>
    unfold gapBeside
    split_ifs with hlt
    · exact ⟨by omega, rfl, hlt⟩
    · exact ⟨by omega, by omega⟩

/-- A gap denotes the same place in the baseline. -/
def ResolvedGap.Keeps (gap : ResolvedGap) (snapshot : Snapshot) (baseline : Baseline) : Prop :=
  (∀ line ∈ gap.anchors, snapshot.rawRecord line = baseline.rawRecord line) ∧
    (gap.after = none → baseline.snapshot.totalLines ≤ gap.before.getD 0)

end Aft.Hashline
