import Aft.Hashline.ScanRows

/-!
# Line edits

The low-level edits that PUT and CUT are lowered to, in pre-request coordinates: how replacement
groups are recognized and coalesced, how edits become the final logical lines (`materializeEdits`),
and how lines become bytes again (`joinLines`). Before that, two layers rewrite the payload of
replacement groups: one restores a uniformly omitted indent, the other drops payload lines that
restate the surviving lines just outside the replaced span.
-/

namespace Aft.Hashline

inductive InsertPlace where
  | before
  | after
  | bof
  | eof
deriving DecidableEq, Repr

inductive InsertMode where
  | plain
  | replacement
deriving DecidableEq, Repr

/-- One edit; `opIndex` is the operation of the section it comes from. -/
inductive LineEdit where
  | insert (anchor : ℕ) (place : InsertPlace) (text : String) (mode : InsertMode) (opIndex : ℕ)
  | delete (line : ℕ) (opIndex : ℕ)
deriving DecidableEq, Repr

namespace LineEdit

def opIndex : LineEdit → ℕ
  | insert _ _ _ _ opIndex | delete _ opIndex => opIndex

def isDelete : LineEdit → Bool
  | delete _ _ => true
  | insert _ _ _ _ _ => false

def isReplacementInsert : LineEdit → Bool
  | insert _ _ _ .replacement _ => true
  | _ => false

def deletedLine : LineEdit → Option ℕ
  | delete line _ => some line
  | insert _ _ _ _ _ => none

def replacementText : LineEdit → Option String
  | insert _ _ text .replacement _ => some text
  | _ => none

end LineEdit

/-! ## Replacement groups -/

/-- Replacement inserts at one anchor, then deletes of consecutive lines from it on, all of one
operation. -/
structure ReplacementGroup where
  inserts : List LineEdit
  deletes : List LineEdit
  payload : List String
  startLine : ℕ
  endLine : ℕ
  opIndex : ℕ
deriving DecidableEq

def takeInserts (anchor opIndex : ℕ) : List LineEdit → List LineEdit
  | .insert a .before text .replacement op :: rest =>
    if a = anchor ∧ op = opIndex then
      .insert a .before text .replacement op :: takeInserts anchor opIndex rest
    else []
  | _ => []

/-- The run of deletes of a group, from the line `expected` on. -/
def takeDeletes (expected opIndex : ℕ) : List LineEdit → List LineEdit
  | .delete line op :: rest =>
    if line = expected ∧ op = opIndex then
      .delete line op :: takeDeletes (expected + 1) opIndex rest
    else []
  | _ => []

def findReplacementGroup (edits : List LineEdit) : Option ReplacementGroup :=
  match edits with
  | .insert anchor .before _ .replacement opIndex :: _ =>
    let inserts := takeInserts anchor opIndex edits
    let deletes := takeDeletes anchor opIndex (edits.drop inserts.length)
    if deletes.isEmpty then none
    else some
      { inserts := inserts
        deletes := deletes
        payload := inserts.filterMap LineEdit.replacementText
        startLine := anchor
        endLine := anchor + deletes.length - 1
        opIndex := opIndex }
  | _ => none

/-! ## Coalescing -/

/-- Whether each element is one more than the element before it. -/
def isContiguous : List ℕ → Bool
  | a :: b :: rest => b == a + 1 && isContiguous (b :: rest)
  | _ => true

/-- The edits of one operation, with its deletes as one contiguous replacement. -/
def coalesceOneOp (edits : List LineEdit) : List LineEdit :=
  let deletes := edits.filterMap LineEdit.deletedLine
  let replacements := edits.filterMap LineEdit.replacementText
  let plain := edits.filter fun edit => !edit.isDelete && !edit.isReplacementInsert
  let sorted := (deletes.insertionSort (· ≤ ·)).dedup
  match sorted.head?, sorted.getLast? with
  | some start, some stop =>
    if replacements.isEmpty || !isContiguous sorted then edits
    else
      let opIndex := (edits.head?.map LineEdit.opIndex).getD 0
      plain ++ replacements.map (fun text => .insert start .before text .replacement opIndex) ++
        (List.range' start (stop + 1 - start)).map fun line => .delete line opIndex
  | _, _ => edits

/-- Coalesce the edits operation by operation, in the order of first sight. -/
def coalesceReplacementEdits (edits : List LineEdit) : List LineEdit :=
  (edits.map LineEdit.opIndex).eraseDups.flatMap fun op =>
    coalesceOneOp (edits.filter fun edit => edit.opIndex = op)

/-! ## Materialization -/

/-- The texts a bucket inserts before or after its row. -/
def LineEdit.textAt (place : InsertPlace) (mode : Option InsertMode) : LineEdit → Option String
  | .insert _ p text m _ => if p = place ∧ (mode = none ∨ mode = some m) then some text else none
  | .delete _ _ => none

/-- The rows a bucket leaves: plain rows before, replacement rows, the baseline row if kept, rows
after. -/
def appendLineBucket (current : Option String) (bucket : List LineEdit) : List String :=
  bucket.filterMap (LineEdit.textAt .before (some .plain)) ++
    bucket.filterMap (LineEdit.textAt .before (some .replacement)) ++
    (if bucket.any LineEdit.isDelete then [] else current.toList) ++
    bucket.filterMap (LineEdit.textAt .after none)

def LineEdit.inBucket (line : ℕ) : LineEdit → Bool
  | .insert anchor .before _ _ _ | .insert anchor .after _ _ _ => anchor == line
  | .insert _ .bof _ _ _ | .insert _ .eof _ _ _ => false
  | .delete deleted _ => deleted == line

def lineBucket (edits : List LineEdit) (line : ℕ) : List LineEdit :=
  edits.filter (LineEdit.inBucket line)

def materializeEdits (originalLines : List String) (edits : List LineEdit) : List String :=
  let body := (originalLines.zipIdx 1).flatMap (fun (current, line) =>
    appendLineBucket (some current) (lineBucket edits line))
  -- An anchor just past the end is accepted; anchors beyond it are ignored.
  let extended := body ++ appendLineBucket none (lineBucket edits (originalLines.length + 1))
  -- Line zero is applied to the first row that is left.
  let zero := lineBucket edits 0
  let out :=
    if zero.isEmpty then extended
    else appendLineBucket extended.head? zero ++ extended.tail
  edits.filterMap (LineEdit.textAt .bof none) ++ out ++ edits.filterMap (LineEdit.textAt .eof none)

/-! ## Bytes -/

/-- The terminator written after a line that is not the last one. -/
def writtenTerminator (defaultTerminator : TerminatorKind) : TerminatorKind :=
  if defaultTerminator = .none then .lf else defaultTerminator

def joinLines (lines : List String) (defaultTerminator : TerminatorKind)
    (trailingTerminator : Bool) : Bytes :=
  match lines with
  | [] => []
  | [last] =>
    asBytes last ++ if trailingTerminator then (writtenTerminator defaultTerminator).bytes else []
  | line :: rest =>
    asBytes line ++ (writtenTerminator defaultTerminator).bytes ++
      joinLines rest defaultTerminator trailingTerminator

/-- The terminator policy of a baseline: its majority terminator, and whether its last line ends
in one. -/
def terminatorPolicy (records : SortedMap ℕ RawLineRecord) : TerminatorKind × Bool :=
  let count (kind : TerminatorKind) := records.values.countP fun record => record.terminator = kind
  let trailing := (records.values.getLast?).elim false fun record =>
    decide (record.terminator ≠ .none)
  (if count .crLf > count .lf then .crLf else .lf, trailing || records.entries.isEmpty)

/-! ## Text helpers -/

/-- The Unicode `White_Space` property. -/
def isWhitespace (c : Char) : Bool :=
  let n := c.toNat
  decide (9 ≤ n ∧ n ≤ 13) || n == 0x20 || n == 0x85 || n == 0xA0 || n == 0x1680 ||
    decide (0x2000 ≤ n ∧ n ≤ 0x200A) || n == 0x2028 || n == 0x2029 || n == 0x202F ||
    n == 0x205F || n == 0x3000

def trimStart (line : String) : List Char := line.toList.dropWhile isWhitespace

def trimEnd (line : String) : List Char := line.toList.rdropWhile isWhitespace

def trim (line : String) : List Char := (trimStart line).rdropWhile isWhitespace

def leadingIndent (line : String) : List Char := line.toList.takeWhile fun c => c == ' ' || c == '\t'

def isIndentDeeper (deeper shallower : List Char) : Bool :=
  decide (shallower.length < deeper.length) && shallower.isPrefixOf deeper

def hasNonWhitespace (text : String) : Bool :=
  text.toList.any fun c => !(c == ' ' || c == '\t' || c == '\n' || c == '\r')

def isStructuralCloser (line : String) : Bool :=
  match trim line with
  | [] => false
  | first :: rest =>
    first == '\x7d' || first == ')' || first == ']' || first == '/' ||
      "</".toList.isPrefixOf (first :: rest) ||
      (first :: rest).all fun c =>
        c == '\x7d' || c == ')' || c == ']' || c == ';' || c == ',' || c == '/' || c == '>'

/-! ## Walking the groups -/

/-- Rewrite every replacement group; `rewrite` gives a group's new edits and its warnings. -/
def walkGroups (rewrite : ReplacementGroup → List LineEdit × List String) :
    ℕ → List LineEdit → List LineEdit × List String
  | 0, edits => (edits, [])
  | _ + 1, [] => ([], [])
  | fuel + 1, edit :: rest =>
    match findReplacementGroup (edit :: rest) with
    | none =>
      let walked := walkGroups rewrite fuel rest
      (edit :: walked.1, walked.2)
    | some group =>
      let rewritten := rewrite group
      let walked := walkGroups rewrite fuel
        ((edit :: rest).drop (group.inserts.length + group.deletes.length))
      (rewritten.1 ++ walked.1, rewritten.2 ++ walked.2)

def ReplacementGroup.edits (group : ReplacementGroup) : List LineEdit := group.inserts ++ group.deletes

/-! ## Indentation -/

/-- The search for a uniform shift: the shift so far, the rows that prove it, and whether they
agree. -/
structure ShiftSearch where
  shift : Option (List Char)
  matched : ℕ
  consistent : Bool
deriving DecidableEq

def ShiftSearch.step (search : ShiftSearch) (source payload : String) : ShiftSearch :=
  if !search.consistent then search
  else if (trim source).isEmpty || trimStart source != trimStart payload then search
  else
    let sourceIndent := leadingIndent source
    let payloadIndent := leadingIndent payload
    if !payloadIndent.isSuffixOf sourceIndent then { search with consistent := false }
    else
      let candidate := sourceIndent.take (sourceIndent.length - payloadIndent.length)
      match search.shift with
      | none => ⟨some candidate, search.matched + 1, true⟩
      | some existing =>
        if existing = candidate then { search with matched := search.matched + 1 }
        else { search with consistent := false }

/-- The indent a group's payload omits, when unchanged rows prove it. -/
def omittedIndent (fileLines : List String) (group : ReplacementGroup) : Option (List Char) :=
  let preceding := fileLines.getD (group.startLine - 2) ""
  let sourceFirst := fileLines.getD (group.startLine - 1) ""
  let payloadFirst := group.payload.headD ""
  if group.payload.length ≠ group.deletes.length then none
  else if (trimEnd preceding).getLast? ≠ some '\x7b' ∨
      !isIndentDeeper (leadingIndent sourceFirst) (leadingIndent preceding) ∨
      isIndentDeeper (leadingIndent payloadFirst) (leadingIndent preceding) then none
  else
    let search := group.payload.zipIdx.foldl
      (fun (search : ShiftSearch) row =>
        search.step (fileLines.getD (group.startLine - 1 + row.2) "") row.1)
      ⟨none, 0, true⟩
    if !search.consistent || decide (search.matched < 2) ||
        decide (search.matched * 2 ≤ group.payload.length) then none
    else search.shift

/-- Prepend an indent to a replacement text that is not blank. -/
def LineEdit.indented (shift : List Char) : LineEdit → LineEdit
  | .insert anchor place text mode opIndex =>
    .insert anchor place
      (if (trim text).isEmpty then text else String.ofList (shift ++ text.toList)) mode opIndex
  | .delete line opIndex => .delete line opIndex

def indentGroup (fileLines : List String) (group : ReplacementGroup) :
    List LineEdit × List String :=
  match omittedIndent fileLines group with
  | none => (group.edits, [])
  | some shift =>
    (group.inserts.map (LineEdit.indented shift) ++ group.deletes,
      ["Auto-indented a replacement body at line " ++ toString group.startLine ++
        ": restored a uniformly omitted base indent."])

def repairReplacementIndentation (edits : List LineEdit) (fileLines : List String) :
    List LineEdit × List String :=
  walkGroups (indentGroup fileLines) edits.length edits

/-! ## Boundary echoes -/

section

variable (group : ReplacementGroup) (fileLines : List String)

/-- The most payload lines that restate the lines right above the group. -/
def countDuplicateLeading : ℕ :=
  let limit := min group.payload.length (group.startLine - 1)
  ((List.range' 1 limit).reverse.find? fun count =>
    decide ((fileLines.drop (group.startLine - 1 - count)).take count = group.payload.take count) &&
      (group.payload.take count).any hasNonWhitespace).getD 0

/-- The most payload lines that restate the lines right below the group. -/
def countDuplicateTrailing : ℕ :=
  let limit := min group.payload.length (fileLines.length - group.endLine)
  ((List.range' 1 limit).reverse.find? fun count =>
    let echoed := group.payload.drop (group.payload.length - count)
    decide ((fileLines.drop group.endLine).take count = echoed) &&
      echoed.any hasNonWhitespace).getD 0

/-- The payload lines to drop at both ends. -/
def findBoundaryEcho : Option (ℕ × ℕ) :=
  let leading := countDuplicateLeading group fileLines
  let trailing := countDuplicateTrailing group fileLines
  if leading = 0 ∨ trailing = 0 ∨ leading + trailing ≥ group.payload.length then none
  else some (leading, trailing)

end

inductive EchoSide where
  | leading
  | trailing
deriving DecidableEq, Repr

/-- The payload lines to drop at one end; a single-line range only drops closers below it. -/
def findOneSidedBoundaryEcho (group : ReplacementGroup) (fileLines : List String) :
    Option (EchoSide × ℕ) :=
  let leading := countDuplicateLeading group fileLines
  let trailing := countDuplicateTrailing group fileLines
  if decide (0 < leading) = decide (0 < trailing) then none
  else
    let (side, count) :=
      if 0 < leading then (EchoSide.leading, leading) else (EchoSide.trailing, trailing)
    if count ≥ group.payload.length then none
    else if group.deletes.length ≤ 1 ∧ (side ≠ .trailing ∨
        ¬ (group.payload.drop (group.payload.length - count)).all isStructuralCloser) then none
    else some (side, count)

def echoGroup (fileLines : List String) (group : ReplacementGroup) : List LineEdit × List String :=
  match findBoundaryEcho group fileLines with
  | some (leading, trailing) =>
    ((group.inserts.drop leading).take (group.inserts.length - leading - trailing) ++ group.deletes,
      ["Auto-repaired a replacement boundary echo at line " ++ toString group.startLine ++
        ": dropped " ++ toString leading ++ " leading and " ++ toString trailing ++
        " trailing payload line(s) already present outside the range."])
  | none =>
    match findOneSidedBoundaryEcho group fileLines with
    | some (side, count) =>
      let kept := match side with
        | .leading => group.inserts.drop count
        | .trailing => group.inserts.take (group.inserts.length - count)
      let sideName := match side with
        | .leading => "leading"
        | .trailing => "trailing"
      (kept ++ group.deletes,
        ["Auto-repaired a replacement boundary echo at line " ++ toString group.startLine ++
          ": dropped " ++ toString count ++ " " ++ sideName ++
          " payload line(s) identical to the surviving line(s) just outside the range."])
    | none => (group.edits, [])

def repairBoundaryEchoes (edits : List LineEdit) (fileLines : List String) :
    List LineEdit × List String :=
  walkGroups (echoGroup fileLines) edits.length edits

/-! ## All layers -/

structure RepairOutcome where
  edits : List LineEdit
  warnings : List String
  layersApplied : List String
deriving DecidableEq

/-- Run indent repair, then boundary-echo repair. -/
def applyRepairLayers (edits : List LineEdit) (fileLines : List String) : RepairOutcome :=
  let indent := repairReplacementIndentation edits fileLines
  let echo := repairBoundaryEchoes indent.1 fileLines
  { edits := echo.1
    warnings := indent.2 ++ echo.2
    layersApplied := (if indent.2.isEmpty then [] else ["indent"]) ++
      if echo.2.isEmpty then [] else ["boundary-echo"] }

end Aft.Hashline
