import Mathlib

/-!
# Patch envelopes

The parser of the `*** Begin Patch` envelope. `validatePatchStructure` goes through the rows between
the markers first; `parsePatch` then extracts the hunks with cursors of its own, whose inner loops
(`parseAddFileContent`, `parseUpdateFileChunks`) run over all rows of the text.
-/

namespace Aft.Patch

/-- The characters of a text or of one of its rows. -/
abbrev Text := List Char

def maxPatchSize : ℕ := 1024 * 1024

def maxHunks : ℕ := 500

structure UpdateFileChunk where
  oldLines : List Text
  newLines : List Text
  changeContext : Option Text
  isEndOfFile : Bool
deriving DecidableEq, Repr

inductive Hunk where
  | add (path contents : Text)
  | delete (path : Text)
  | update (path : Text) (movePath : Option Text) (chunks : List UpdateFileChunk)
deriving DecidableEq, Repr

structure PatchHeader where
  filePath : Text
  movePath : Option Text
  nextIdx : ℕ
deriving DecidableEq, Repr

/-! ## Characters -/

/-- The Unicode property `White_Space`. -/
def isWhitespace (c : Char) : Bool :=
  decide (9 ≤ c.toNat ∧ c.toNat ≤ 13) || decide (0x2000 ≤ c.toNat ∧ c.toNat ≤ 0x200A) ||
    c.toNat ∈ [0x20, 0x85, 0xA0, 0x1680, 0x2028, 0x2029, 0x202F, 0x205F, 0x3000]

def trim (text : Text) : Text := (text.dropWhile isWhitespace).rdropWhile isWhitespace

def utf8Len (text : Text) : ℕ := (text.map Char.utf8Size).sum

def isWordChar (c : Char) : Bool := c.isAlphanum || c == '_'

def isQuote (c : Char) : Bool := c == '"' || c.toNat == 39

/-! ## Heredocs -/

/-- The text after an optional `cat` and the whitespace that follows it. -/
def stripCat (input : Text) : Text :=
  match "cat".toList.isPrefixOf? input with
  | some (c :: rest) => if isWhitespace c then rest.dropWhile isWhitespace else input
  | _ => input

def dropQuote : Text → Text
  | c :: rest => if isQuote c then rest else c :: rest
  | [] => []

/-- Whitespace up to its last line feed. -/
def throughLastLf (text : Text) : Option Text :=
  let blank := text.takeWhile isWhitespace
  if '\n' ∈ blank then some ((blank.rtakeWhile fun c => c != '\n') ++ text.dropWhile isWhitespace)
  else none

/-- The opening of a heredoc: its delimiter, and the text after it. -/
def heredocOpening (input : Text) : Option (Text × Text) := do
  let rest ← "<<".toList.isPrefixOf? (stripCat input)
  let rest := dropQuote rest
  let delimiter := rest.takeWhile isWordChar
  if delimiter.isEmpty then none
  else
    let body ← throughLastLf (dropQuote (rest.dropWhile isWordChar))
    some (delimiter, body)

/-- The text before the first line feed that the delimiter and whitespace to the end follow. -/
def heredocBody (delimiter : Text) : Text → Option Text
  | [] => none
  | c :: rest =>
    if c = '\n' ∧ (delimiter.isPrefixOf? rest).any (fun after => after.all isWhitespace) then some []
    else (heredocBody delimiter rest).map (c :: ·)

def stripHeredoc (input : Text) : Text :=
  match heredocOpening input with
  | none => input
  | some (delimiter, rest) => (heredocBody delimiter rest).getD input

/-! ## Rows -/

def marker : Text := "***".toList
def beginPatch : Text := "*** Begin Patch".toList
def endPatch : Text := "*** End Patch".toList
def endOfFile : Text := "*** End of File".toList
def addFile : Text := "*** Add File:".toList
def deleteFile : Text := "*** Delete File:".toList
def updateFile : Text := "*** Update File:".toList
def moveTo : Text := "*** Move to:".toList
def chunkMark : Text := "@@".toList

variable (lines : List Text)

def parsePatchHeader (startIdx : ℕ) : Option PatchHeader := do
  let line ← lines[startIdx]?
  let header (path : Text) (movePath : Option Text) (nextIdx : ℕ) : Option PatchHeader :=
    if (trim path).isEmpty then none else some ⟨trim path, movePath, nextIdx⟩
  match addFile.isPrefixOf? line with
  | some path => header path none (startIdx + 1)
  | none =>
    match deleteFile.isPrefixOf? line with
    | some path => header path none (startIdx + 1)
    | none =>
      match updateFile.isPrefixOf? line with
      | none => none
      | some path =>
        match lines[startIdx + 1]?.bind (moveTo.isPrefixOf? ·) with
        | some destination => header path (some (trim destination)) (startIdx + 2)
        | none => header path none (startIdx + 1)

/-- The loop of `parseAddFileContent` over the rows from `i` on. -/
def addFileRows : List Text → ℕ → Text → Text × ℕ
  | [], i, content => (content, i)
  | line :: rest, i, content =>
    if marker.isPrefixOf line then (content, i)
    else addFileRows rest (i + 1) (match ['+'].isPrefixOf? line with
      | some added => content ++ added ++ ['\n']
      | none => content)

def parseAddFileContent (startIdx : ℕ) : Text × ℕ :=
  let (content, i) := addFileRows (lines.drop startIdx) startIdx []
  (if content.getLast? = some '\n' then content.dropLast else content, i)

namespace UpdateFileChunk

/-- The chunk that a `@@` row opens. -/
def opened (line : Text) : UpdateFileChunk :=
  let context := trim (line.drop chunkMark.length)
  ⟨[], [], if context.isEmpty then none else some context, false⟩

def push (chunk : UpdateFileChunk) (line : Text) : UpdateFileChunk :=
  match line with
  | [] => { chunk with oldLines := chunk.oldLines ++ [[]], newLines := chunk.newLines ++ [[]] }
  | ' ' :: content =>
    { chunk with oldLines := chunk.oldLines ++ [content], newLines := chunk.newLines ++ [content] }
  | '-' :: content => { chunk with oldLines := chunk.oldLines ++ [content] }
  | '+' :: content => { chunk with newLines := chunk.newLines ++ [content] }
  | _ => chunk

end UpdateFileChunk

/-- The loops of `parseUpdateFileChunks` over the rows from `i` on, with the chunk of the inner
loop, which leaves the row that ends it to the outer one. -/
def updateFileRows : List Text → ℕ → Option UpdateFileChunk → List UpdateFileChunk →
    List UpdateFileChunk × ℕ
  | [], i, current, chunks => (chunks ++ current.toList, i)
  | line :: rest, i, none, chunks =>
    if marker.isPrefixOf line then (chunks, i)
    else if chunkMark.isPrefixOf line then updateFileRows rest (i + 1) (some (.opened line)) chunks
    else updateFileRows rest (i + 1) none chunks
  | line :: rest, i, some chunk, chunks =>
    if chunkMark.isPrefixOf line then
      updateFileRows rest (i + 1) (some (.opened line)) (chunks ++ [chunk])
    else if line = endOfFile then
      updateFileRows rest (i + 1) none (chunks ++ [{ chunk with isEndOfFile := true }])
    else if marker.isPrefixOf line then (chunks ++ [chunk], i)
    else updateFileRows rest (i + 1) (some (chunk.push line)) chunks

def parseUpdateFileChunks (startIdx : ℕ) : List UpdateFileChunk × ℕ :=
  updateFileRows (lines.drop startIdx) startIdx none []

/-! ## Validation -/

def invalidPatchLine (index : ℕ) (detail : String) : String :=
  s!"Invalid patch at line {index + 1}: {detail}"

/-- The rows of an Add File operation: up to the end or the next marker. -/
def validateAdd : List Text → ℕ → Except String ℕ
  | [], i => .ok i
  | line :: rest, i =>
    if marker.isPrefixOf line then .ok i
    else if line.isEmpty || ['+'].isPrefixOf line then validateAdd rest (i + 1)
    else .error (invalidPatchLine i "Add File content must start with '+'")

/-- The rows of an Update File operation. The result says whether there was a chunk. -/
def validateUpdate : List Text → ℕ → Bool → Bool → Except String (Bool × ℕ)
  | [], i, _, sawChunk => .ok (sawChunk, i)
  | line :: rest, i, inChunk, sawChunk =>
    if line = endOfFile ∧ inChunk then validateUpdate rest (i + 1) false sawChunk
    else if marker.isPrefixOf line then .ok (sawChunk, i)
    else if chunkMark.isPrefixOf line then validateUpdate rest (i + 1) true true
    else if line.isEmpty then validateUpdate rest (i + 1) inChunk sawChunk
    else if !inChunk then .error (invalidPatchLine i "expected an @@ update hunk header")
    else if line.head?.any (· ∈ [' ', '+', '-']) then validateUpdate rest (i + 1) inChunk sawChunk
    else .error (invalidPatchLine i
      "unrecognized update payload; expected space, '+', or '-' prefix")

def slice (i stop : ℕ) : List Text := (lines.drop i).take (stop - i)

/-- One operation of the patch; the result is the index of the row after it. -/
def validateOperation (i stop : ℕ) : Except String ℕ := do
  let line := lines.getD i []
  match parsePatchHeader lines i with
  | none => throw (invalidPatchLine i "invalid file operation header")
  | some header =>
    if header.movePath = some [] then
      throw (invalidPatchLine (i + 1) "move destination must not be empty")
    if addFile.isPrefixOf line then
      validateAdd (slice lines header.nextIdx stop) header.nextIdx
    else if updateFile.isPrefixOf line then
      let (sawChunk, next) ←
        validateUpdate (slice lines header.nextIdx stop) header.nextIdx false false
      if !sawChunk && header.movePath.isNone then
        throw (invalidPatchLine i "update operation requires an @@ hunk")
      return next
    else return header.nextIdx

/-- The loop over the operations; every round goes on by at least one row. -/
def validateOperations (lines : List Text) (stop : ℕ) : ℕ → ℕ → Except String Unit
  | 0, _ => .ok ()
  | rounds + 1, i =>
    if stop ≤ i then .ok ()
    else if (lines.getD i []).isEmpty then validateOperations lines stop rounds (i + 1)
    else do
      let next ← validateOperation lines i stop
      validateOperations lines stop rounds next

/-- The first row of a range that is not blank. -/
def firstContent (start stop : ℕ) : Option ℕ :=
  (List.range' start (stop - start)).find? fun i => !(trim (lines.getD i [])).isEmpty

def validatePatchStructure (start stop : ℕ) : Except String Unit := do
  if let some index := firstContent lines 0 start then
    throw (invalidPatchLine index "unexpected content before *** Begin Patch")
  if let some index := firstContent lines (stop + 1) lines.length then
    throw (invalidPatchLine index "unexpected content after *** End Patch")
  validateOperations lines stop (stop - (start + 1)) (start + 1)

/-! ## Parsing -/

/-- The loop over the hunks; every round goes on by at least one row. -/
def parseHunks (lines : List Text) (stop : ℕ) : ℕ → ℕ → List Hunk → Except String (List Hunk)
  | 0, _, hunks => .ok hunks
  | rounds + 1, i, hunks =>
    if stop ≤ i then .ok hunks
    else
      match parsePatchHeader lines i with
      | none => parseHunks lines stop rounds (i + 1) hunks
      | some header =>
        let line := lines.getD i []
        if maxHunks ≤ hunks.length then
          .error s!"Patch exceeds maximum of {maxHunks} file operations"
        else if addFile.isPrefixOf line then
          let (contents, next) := parseAddFileContent lines header.nextIdx
          parseHunks lines stop rounds next (hunks ++ [.add header.filePath contents])
        else if deleteFile.isPrefixOf line then
          parseHunks lines stop rounds header.nextIdx (hunks ++ [.delete header.filePath])
        else if updateFile.isPrefixOf line then
          let (chunks, next) := parseUpdateFileChunks lines header.nextIdx
          parseHunks lines stop rounds next
            (hunks ++ [.update header.filePath header.movePath chunks])
        else parseHunks lines stop rounds (i + 1) hunks

/-- A row without the carriage return of its line end. -/
def dropCr (line : Text) : Text := if line.getLast? = some '\r' then line.dropLast else line

def patchRows (text : Text) : List Text :=
  ((stripHeredoc (trim text)).splitOn '\n').map dropCr

def missingMarkers : String :=
  "Invalid patch format: missing *** Begin Patch / *** End Patch markers"

def parsePatch (text : Text) : Except String (List Hunk) :=
  if maxPatchSize < utf8Len text then
    .error s!"Patch too large: {utf8Len text} bytes exceeds limit of {maxPatchSize} bytes"
  else
    let lines := patchRows text
    match lines.findIdx? (fun line => trim line = beginPatch),
        lines.findIdx? (fun line => trim line = endPatch) with
    | some start, some stop =>
      if stop ≤ start then .error missingMarkers
      else do
        validatePatchStructure lines start stop
        parseHunks lines stop (stop - (start + 1)) (start + 1) []
    | _, _ => .error missingMarkers

end Aft.Patch
