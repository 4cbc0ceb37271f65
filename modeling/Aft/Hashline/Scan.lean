import Aft.Lib.Rows
import Aft.Lib.SortedMap

/-!
# Coherent byte-level scanning

The data model of a hashline snapshot and the forward scanner that produces it. One pass over one
byte stream has two products: the normalized whole file, from which the four-digit tag is derived
(`tagFor`), and the raw line records selected by a `CoverageInput`, which alone become seen. The
normalized file is the file with every line trimmed on the right (`normalizeForTag_trims`).
-/

namespace Aft.Hashline

/-- A byte buffer. -/
abbrev Bytes := List UInt8

/-- A path, as its components; the order is the component-wise one. -/
abbrev PathBuf := List String

/-- The bytes `\n`, `\r`, blank and tab. -/
def byteLf : UInt8 := 10

@[inherit_doc byteLf]
def byteCr : UInt8 := 13

@[inherit_doc byteLf]
def byteSpace : UInt8 := 32

@[inherit_doc byteLf]
def byteTab : UInt8 := 9

def asBytes (s : String) : Bytes := s.toByteArray.data.toList

/-! ## Raw records -/

/-- The line terminator kept as part of a record's identity. -/
inductive TerminatorKind where
  | lf
  | crLf
  | none
deriving DecidableEq, Repr

/-- The bytes that end a line. -/
def TerminatorKind.bytes : TerminatorKind → Bytes
  | .lf => [byteLf]
  | .crLf => [byteCr, byteLf]
  | .none => []

structure RawLineRecord where
  content : Bytes
  terminator : TerminatorKind
deriving DecidableEq, Repr

def RawLineRecord.toBytes (record : RawLineRecord) : Bytes :=
  record.content ++ record.terminator.bytes

structure RetainedLine where
  lineNumber : ℕ
  record : RawLineRecord
  byteStart : ℕ
  byteEnd : ℕ
deriving DecidableEq, Repr

/-! ## Requests and published evidence -/

/-- The rows a scan is allowed to retain. -/
structure CoverageInput where
  requestedLines : Finset ℕ
  retainAll : Bool
deriving DecidableEq

namespace CoverageInput

def wholeFile : CoverageInput := ⟨∅, true⟩

def lines (rows : List ℕ) : CoverageInput := ⟨rows.toFinset, false⟩

def retains (coverage : CoverageInput) (lineNumber : ℕ) : Bool :=
  coverage.retainAll || decide (lineNumber ∈ coverage.requestedLines)

end CoverageInput

structure FileIdentity where
  device : ℕ
  inode : ℕ
deriving DecidableEq, Repr

/-- Diagnostic context carried through a scan. -/
structure CaptureProvenance where
  source : Option PathBuf
  fileIdentity : Option FileIdentity
  byteLen : Option ℕ
  modified : Option ℕ
  labels : SortedMap String String
deriving DecidableEq

def CaptureProvenance.default : CaptureProvenance := ⟨none, none, none, none, .empty⟩

def CaptureProvenance.withByteLen (p : CaptureProvenance) (byteLen : ℕ) : CaptureProvenance :=
  { p with byteLen := some byteLen }

structure ScanRequest where
  coverage : CoverageInput
  provenance : CaptureProvenance
deriving DecidableEq

def ScanRequest.new (coverage : CoverageInput) : ScanRequest := ⟨coverage, .default⟩

def ScanRequest.wholeFile : ScanRequest := .new .wholeFile

/-- Facts produced by a scan. A row is seen iff its raw record was retained. -/
structure ScanCoverage where
  requestedLines : Finset ℕ
  retainAll : Bool
  retainedLines : Finset ℕ
  seenLines : Finset ℕ
  scannedLineCount : ℕ
  totalLines : ℕ
  byteCount : ℕ
  eofObserved : Bool
deriving DecidableEq

def ScanCoverage.isSeen (coverage : ScanCoverage) (lineNumber : ℕ) : Bool :=
  decide (lineNumber ∈ coverage.seenLines)

/-- Boundary facts used by address resolution. -/
structure BoundaryEvidence where
  emptyFile : Bool
  bofObserved : Bool
  eofObserved : Bool
  firstSeen : Option ℕ
  lastSeen : Option ℕ
deriving DecidableEq, Repr

/-- A published snapshot of one whole-file scan. -/
structure Snapshot where
  tag : String
  normalizedBytes : Bytes
  records : SortedMap ℕ RawLineRecord
  retainedLines : SortedMap ℕ RetainedLine
  coverage : ScanCoverage
  boundary : BoundaryEvidence
  totalLines : ℕ
  byteCount : ℕ
  provenance : CaptureProvenance
  captureProvenance : CaptureProvenance
deriving DecidableEq

namespace Snapshot

def rawRecord (snapshot : Snapshot) (lineNumber : ℕ) : Option RawLineRecord :=
  snapshot.records.find? lineNumber

def isSeen (snapshot : Snapshot) (lineNumber : ℕ) : Bool := snapshot.coverage.isSeen lineNumber

def residencyBytes (snapshot : Snapshot) : ℕ :=
  snapshot.records.sumValues fun record => record.toBytes.length

end Snapshot

def firstLine (rows : Finset ℕ) : Option ℕ := rows.min

def lastLine (rows : Finset ℕ) : Option ℕ := rows.max

/-! ## The tag -/

/-- Whether `normalizeForTag` drops a byte before a line feed or the end of the file. -/
def isTrailingBlank (byte : UInt8) : Bool :=
  byte == byteSpace || byte == byteTab || byte == byteCr

def popTrailingBlanks (normalized : Bytes) : Bytes := normalized.rdropWhile isTrailingBlank

def normalizeForTag (input : Bytes) : Bytes :=
  popTrailingBlanks <| input.foldl (fun normalized byte =>
    (if byte = byteLf then popTrailingBlanks normalized else normalized) ++ [byte]) []

def prime1 : UInt32 := 0x9E3779B1
def prime2 : UInt32 := 0x85EBCA77
def prime3 : UInt32 := 0xC2B2AE3D
def prime4 : UInt32 := 0x27D4EB2F
def prime5 : UInt32 := 0x165667B1

def rotateLeft (value count : UInt32) : UInt32 := value <<< count ||| value >>> (32 - count)

def xxhashRound (accumulator lane : UInt32) : UInt32 :=
  rotateLeft (accumulator + lane * prime2) 13 * prime1

/-- The little-endian word at an offset. -/
def u32FromLeBytes (input : Bytes) (offset : ℕ) : UInt32 :=
  (input.getD offset 0).toUInt32 ||| (input.getD (offset + 1) 0).toUInt32 <<< 8 |||
    (input.getD (offset + 2) 0).toUInt32 <<< 16 ||| (input.getD (offset + 3) 0).toUInt32 <<< 24

/-- xxHash32. The three loops over `offset` run a number of times known from the length. -/
def xxhash32 (input : Bytes) (seed : UInt32) : UInt32 :=
  let length := input.length
  let stripes := length / 16
  let start : UInt32 :=
    if 16 ≤ length then
      let lanes := (List.range stripes).foldl
        (fun (l : UInt32 × UInt32 × UInt32 × UInt32) i =>
          (xxhashRound l.1 (u32FromLeBytes input (16 * i)),
            xxhashRound l.2.1 (u32FromLeBytes input (16 * i + 4)),
            xxhashRound l.2.2.1 (u32FromLeBytes input (16 * i + 8)),
            xxhashRound l.2.2.2 (u32FromLeBytes input (16 * i + 12))))
        (seed + prime1 + prime2, seed + prime2, seed, seed - prime1)
      rotateLeft lanes.1 1 + rotateLeft lanes.2.1 7 + rotateLeft lanes.2.2.1 12 +
        rotateLeft lanes.2.2.2 18
    else seed + prime5
  let words := (length - 16 * stripes) / 4
  let afterWords := (List.range words).foldl
    (fun result i =>
      rotateLeft (result + u32FromLeBytes input (16 * stripes + 4 * i) * prime3) 17 * prime4)
    (start + length.toUInt32)
  let afterBytes := (input.drop (16 * stripes + 4 * words)).foldl
    (fun result byte => rotateLeft (result + byte.toUInt32 * prime5) 11 * prime1) afterWords
  let mix1 := (afterBytes ^^^ afterBytes >>> 15) * prime2
  let mix2 := (mix1 ^^^ mix1 >>> 13) * prime3
  mix2 ^^^ mix2 >>> 16

def xxhash32SeedZero (input : Bytes) : UInt32 := xxhash32 input 0

def hexDigit (n : ℕ) : Char := if n < 10 then Char.ofNat (48 + n) else Char.ofNat (55 + n)

/-- Four upper-case hexadecimal digits. -/
def formatTag (digest : ℕ) : String :=
  String.ofList [hexDigit (digest / 4096 % 16), hexDigit (digest / 256 % 16),
    hexDigit (digest / 16 % 16), hexDigit (digest % 16)]

def tagOfNormalized (normalized : Bytes) : String :=
  formatTag ((xxhash32SeedZero normalized).toNat % 65536)

def tagFor (input : Bytes) : String := tagOfNormalized (normalizeForTag input)

/-! ## The forward scanner -/

/-- The pieces of a buffer, each ending right after a line feed or at the end. -/
def splitInclusive : Bytes → List Bytes
  | [] => []
  | b :: rest =>
    if b = byteLf then [b] :: splitInclusive rest
    else match splitInclusive rest with
      | [] => [[b]]
      | segment :: segments => (b :: segment) :: segments

inductive ScanError where
  | alreadyFinished
deriving DecidableEq, Repr

/-- The state of an incremental scan. -/
structure ForwardScanner where
  request : ScanRequest
  captureProvenance : CaptureProvenance
  rawBytes : Bytes
  currentLine : Bytes
  currentLineStart : ℕ
  nextLineNumber : ℕ
  scannedLineCount : ℕ
  retainedLines : SortedMap ℕ RetainedLine
  finished : Bool
  published : Option Snapshot

structure ScanResult where
  snapshot : Option Snapshot
  coverage : ScanCoverage
  provenance : CaptureProvenance
  captureProvenance : CaptureProvenance

namespace ForwardScanner

def withCaptureProvenance (request : ScanRequest) (captureProvenance : CaptureProvenance) :
    ForwardScanner where
  request := request
  captureProvenance := captureProvenance
  rawBytes := []
  currentLine := []
  currentLineStart := 0
  nextLineNumber := 1
  scannedLineCount := 0
  retainedLines := .empty
  finished := false
  published := none

variable (scanner : ForwardScanner)

def retainLineIfRequested (lineNumber : ℕ) (record : RawLineRecord) (byteStart byteEnd : ℕ) :
    ForwardScanner :=
  if scanner.request.coverage.retains lineNumber then
    { scanner with
      retainedLines := scanner.retainedLines.insert lineNumber
        ⟨lineNumber, record, byteStart, byteEnd⟩ }
  else scanner

/-- The record of a line that a line feed ended: one carriage return before it is part of the
terminator. -/
def terminatedRecord (line : Bytes) : RawLineRecord :=
  if line.getLast? = some byteCr then ⟨line.dropLast, .crLf⟩ else ⟨line, .lf⟩

/-- One segment of a chunk that starts at `chunkStart`; the second component is `consumed`. -/
def pushSegment (chunkStart : ℕ) (state : ForwardScanner × ℕ) (segment : Bytes) :
    ForwardScanner × ℕ :=
  let scanner := state.1
  let consumed := state.2 + segment.length
  if segment.getLast? = some byteLf then
    let lineNumber := scanner.nextLineNumber
    let byteEnd := chunkStart + consumed
    let counted := { scanner with
      currentLine := []
      scannedLineCount := scanner.scannedLineCount + 1
      nextLineNumber := scanner.nextLineNumber + 1 }
    let retained := counted.retainLineIfRequested lineNumber
      (terminatedRecord (scanner.currentLine ++ segment.dropLast)) scanner.currentLineStart byteEnd
    ({ retained with currentLineStart := byteEnd }, consumed)
  else
    ({ scanner with currentLine := scanner.currentLine ++ segment }, consumed)

def feed (bytes : Bytes) : ForwardScanner :=
  ((splitInclusive bytes).foldl (pushSegment scanner.rawBytes.length)
    ({ scanner with rawBytes := scanner.rawBytes ++ bytes }, 0)).1

def push (bytes : Bytes) : Except ScanError ForwardScanner :=
  if scanner.finished then .error .alreadyFinished else .ok (scanner.feed bytes)

/-- The line left open at the end of the stream becomes a record without terminator. -/
def closeLine : ForwardScanner :=
  if scanner.currentLine = [] then scanner
  else
    let counted := { scanner with
      currentLine := []
      scannedLineCount := scanner.scannedLineCount + 1 }
    counted.retainLineIfRequested scanner.nextLineNumber ⟨scanner.currentLine, .none⟩
      scanner.currentLineStart scanner.rawBytes.length

/-- The coverage a scanner at the end of its stream publishes. -/
def coverage (scanner : ForwardScanner) : ScanCoverage where
  requestedLines := scanner.request.coverage.requestedLines
  retainAll := scanner.request.coverage.retainAll
  retainedLines := scanner.retainedLines.keys.toFinset
  seenLines := scanner.retainedLines.keys.toFinset
  scannedLineCount := scanner.scannedLineCount
  totalLines := scanner.scannedLineCount
  byteCount := scanner.rawBytes.length
  eofObserved := true

def publishedSnapshot : Snapshot where
  tag := tagOfNormalized (normalizeForTag scanner.rawBytes)
  normalizedBytes := normalizeForTag scanner.rawBytes
  records := scanner.retainedLines.mapValues RetainedLine.record
  retainedLines := scanner.retainedLines
  coverage := scanner.coverage
  boundary :=
    { emptyFile := scanner.rawBytes.isEmpty
      bofObserved := true
      eofObserved := true
      firstSeen := scanner.retainedLines.keys.head?
      lastSeen := scanner.retainedLines.keys.getLast? }
  totalLines := scanner.scannedLineCount
  byteCount := scanner.rawBytes.length
  provenance := scanner.request.provenance
  captureProvenance := scanner.captureProvenance.withByteLen scanner.rawBytes.length

/-- Observe the end of the stream and publish. -/
def finish : Except ScanError (ScanResult × ForwardScanner) :=
  if scanner.finished then .error .alreadyFinished
  else
    let closed := scanner.closeLine
    let snapshot := closed.publishedSnapshot
    .ok
      ({ snapshot := some snapshot
         coverage := closed.coverage
         provenance := closed.request.provenance
         captureProvenance := snapshot.captureProvenance },
       { closed with
         finished := true
         rawBytes := []
         retainedLines := .empty
         published := some snapshot })

end ForwardScanner

/-- In-memory scan with explicit coverage and provenance. -/
def scanBytesWithRequest (bytes : Bytes) (request : ScanRequest) : Except ScanError ScanResult := do
  let scanner := ForwardScanner.withCaptureProvenance request
    (request.provenance.withByteLen bytes.length)
  let fed ← scanner.push bytes
  let (result, _) ← fed.finish
  return result

def scanSnapshot (bytes : Bytes) (request : ScanRequest) : Snapshot :=
  ((ForwardScanner.withCaptureProvenance request
    (request.provenance.withByteLen bytes.length)).feed bytes).closeLine.publishedSnapshot

def scanBytes (bytes : Bytes) : Snapshot := scanSnapshot bytes .wholeFile

def scanBytesWithCoverage (bytes : Bytes) (coverage : CoverageInput) : Snapshot :=
  scanSnapshot bytes (.new coverage)

/-! ## What the tag depends on -/

open List

/-- Popping stops at the end of the line before. -/
theorem popTrailingBlanks_append {done : Bytes} (h : done = [] ∨ done.getLast? = some byteLf)
    (segment : Bytes) :
    popTrailingBlanks (done ++ segment) = done ++ popTrailingBlanks segment := by
  have hd : popTrailingBlanks done = done := by
    rcases h with rfl | h
    · rfl
    · obtain ⟨start, rfl⟩ := getLast?_eq_some_iff.1 h
      exact rdropWhile_concat_neg _ _ _ (by decide)
  unfold popTrailingBlanks rdropWhile at hd ⊢
  rw [reverse_append, dropWhile_append]
  split_ifs with he
  · rw [hd, isEmpty_iff.1 he, reverse_nil, append_nil]
  · rw [reverse_append, reverse_reverse]

/-- The lines that line feeds separate, without their trailing blanks. -/
def trimmedLines (input : Bytes) : List Bytes := (input.splitOn byteLf).map popTrailingBlanks

/-- One round of the loop of `normalizeForTag`. -/
def pushNormalized (normalized : Bytes) (byte : UInt8) : Bytes :=
  (if byte = byteLf then popTrailingBlanks normalized else normalized) ++ [byte]

theorem foldl_pushNormalized {segment : Bytes} (h : byteLf ∉ segment) (done : Bytes) :
    segment.foldl pushNormalized done = done ++ segment := by
  induction segment generalizing done with
  | nil => simp
  | cons byte segment ih =>
    rw [mem_cons, not_or] at h
    rw [foldl_cons, pushNormalized, if_neg (Ne.symm h.1), ih h.2, append_assoc, singleton_append]

theorem foldl_pushNormalized_intercalate {segments : List Bytes}
    (hlf : ∀ segment ∈ segments, byteLf ∉ segment) (hne : segments ≠ []) {done : Bytes}
    (hd : done = [] ∨ done.getLast? = some byteLf) :
    popTrailingBlanks (([byteLf].intercalate segments).foldl pushNormalized done) =
      done ++ [byteLf].intercalate (segments.map popTrailingBlanks) := by
  induction segments generalizing done with
  | nil => exact absurd rfl hne
  | cons segment segments ih =>
    rw [forall_mem_cons] at hlf
    cases segments with
    | nil =>
      rw [map_singleton, intercalate_singleton, intercalate_singleton,
        foldl_pushNormalized hlf.1, popTrailingBlanks_append hd]
    | cons next more =>
      rw [intercalate_cons_cons, foldl_append, foldl_append, foldl_pushNormalized hlf.1, foldl_cons,
        foldl_nil, pushNormalized, popTrailingBlanks_append hd,
        ih hlf.2 (cons_ne_nil _ _) (.inr getLast?_concat)]
      simp

theorem normalizeForTag_eq (input : Bytes) :
    normalizeForTag input = [byteLf].intercalate (trimmedLines input) := by
  have h := foldl_pushNormalized_intercalate (fun _ => notMem_of_mem_splitOn)
    (splitOn_ne_nil byteLf input) (.inl rfl)
  rwa [intercalate_splitOn] at h

theorem splitOn_normalizeForTag (input : Bytes) :
    (normalizeForTag input).splitOn byteLf = trimmedLines input := by
  rw [normalizeForTag_eq, splitOn_intercalate]
  · intro segment hs
    obtain ⟨source, hm, rfl⟩ := mem_map.1 hs
    exact fun h => notMem_of_mem_splitOn hm (( rdropWhile_prefix _ _).subset h)
  · simp [trimmedLines]

/-- The tag is computed from the lines without their trailing blanks. -/
theorem normalizeForTag_trims (input other : Bytes) :
    normalizeForTag input = [byteLf].intercalate ((input.splitOn byteLf).map popTrailingBlanks) ∧
      normalizeForTag (normalizeForTag input) = normalizeForTag input ∧
      (normalizeForTag input = normalizeForTag other ↔
        (input.splitOn byteLf).map popTrailingBlanks =
          (other.splitOn byteLf).map popTrailingBlanks) := by
  refine ⟨normalizeForTag_eq input, ?_, fun h => ?_, fun h => ?_⟩
  · have h : trimmedLines (normalizeForTag input) = trimmedLines input := by
      rw [trimmedLines, splitOn_normalizeForTag, trimmedLines, map_map]
      exact map_congr_left fun segment _ => rdropWhile_idempotent _ _
    rw [normalizeForTag_eq (normalizeForTag input), h, ← normalizeForTag_eq]
  · have := congrArg (splitOn byteLf) h
    rwa [splitOn_normalizeForTag, splitOn_normalizeForTag] at this
  · rw [normalizeForTag_eq, normalizeForTag_eq, trimmedLines, h, trimmedLines]

end Aft.Hashline
