import Aft.Hashline.Scan

/-!
# What a scan finds

The scanner walks segments and keeps counters; here it is described by the rows of the byte stream.
Feeding `scanState` a chunk leads to the state after more rows (`feed_scanState`), wherever the
chunk ends, so that a scan retains exactly the requested lines of the whole stream.
-/

namespace Aft.Hashline

open List ForwardScanner SortedMap

def rowRecord (row : Row UInt8) : RawLineRecord :=
  if row.ended then ForwardScanner.terminatedRecord row.content else ⟨row.content, .none⟩

theorem toBytes_rowRecord (row : Row UInt8) : (rowRecord row).toBytes = row.toList byteLf := by
  unfold rowRecord terminatedRecord RawLineRecord.toBytes Row.toList
  split_ifs with he hc
  · obtain ⟨start, hs⟩ := getLast?_eq_some_iff.1 hc
    simp [hs, TerminatorKind.bytes]
  · rfl
  · rfl

def rowBytes (found : List (Row UInt8)) : Bytes := found.flatMap (Row.toList byteLf)

theorem rowBytes_rows (bytes : Bytes) : rowBytes (rows byteLf bytes) = bytes :=
  flatMap_toList_rows bytes

/-- The lines of rows that follow other rows. -/
def retainedRows (before : List (Row UInt8)) : List (Row UInt8) → List RetainedLine
  | [] => []
  | row :: rest =>
    ⟨before.length + 1, rowRecord row, (rowBytes before).length,
      (rowBytes (before ++ [row])).length⟩ :: retainedRows (before ++ [row]) rest

variable {before found : List (Row UInt8)} {row : Row UInt8} {line : RetainedLine}

theorem retainedRows_concat : retainedRows before (found ++ [row]) =
    retainedRows before found ++ [⟨(before ++ found).length + 1, rowRecord row,
      (rowBytes (before ++ found)).length, (rowBytes (before ++ found ++ [row])).length⟩] := by
  induction found generalizing before with
  | nil => simp [retainedRows]
  | cons first found ih => simp [retainedRows, ih]

theorem map_record_retainedRows :
    (retainedRows before found).map RetainedLine.record = found.map rowRecord := by
  induction found generalizing before with
  | nil => rfl
  | cons first found ih => simp [retainedRows, ih]

theorem length_retainedRows : (retainedRows before found).length = found.length := by
  rw [← length_map, map_record_retainedRows, length_map]

theorem splitInclusive_eq (bytes : Bytes) :
    splitInclusive bytes = (rows byteLf bytes).map (Row.toList byteLf) := by
  induction bytes with
  | nil => rfl
  | cons b rest ih =>
    simp only [splitInclusive, rows]
    split_ifs with hb
    · simp [Row.toList, ih, hb]
    · rw [ih]
      cases rows byteLf rest <;> simp [Row.toList]

/-! ## The states of a scan -/

namespace ForwardScanner

/-- The rows that a scan has seen the end of, and the bytes of the line that it is in. -/
abbrev Place := List (Row UInt8) × Bytes

variable {place : Place} {request : ScanRequest} {captureProvenance : CaptureProvenance}
  {content raw : Bytes}

/-- One byte ends the line or belongs to it. -/
def cutByte (place : Place) (byte : UInt8) : Place :=
  if byte = byteLf then (place.1 ++ [⟨place.2, true⟩], []) else (place.1, place.2 ++ [byte])

theorem foldl_cutByte (h : byteLf ∉ content) :
    content.foldl cutByte place = (place.1, place.2 ++ content) := by
  induction content generalizing place with
  | nil => simp
  | cons byte content ih =>
    rw [mem_cons, not_or] at h
    rw [foldl_cons, cutByte, if_neg (Ne.symm h.1), ih h.2, append_assoc, singleton_append]

theorem rowBytes_foldl_cutByte (bytes : Bytes) (place : Place) :
    rowBytes (bytes.foldl cutByte place).1 ++ (bytes.foldl cutByte place).2 =
      rowBytes place.1 ++ place.2 ++ bytes := by
  induction bytes generalizing place with
  | nil => simp
  | cons byte bytes ih =>
    rw [foldl_cons, ih, cutByte]
    split_ifs with hb <;> simp [rowBytes, Row.toList, hb]

def allRows (place : Place) : List (Row UInt8) :=
  if place.2 = [] then place.1 else place.1 ++ [⟨place.2, false⟩]

theorem allRows_foldl_cutByte (hlf : byteLf ∉ place.2) (bytes : Bytes) :
    allRows (bytes.foldl cutByte place) = place.1 ++ rows byteLf (place.2 ++ bytes) := by
  induction bytes generalizing place with
  | nil =>
    rw [append_nil, foldl_nil, allRows]
    split_ifs with hl
    · rw [hl, rows_nil, append_nil]
    · rw [rows_of_notMem hlf hl]
  | cons byte bytes ih =>
    rw [foldl_cons, cutByte]
    split_ifs with hb
    · rw [ih not_mem_nil, hb, rows_append_sep, rows_concat_sep hlf, append_assoc, nil_append]
    · rw [ih (by simp [hlf, Ne.symm hb]), append_assoc, singleton_append]

/-- The scanner at a place. -/
def scanState (request : ScanRequest) (captureProvenance : CaptureProvenance) (place : Place) :
    ForwardScanner where
  request := request
  captureProvenance := captureProvenance
  rawBytes := rowBytes place.1 ++ place.2
  currentLine := place.2
  currentLineStart := (rowBytes place.1).length
  nextLineNumber := place.1.length + 1
  scannedLineCount := place.1.length
  retainedLines := (SortedMap.ofList (retainedRows [] place.1)).filterKeys request.coverage.retains
  finished := false
  published := none

theorem retainLineIfRequested_eq (scanner : ForwardScanner) (lineNumber : ℕ)
    (record : RawLineRecord) (byteStart byteEnd : ℕ) :
    scanner.retainLineIfRequested lineNumber record byteStart byteEnd =
      { scanner with retainedLines :=
          if scanner.request.coverage.retains lineNumber then
            scanner.retainedLines.insert lineNumber ⟨lineNumber, record, byteStart, byteEnd⟩
          else scanner.retainedLines } := by
  unfold retainLineIfRequested
  split_ifs <;> rfl

theorem pushSegment_scanState {chunkStart consumed : ℕ} (hlf : byteLf ∉ row.content)
    (h : chunkStart + consumed = (rowBytes place.1 ++ place.2).length) :
    pushSegment chunkStart ({ scanState request captureProvenance place with rawBytes := raw },
        consumed) (row.toList byteLf) =
      ({ scanState request captureProvenance ((row.toList byteLf).foldl cutByte place) with
          rawBytes := raw }, consumed + (row.toList byteLf).length) := by
  obtain ⟨content, ended⟩ := row
  cases ended with
  | false =>
    have hl : content.getLast? ≠ some byteLf := fun h => hlf (mem_of_getLast? h)
    simp [Row.toList, foldl_cutByte hlf, pushSegment, hl, scanState]
  | true =>
    have hend : chunkStart + (consumed + (content.length + 1)) =
        (rowBytes (place.1 ++ [⟨place.2 ++ content, true⟩])).length := by
      rw [← Nat.add_assoc, h]
      simp [rowBytes, Row.toList, Nat.add_assoc]
    simp only [Row.toList, if_true, foldl_append, foldl_cutByte hlf, foldl_cons, foldl_nil, cutByte,
      pushSegment, getLast?_concat, dropLast_concat, scanState, retainLineIfRequested_eq, hend,
      retainedRows_concat, filterKeys_ofList_concat, length_retainedRows, nil_append,
      length_append, length_singleton]
    rfl

theorem foldl_pushSegment {chunkStart consumed : ℕ} (hlf : ∀ row ∈ found, byteLf ∉ row.content)
    (h : chunkStart + consumed = (rowBytes place.1 ++ place.2).length) :
    ((found.map (Row.toList byteLf)).foldl (pushSegment chunkStart)
        ({ scanState request captureProvenance place with rawBytes := raw }, consumed)).1 =
      { scanState request captureProvenance ((rowBytes found).foldl cutByte place) with
        rawBytes := raw } := by
  induction found generalizing place consumed with
  | nil => rfl
  | cons row found ih =>
    rw [forall_mem_cons] at hlf
    rw [map_cons, foldl_cons, pushSegment_scanState hlf.1 h]
    rw [rowBytes, flatMap_cons, foldl_append]
    refine ih hlf.2 ?_
    rw [rowBytes_foldl_cutByte, length_append, ← h, Nat.add_assoc]

/-- A chunk leads from place to place, wherever it ends. -/
theorem feed_scanState (bytes : Bytes) :
    (scanState request captureProvenance place).feed bytes =
      scanState request captureProvenance (bytes.foldl cutByte place) := by
  unfold feed
  rw [splitInclusive_eq]
  refine (foldl_pushSegment (fun row hr => (content_of_mem_rows hr).1) (Nat.add_zero _)).trans ?_
  simp only [scanState, rowBytes_rows, rowBytes_foldl_cutByte]

theorem foldlM_push (chunks : List Bytes) :
    chunks.foldlM push (scanState request captureProvenance place) =
      .ok (scanState request captureProvenance (chunks.flatten.foldl cutByte place)) := by
  induction chunks generalizing place with
  | nil => rfl
  | cons chunk chunks ih =>
    rw [flatten_cons, foldl_append, ← ih, foldlM_cons, push, feed_scanState]
    rfl

theorem publishedSnapshot_closeLine :
    (scanState request captureProvenance place).closeLine.publishedSnapshot =
      (scanState request captureProvenance (allRows place, [])).publishedSnapshot := by
  obtain ⟨found, line⟩ := place
  by_cases hl : line = []
  · simp [hl, allRows, closeLine, scanState]
  · simp [hl, allRows, closeLine, scanState, retainLineIfRequested_eq, publishedSnapshot, coverage,
      retainedRows_concat, filterKeys_ofList_concat, length_retainedRows, rowRecord,
      rowBytes, Row.toList]

end ForwardScanner

/-! ## Whole scans -/

/-- Push chunks into a new scanner and finish. -/
def scanChunks (request : ScanRequest) (captureProvenance : CaptureProvenance)
    (chunks : List Bytes) : Except ScanError ScanResult := do
  let scanner ← chunks.foldlM ForwardScanner.push (.withCaptureProvenance request captureProvenance)
  let (result, _) ← scanner.finish
  return result

variable (bytes : Bytes) (request : ScanRequest) (captureProvenance : CaptureProvenance)

/-- The snapshot of all rows of a byte stream. -/
def rowsSnapshot : Snapshot :=
  (ForwardScanner.scanState request captureProvenance (rows byteLf bytes, [])).publishedSnapshot

theorem closeLine_foldl_cutByte :
    (scanState request captureProvenance
        (bytes.foldl cutByte ([], []))).closeLine.publishedSnapshot =
      rowsSnapshot bytes request captureProvenance := by
  rw [publishedSnapshot_closeLine, allRows_foldl_cutByte not_mem_nil]
  rfl

theorem scanChunks_eq (chunks : List Bytes) :
    let snapshot := rowsSnapshot chunks.flatten request captureProvenance
    scanChunks request captureProvenance chunks =
      .ok ⟨some snapshot, snapshot.coverage, snapshot.provenance, snapshot.captureProvenance⟩ := by
  intro snapshot
  have hs : withCaptureProvenance request captureProvenance =
      .scanState request captureProvenance ([], []) := rfl
  have hp : _ = snapshot := closeLine_foldl_cutByte chunks.flatten request captureProvenance
  rw [scanChunks, hs, foldlM_push, ← hp]
  rfl

theorem scanSnapshot_eq : scanSnapshot bytes request =
    rowsSnapshot bytes request (request.provenance.withByteLen bytes.length) := by
  rw [← closeLine_foldl_cutByte, ← feed_scanState]
  rfl

/-- The scan of a byte slice reaches its end and publishes `scanSnapshot`. -/
theorem scanBytesWithRequest_eq : ∃ result, scanBytesWithRequest bytes request = .ok result ∧
    result.snapshot = some (scanSnapshot bytes request) := by
  have h := scanChunks_eq request (request.provenance.withByteLen bytes.length) [bytes]
  rw [scanSnapshot_eq]
  simp only [flatten_cons, flatten_nil, append_nil] at h
  exact ⟨_, h, rfl⟩

def lineRecords : List RawLineRecord := (rows byteLf bytes).map rowRecord

theorem flatMap_toBytes_lineRecords :
    (lineRecords bytes).flatMap RawLineRecord.toBytes = bytes := by
  rw [lineRecords, flatMap_map]
  simp only [toBytes_rowRecord]
  exact flatMap_toList_rows bytes

theorem scanSnapshot_totalLines : (scanSnapshot bytes request).totalLines =
    (lineRecords bytes).length := by
  rw [scanSnapshot_eq, lineRecords, length_map]
  rfl

theorem records_rowsSnapshot : (rowsSnapshot bytes request captureProvenance).records =
    (ofList (lineRecords bytes)).filterKeys request.coverage.retains := by
  refine ext_find? fun k => ?_
  simp only [rowsSnapshot, publishedSnapshot, scanState,
    find?_mapValues, find?_filterKeys, find?_ofList]
  rw [lineRecords, ← @map_record_retainedRows [], getElem?_map]
  split_ifs <;> rfl

theorem filterKeys_wholeFile {α : Type} (lines : SortedMap ℕ α) :
    lines.filterKeys CoverageInput.wholeFile.retains = lines :=
  ext_entries (filter_eq_self.2 fun _ _ => rfl)

theorem scanBytes_records : (scanBytes bytes).records = ofList (lineRecords bytes) := by
  rw [scanBytes, scanSnapshot_eq, records_rowsSnapshot]
  exact filterKeys_wholeFile _

theorem scanBytes_rawRecord (k : ℕ) :
    (scanBytes bytes).rawRecord k = if 0 < k then (lineRecords bytes)[k - 1]? else none := by
  rw [Snapshot.rawRecord, scanBytes_records, find?_ofList]

/-! ## The byte spans -/

theorem byteStart_of_mem (h : line ∈ retainedRows before found) :
    (rowBytes before).length ≤ line.byteStart := by
  induction found generalizing before with
  | nil => cases h
  | cons row found ih =>
    rcases mem_cons.1 h with rfl | h
    · exact le_rfl
    · exact le_trans (by simp [rowBytes]) (ih h)

theorem byteEnd_of_mem (hr : ∀ row ∈ found, row.toList byteLf ≠ [])
    (h : line ∈ retainedRows before found) :
    line.byteStart < line.byteEnd ∧ line.byteEnd ≤ (rowBytes (before ++ found)).length := by
  induction found generalizing before with
  | nil => cases h
  | cons row found ih =>
    rw [forall_mem_cons] at hr
    rcases mem_cons.1 h with rfl | h
    · have := length_pos_iff.2 hr.1
      simp only [rowBytes, flatMap_append, flatMap_cons, flatMap_nil, length_append, length_nil]
      omega
    · have := ih hr.2 h
      rwa [append_assoc] at this

theorem existsUnique_span {offset : ℕ} (hle : (rowBytes before).length ≤ offset)
    (hlt : offset < (rowBytes (before ++ found)).length) :
    ∃! line, line ∈ retainedRows before found ∧
      line.byteStart ≤ offset ∧ offset < line.byteEnd := by
  induction found generalizing before with
  | nil =>
    rw [append_nil] at hlt
    omega
  | cons row found ih =>
    by_cases ho : offset < (rowBytes (before ++ [row])).length
    · refine ⟨_, ⟨mem_cons_self, hle, ho⟩, fun line h => ?_⟩
      obtain ⟨hl, hs, -⟩ := h
      rcases mem_cons.1 hl with rfl | hl
      · rfl
      · have := byteStart_of_mem hl
        omega
    · obtain ⟨line, ⟨hl, hin⟩, hu⟩ := ih (not_lt.1 ho) (by simpa using hlt)
      refine ⟨line, ⟨mem_cons_of_mem _ hl, hin⟩, fun other h => ?_⟩
      obtain ⟨hl, hs, he⟩ := h
      rcases mem_cons.1 hl with rfl | hl
      · exact absurd he ho
      · exact hu other ⟨hl, hs, he⟩

/-- Spans that partition the offsets below a length. -/
def Partitions (lines : List RetainedLine) (length : ℕ) : Prop :=
  (∀ line ∈ lines, line.byteStart < line.byteEnd ∧ line.byteEnd ≤ length) ∧
    ∀ offset < length, ∃! line, line ∈ lines ∧ line.byteStart ≤ offset ∧ offset < line.byteEnd

theorem partitions_rows : Partitions (retainedRows [] (rows byteLf bytes)) bytes.length := by
  have hb := congrArg length (rowBytes_rows bytes)
  refine ⟨fun line hl => ?_, fun offset ho => ?_⟩
  · rw [← hb]
    refine byteEnd_of_mem (fun row hr => ?_) hl
    cases he : row.ended with
    | true => simp [Row.toList, he]
    | false => simpa [Row.toList, he] using (content_of_mem_rows hr).2 he
  · exact existsUnique_span (Nat.zero_le _) (by rwa [nil_append, hb])

/-- However a stream is cut, the scan publishes what the whole stream says: all lines, byte for
byte, or the requested ones. -/
theorem scan_lossless (chunks : List Bytes) (request : ScanRequest)
    (captureProvenance : CaptureProvenance) :
    scanChunks request captureProvenance chunks =
        scanChunks request captureProvenance [chunks.flatten] ∧
      ∃ result whole snapshot full,
        scanChunks request captureProvenance chunks = .ok result ∧ result.snapshot = some snapshot ∧
        scanChunks { request with coverage := .wholeFile } captureProvenance chunks = .ok whole ∧
        whole.snapshot = some full ∧
        full.records.values.flatMap RawLineRecord.toBytes = chunks.flatten ∧
        Partitions full.retainedLines.values chunks.flatten.length ∧
        snapshot.records = full.records.filterKeys request.coverage.retains ∧
        snapshot.retainedLines = full.retainedLines.filterKeys request.coverage.retains ∧
        snapshot.tag = full.tag ∧ snapshot.totalLines = full.totalLines := by
  refine ⟨?_, _, _, _, _, scanChunks_eq _ _ chunks, rfl, scanChunks_eq _ _ chunks, rfl, ?_, ?_, ?_,
    ?_, rfl, rfl⟩
  · rw [scanChunks_eq, scanChunks_eq, flatten_singleton]
  · rw [records_rowsSnapshot, filterKeys_wholeFile, SortedMap.values_ofList]
    exact flatMap_toBytes_lineRecords _
  · have hr : (rowsSnapshot chunks.flatten { request with coverage := .wholeFile }
        captureProvenance).retainedLines = _ := filterKeys_wholeFile _
    rw [hr, SortedMap.values_ofList]
    exact partitions_rows _
  · rw [records_rowsSnapshot, records_rowsSnapshot, filterKeys_wholeFile]
  · exact congrArg (SortedMap.filterKeys · _) (filterKeys_wholeFile _).symm

end Aft.Hashline
