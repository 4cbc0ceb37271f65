import Aft.Hashline.Apply

/-!
# Lines written and scanned again

`joinLines` followed by a scan returns the lines that were written (`lineRecords_joinLines`), with
two exceptions: a last line without terminator is lost when it is empty, and a line written with a
line feed loses a final carriage return to its terminator.
-/

namespace Aft.Hashline

open List ForwardScanner SortedMap

/-! ## Lines of a baseline -/

variable {bytes : Bytes} {line : String}

theorem asBytes_of_fromUtf8 (h : fromUtf8 bytes = some line) : asBytes line = bytes := by
  unfold fromUtf8 String.fromUTF8? at h
  split_ifs at h
  cases h
  rfl

theorem Baseline.totalLines_eq (baseline : Baseline) :
    baseline.snapshot.totalLines = (lineRecords baseline.bytes).length := by
  rw [baseline.scanned]
  exact scanSnapshot_totalLines _ _

theorem Baseline.rawRecord_eq (baseline : Baseline) (line : ℕ) :
    baseline.rawRecord line = if 0 < line then (lineRecords baseline.bytes)[line - 1]? else none := by
  rw [Baseline.rawRecord, baseline.scanned, scanBytes_rawRecord]

theorem Baseline.records_eq (baseline : Baseline) :
    baseline.snapshot.records = ofList (lineRecords baseline.bytes) := by
  rw [baseline.scanned, scanBytes_records]

variable {baseline : Baseline} {lines : List String}

theorem baselineLines_eq_ok (h : baselineLines baseline = .ok lines) :
    lines.map asBytes = (lineRecords baseline.bytes).map RawLineRecord.content := by
  rw [baselineLines, mapM_eq_ok_iff, baseline.totalLines_eq] at h
  refine ext_getElem? fun i => ?_
  have hlen := h.length_eq
  rw [length_range'] at hlen
  rw [getElem?_map, getElem?_map]
  rcases lt_or_ge i lines.length with hi | hi
  · have hget := (forall₂_iff_get.1 h).2 i (by simpa [hlen] using hi) hi
    simp only [get_eq_getElem, getElem_range', baseline.rawRecord_eq, Nat.one_mul] at hget
    rw [if_pos (by omega), Nat.add_sub_cancel_left, getElem?_eq_getElem (hlen ▸ hi)] at hget
    simp only [lineContentUtf8] at hget
    split at hget
    · rename_i line hl
      cases hget
      rw [getElem?_eq_getElem hi, getElem?_eq_getElem (hlen ▸ hi)]
      exact congrArg some (asBytes_of_fromUtf8 hl)
    · cases hget
  · rw [getElem?_eq_none hi, getElem?_eq_none (hlen ▸ hi)]
    rfl

theorem lf_notMem_content {record : RawLineRecord} (h : record ∈ lineRecords bytes) :
    byteLf ∉ record.content := by
  obtain ⟨row, hrow, rfl⟩ := mem_map.1 h
  have hlf := (content_of_mem_rows hrow).1
  unfold rowRecord terminatedRecord
  split_ifs
  · exact fun hmem => hlf (dropLast_subset _ hmem)
  · exact hlf
  · exact hlf

theorem lf_notMem_line (h : baselineLines baseline = .ok lines) (hl : line ∈ lines) :
    byteLf ∉ asBytes line := by
  have hmem : asBytes line ∈ lines.map asBytes := mem_map_of_mem hl
  rw [baselineLines_eq_ok h] at hmem
  obtain ⟨record, hr, heq⟩ := mem_map.1 hmem
  exact heq ▸ lf_notMem_content hr

/-! ## Scanning written lines -/

variable (terminator : TerminatorKind)

def closedRow (line : String) : List RawLineRecord :=
  lineRecords (asBytes line ++ (writtenTerminator terminator).bytes)

theorem lineRecords_append_written (bytes rest : Bytes) :
    lineRecords (bytes ++ (writtenTerminator terminator).bytes ++ rest) =
      lineRecords (bytes ++ (writtenTerminator terminator).bytes) ++ lineRecords rest := by
  obtain ⟨lead, hl⟩ : ∃ lead, (writtenTerminator terminator).bytes = lead ++ [byteLf] := by
    cases terminator
    · exact ⟨[], rfl⟩
    · exact ⟨[byteCr], rfl⟩
    · exact ⟨[], rfl⟩
  rw [hl, ← append_assoc, append_assoc _ [byteLf] rest, singleton_append, lineRecords, rows_append_sep,
    map_append]
  rfl

variable {b : List String}

theorem lineRecords_flatMap_closed (a : List String) (rest : Bytes) :
    lineRecords (a.flatMap (fun line => asBytes line ++ (writtenTerminator terminator).bytes) ++
      rest) = a.flatMap (closedRow terminator) ++ lineRecords rest := by
  induction a with
  | nil => rfl
  | cons line a ih =>
    rw [flatMap_cons, flatMap_cons, append_assoc _ _ rest,
      lineRecords_append_written, ih, append_assoc]
    rfl

section

variable (hb : b ≠ []) (a : List String) (terminator : TerminatorKind) (trailing : Bool)
include hb

theorem joinLines_append :
    joinLines (a ++ b) terminator trailing =
      a.flatMap (fun line => asBytes line ++ (writtenTerminator terminator).bytes) ++
        joinLines b terminator trailing := by
  induction a with
  | nil => rfl
  | cons line a ih =>
    obtain ⟨next, more, hn⟩ := exists_cons_of_ne_nil (append_ne_nil_of_right_ne_nil a hb)
    rw [flatMap_cons, append_assoc, ← ih, cons_append, hn, joinLines]
    exact nofun

theorem lineRecords_joinLines_append :
    lineRecords (joinLines (a ++ b) terminator trailing) =
      a.flatMap (closedRow terminator) ++ lineRecords (joinLines b terminator trailing) := by
  rw [joinLines_append hb, lineRecords_flatMap_closed]

end

theorem lineRecords_joinLines_closed (lines : List String) (terminator : TerminatorKind) :
    lineRecords (joinLines lines terminator true) = lines.flatMap (closedRow terminator) := by
  rcases eq_nil_or_concat lines with rfl | ⟨init, last, rfl⟩
  · rfl
  · rw [concat_eq_append, lineRecords_joinLines_append (cons_ne_nil _ _)]
    simp [joinLines, closedRow]

theorem lineRecords_joinLines_open (init : List String) (last : String)
    (terminator : TerminatorKind) :
    lineRecords (joinLines (init ++ [last]) terminator false) =
      init.flatMap (closedRow terminator) ++ lineRecords (asBytes last) := by
  rw [lineRecords_joinLines_append (cons_ne_nil _ _)]
  simp [joinLines]

/-! ## One line -/

def writtenRecord (content : Bytes) : RawLineRecord :=
  match terminator with
  | .crLf => ⟨content, .crLf⟩
  | .lf | .none => ForwardScanner.terminatedRecord content

theorem closedRow_eq (hlf : byteLf ∉ asBytes line) (terminator : TerminatorKind) :
    closedRow terminator line = [writtenRecord terminator (asBytes line)] := by
  cases terminator with
  | crLf =>
    have hcr : byteLf ∉ asBytes line ++ [byteCr] := by
      simpa using ⟨hlf, by decide⟩
    have hr := rows_concat_sep hcr
    rw [append_assoc] at hr
    have hw : (writtenTerminator .crLf).bytes = [byteCr] ++ [byteLf] := rfl
    rw [closedRow, lineRecords, hw, hr]
    simp [rowRecord, terminatedRecord, writtenRecord]
  | lf =>
    have hw : (writtenTerminator .lf).bytes = [byteLf] := rfl
    rw [closedRow, lineRecords, hw, rows_concat_sep hlf]
    simp [rowRecord, writtenRecord]
  | none =>
    have hw : (writtenTerminator .none).bytes = [byteLf] := rfl
    rw [closedRow, lineRecords, hw, rows_concat_sep hlf]
    simp [rowRecord, writtenRecord]

variable {content : Bytes}

theorem lineRecords_line (hlf : byteLf ∉ content) (hne : content ≠ []) :
    lineRecords content = [⟨content, .none⟩] := by
  rw [lineRecords, rows_of_notMem hlf hne]
  simp [rowRecord]

/-- A written line keeps its content, unless a line feed takes a final carriage return. -/
theorem writtenRecord_content {terminator : TerminatorKind}
    (h : terminator ≠ .crLf → content.getLast? ≠ some byteCr) :
    (writtenRecord terminator content).content = content := by
  cases terminator with
  | crLf => rfl
  | lf | none => simp [writtenRecord, terminatedRecord, h (by decide)]

/-- The records that separator-free lines become; the last one may stay without terminator. -/
def writtenRecords (terminator : TerminatorKind) (openLast : Bool) : List String → List RawLineRecord
  | [] => []
  | [line] =>
    [if openLast then ⟨asBytes line, .none⟩ else writtenRecord terminator (asBytes line)]
  | line :: rest =>
    writtenRecord terminator (asBytes line) :: writtenRecords terminator openLast rest

theorem writtenRecords_append (hb : b ≠ []) (a : List String) (terminator : TerminatorKind)
    (openLast : Bool) :
    writtenRecords terminator openLast (a ++ b) =
      a.map (fun line => writtenRecord terminator (asBytes line)) ++
        writtenRecords terminator openLast b := by
  induction a with
  | nil => rfl
  | cons line a ih =>
    obtain ⟨next, more, hn⟩ := exists_cons_of_ne_nil (append_ne_nil_of_right_ne_nil a hb)
    rw [map_cons, cons_append, cons_append, ← ih, hn, writtenRecords]
    exact nofun

theorem writtenRecords_closed (lines : List String) (terminator : TerminatorKind) :
    writtenRecords terminator false lines =
      lines.map fun line => writtenRecord terminator (asBytes line) := by
  rcases eq_nil_or_concat lines with rfl | ⟨init, last, rfl⟩
  · rfl
  · rw [concat_eq_append, writtenRecords_append (cons_ne_nil _ _), map_append]
    rfl

theorem writtenRecords_open (init : List String) (last : String) (terminator : TerminatorKind) :
    writtenRecords terminator true (init ++ [last]) =
      init.map (fun line => writtenRecord terminator (asBytes line)) ++ [⟨asBytes last, .none⟩] := by
  rw [writtenRecords_append (cons_ne_nil _ _)]
  rfl

theorem length_writtenRecords (openLast : Bool) (lines : List String) :
    (writtenRecords terminator openLast lines).length = lines.length := by
  fun_induction writtenRecords terminator openLast lines with
  | case1 | case2 => rfl
  | case3 line rest hne ih => rw [length_cons, ih, length_cons]

theorem getElem?_writtenRecords (openLast : Bool) (lines : List String) (i : ℕ) :
    (writtenRecords terminator openLast lines)[i]? = lines[i]?.map fun line =>
      if openLast ∧ i + 1 = lines.length then ⟨asBytes line, .none⟩
      else writtenRecord terminator (asBytes line) := by
  fun_induction writtenRecords terminator openLast lines generalizing i with
  | case1 => rfl
  | case2 line => cases i <;> simp
  | case3 line rest hne ih =>
    obtain ⟨next, more, rfl⟩ := exists_cons_of_ne_nil fun h => hne h
    cases i with
    | zero => simp
    | succ i =>
      rw [getElem?_cons_succ, ih]
      simp

theorem flatMap_closedRow (hlf : ∀ line ∈ lines, byteLf ∉ asBytes line)
    (terminator : TerminatorKind) :
    lines.flatMap (closedRow terminator) =
      lines.map fun line => writtenRecord terminator (asBytes line) := by
  rw [map_eq_flatMap]
  exact flatMap_congr fun line hl => closedRow_eq (hlf line hl) terminator

/-- Writing and scanning `a ++ b ++ c` gives one record for each line of `a` and `c`, if no open
last line is empty. -/
theorem lineRecords_joinLines {a c : List String} (ha : ∀ line ∈ a, byteLf ∉ asBytes line)
    (hc : ∀ line ∈ c, byteLf ∉ asBytes line) (b : List String) (terminator : TerminatorKind)
    (trailing : Bool)
    (hl : trailing = false → ∀ line, c.getLast? = some line → asBytes line ≠ [])
    (hl' : trailing = false → b = [] → c = [] → ∀ line, a.getLast? = some line →
      asBytes line ≠ []) :
    ∃ middle, lineRecords (joinLines (a ++ b ++ c) terminator trailing) =
      writtenRecords terminator (!trailing && b.isEmpty && c.isEmpty) a ++ middle ++
        writtenRecords terminator (!trailing) c ∧ (b = [] → middle = []) := by
  have hem (init : List String) (last : String) : (init ++ [last]).isEmpty = false := by
    simp
  cases trailing with
  | true =>
    refine ⟨b.flatMap (closedRow terminator), ?_, fun hb => by rw [hb]; rfl⟩
    rw [lineRecords_joinLines_closed, flatMap_append, flatMap_append,
      flatMap_closedRow ha, flatMap_closedRow hc]
    simp [writtenRecords_closed]
  | false =>
    rcases eq_nil_or_concat c with rfl | ⟨init, last, rfl⟩
    · rcases eq_nil_or_concat b with rfl | ⟨binit, blast, rfl⟩
      · refine ⟨[], ?_, fun _ => rfl⟩
        rcases eq_nil_or_concat a with rfl | ⟨ainit, alast, rfl⟩
        · rfl
        · rw [concat_eq_append] at ha hl' ⊢
          have hne := hl' rfl rfl rfl alast (by simp)
          rw [append_nil, append_nil, lineRecords_joinLines_open,
            lineRecords_line (ha _ (by simp)) hne,
            flatMap_closedRow fun line hli => ha line (mem_append_left _ hli)]
          simp [writtenRecords_open, writtenRecords]
      · refine ⟨binit.flatMap (closedRow terminator) ++ lineRecords (asBytes blast), ?_, ?_⟩
        · rw [concat_eq_append, append_nil, ← append_assoc,
            lineRecords_joinLines_open, flatMap_append, flatMap_closedRow ha]
          simp [writtenRecords_closed, writtenRecords, hem]
        · intro hb
          simp at hb
    · rw [concat_eq_append] at hc hl ⊢
      have hne := hl rfl last (by simp)
      refine ⟨b.flatMap (closedRow terminator), ?_, fun hb => by rw [hb]; rfl⟩
      rw [← append_assoc, lineRecords_joinLines_open, lineRecords_line (hc _ (by simp)) hne,
        flatMap_append, flatMap_append, flatMap_closedRow ha,
        flatMap_closedRow fun line hli => hc line (mem_append_left _ hli)]
      simp [writtenRecords_open, writtenRecords_closed, hem]

/-! ## The policy of a baseline -/

theorem terminatorPolicy_ofList (records : List RawLineRecord) :
    terminatorPolicy (ofList records) =
      (if records.countP (fun record => record.terminator = .crLf) >
          records.countP (fun record => record.terminator = .lf) then .crLf else .lf,
        records.getLast?.elim true fun record => decide (record.terminator ≠ .none)) := by
  have hv : (ofList records).values = records := by
    rw [values, ofList, map_map]
    exact zipIdx_map_fst 1 records
  have hem : (ofList records).entries.isEmpty = records.isEmpty := by
    cases records <;> rfl
  rw [terminatorPolicy]
  simp only [hv, hem]
  cases records with
  | nil => rfl
  | cons record rest =>
    simp [getLast?_cons]

/-- A baseline whose last line has no terminator ends in a line that is not empty. -/
theorem exists_open_record (h : (terminatorPolicy (ofList (lineRecords bytes))).2 = false) :
    ∃ init content, lineRecords bytes = init ++ [⟨content, .none⟩] ∧ content ≠ [] := by
  rw [terminatorPolicy_ofList] at h
  rcases eq_nil_or_concat (rows byteLf bytes) with hnil | ⟨init, last, hl⟩
  · rw [lineRecords, hnil] at h
    cases h
  · rw [concat_eq_append] at hl
    have hr : lineRecords bytes = init.map rowRecord ++ [rowRecord last] := by
      rw [lineRecords, hl, map_append]
      rfl
    rw [hr] at h
    simp only [getLast?_append, getLast?_singleton, Option.some_or, Option.elim_some,
      decide_eq_false_iff_not, not_not] at h
    have ho : last.ended = false := by
      by_contra hen
      rw [Bool.not_eq_false] at hen
      rw [rowRecord, hen, if_pos rfl, terminatedRecord] at h
      split_ifs at h
    refine ⟨init.map rowRecord, last.content, ?_, ?_⟩
    · rw [hr, rowRecord, ho]
      rfl
    · exact (content_of_mem_rows (l := bytes) (by rw [hl]; simp)).2 ho

/-! ## Documents that survive -/

def terminatedLines (trailing : Bool) (document : List String) : List String :=
  if trailing then document else document.dropLast

/-- A document that is written with a policy and scanned again has the same lines and the same
policy. -/
structure Reencodes (policy : TerminatorKind × Bool) (document : List String) : Prop where
  lastLine : policy.2 = false → ∃ line, document.getLast? = some line ∧ asBytes line ≠ []
  carriageReturn : policy.1 = .lf → ∀ line ∈ terminatedLines policy.2 document,
    (asBytes line).getLast? ≠ some byteCr
  terminated : policy.1 = .crLf → terminatedLines policy.2 document ≠ []

theorem writtenRecord_eq {kind : TerminatorKind} (hk : kind ≠ .none)
    (hcr : kind = .lf → content.getLast? ≠ some byteCr) :
    writtenRecord kind content = ⟨content, kind⟩ := by
  cases kind with
  | crLf => rfl
  | lf => rw [writtenRecord, terminatedRecord, if_neg (hcr rfl)]
  | none => exact absurd rfl hk

section Reencodes

variable {policy : TerminatorKind × Bool} {document : List String}

section

variable (h : Reencodes policy document)
include h

theorem Reencodes.records (hki : policy.1 ≠ .none)
    (hlf : ∀ line ∈ document, byteLf ∉ asBytes line) :
    ∃ rest, lineRecords (joinLines document policy.1 policy.2) =
      (terminatedLines policy.2 document).map (fun line => ⟨asBytes line, policy.1⟩) ++ rest ∧
      (policy.2 = true → rest = []) ∧
      (policy.2 = false → ∃ line, document = document.dropLast ++ [line] ∧
        rest = [⟨asBytes line, .none⟩]) := by
  have hw : ∀ line ∈ terminatedLines policy.2 document,
      closedRow policy.1 line = [⟨asBytes line, policy.1⟩] := by
    intro line hl
    have hmem : line ∈ document := by
      rw [terminatedLines] at hl
      split_ifs at hl
      · exact hl
      · exact mem_of_mem_dropLast hl
    rw [closedRow_eq (hlf line hmem), writtenRecord_eq hki fun hk => h.carriageReturn hk line hl]
  have hc : (terminatedLines policy.2 document).flatMap (closedRow policy.1) =
      (terminatedLines policy.2 document).map fun line => ⟨asBytes line, policy.1⟩ := by
    rw [map_eq_flatMap]
    exact flatMap_congr hw
  cases ht : policy.2 with
  | true =>
    refine ⟨[], ?_, fun _ => rfl, by simp⟩
    rw [ht] at hc
    rw [lineRecords_joinLines_closed, append_nil, ← hc]
    rfl
  | false =>
    obtain ⟨line, hl, hne⟩ := h.lastLine ht
    have hs : document = document.dropLast ++ [line] :=
      (dropLast_append_getLast? line hl).symm
    refine ⟨[⟨asBytes line, .none⟩], ?_, by simp, fun _ => ⟨line, hs, rfl⟩⟩
    rw [ht] at hc
    rw [← hc]
    conv_lhs => rw [hs]
    rw [lineRecords_joinLines_open, lineRecords_line (hlf line (mem_of_getLast? hl)) hne]
    rfl

theorem Reencodes.contents (hk : policy.1 ≠ .none)
    (hlf : ∀ line ∈ document, byteLf ∉ asBytes line) :
    (lineRecords (joinLines document policy.1 policy.2)).map RawLineRecord.content =
      document.map asBytes := by
  obtain ⟨rest, hr, ht, hf⟩ := h.records hk hlf
  rw [hr, map_append, map_map]
  cases htr : policy.2 with
  | true =>
    rw [ht htr, map_nil, append_nil]
    rfl
  | false =>
    obtain ⟨line, hs, hre⟩ := hf htr
    rw [hre]
    conv_rhs => rw [hs, map_append]
    rfl

theorem Reencodes.policy_eq (hki : policy.1 ≠ .none)
    (hlf : ∀ line ∈ document, byteLf ∉ asBytes line) :
    terminatorPolicy (.ofList (lineRecords (joinLines document policy.1 policy.2))) = policy := by
  obtain ⟨rest, hr, ht, hf⟩ := h.records hki hlf
  have hn (kind : TerminatorKind) (hk : kind ≠ .none) :
      rest.countP (fun record => record.terminator = kind) = 0 := by
    rw [countP_eq_zero]
    intro record hre
    cases htr : policy.2 with
    | true => rw [ht htr] at hre; cases hre
    | false =>
      obtain ⟨line, -, hres⟩ := hf htr
      rw [hres, mem_singleton] at hre
      rw [hre]
      simpa using hk.symm
  rw [terminatorPolicy_ofList, hr, countP_append, countP_append, hn _ (by decide), hn _ (by decide)]
  refine Prod.ext ?_ ?_
  · cases hk : policy.1 with
    | crLf => simpa [Function.comp_def] using h.terminated hk
    | lf => simp [Function.comp_def]
    | none => exact absurd hk hki
  · cases htr : policy.2 with
    | true =>
      rw [ht htr, append_nil, getLast?_map]
      cases (terminatedLines true document).getLast? with
      | none => rfl
      | some line => simpa using hki
    | false =>
      obtain ⟨line, -, hres⟩ := hf htr
      rw [hres, getLast?_concat]
      rfl

end

end Reencodes

variable {document : List String}

/-- At most one line is lost in writing. -/
theorem length_le_lineRecords (hlf : ∀ line ∈ document, byteLf ∉ asBytes line)
    (kind : TerminatorKind) (trailing : Bool) :
    document.length ≤ (lineRecords (joinLines document kind trailing)).length + 1 := by
  cases trailing with
  | true =>
    rw [lineRecords_joinLines_closed, flatMap_closedRow hlf, length_map]
    exact Nat.le_succ _
  | false =>
    rcases eq_nil_or_concat document with rfl | ⟨init, last, rfl⟩
    · exact Nat.zero_le _
    · rw [concat_eq_append] at hlf ⊢
      rw [lineRecords_joinLines_open,
        flatMap_closedRow fun line hl => hlf line (mem_append_left _ hl)]
      simp

/-! ## UTF-8 -/

theorem fromUtf8_asBytes (line : String) : fromUtf8 (asBytes line) = some line := by
  unfold fromUtf8 asBytes String.fromUTF8?
  rw [dif_pos line.isValidUTF8]
  rfl

theorem asBytes_ofList_concat (init : List Char) (c : Char) :
    asBytes (.ofList (init ++ [c])) = asBytes (.ofList init) ++ String.utf8EncodeChar c := by
  simp [asBytes, utf8Encode]

/-- The last byte of a character is a carriage return only for that character. -/
theorem utf8EncodeChar_cr {c : Char} (h : (String.utf8EncodeChar c).getLast? = some byteCr) :
    String.utf8EncodeChar c = [byteCr] := by
  have hl (v : ℕ) : UInt8.ofNat (v % 64 + 128) ≠ byteCr := by
    intro heq
    have := congrArg UInt8.toNat heq
    rw [UInt8.toNat_ofNat'] at this
    have hcr : byteCr.toNat = 13 := rfl
    omega
  unfold String.utf8EncodeChar at h ⊢
  simp only at h ⊢
  split_ifs at h ⊢
  · simpa using h
  · exact absurd (Option.some.inj h) (hl _)
  · exact absurd (Option.some.inj h) (hl _)
  · exact absurd (Option.some.inj h) (hl _)

theorem exists_dropLast_cr (h : (asBytes line).getLast? = some byteCr) :
    ∃ init, asBytes init = (asBytes line).dropLast := by
  obtain ⟨chars, rfl⟩ : ∃ chars, String.ofList chars = line := ⟨line.toList, String.ofList_toList⟩
  rcases eq_nil_or_concat chars with rfl | ⟨init, c, rfl⟩
  · cases h
  · rw [concat_eq_append, asBytes_ofList_concat] at h ⊢
    have hne : String.utf8EncodeChar c ≠ [] := by
      unfold String.utf8EncodeChar
      simp only
      split_ifs <;> simp
    rw [getLast?_append_of_ne_nil _ hne] at h
    rw [utf8EncodeChar_cr h, dropLast_concat]
    exact ⟨_, rfl⟩

theorem baselineLines_of_contents
    (h : (lineRecords bytes).map RawLineRecord.content = document.map asBytes) :
    baselineLines (.fromBytes bytes) = .ok document := by
  have hl := congrArg length h
  rw [length_map, length_map] at hl
  rw [baselineLines, mapM_eq_ok_iff]
  refine forall₂_iff_get.2 ⟨?_, fun i hi hi' => ?_⟩
  · rw [length_range', Baseline.totalLines_eq]
    exact hl
  · have hget : ((lineRecords bytes).map RawLineRecord.content)[i]? =
        (document.map asBytes)[i]? := by rw [h]
    rw [getElem?_map, getElem?_map, getElem?_eq_getElem hi', getElem?_eq_getElem (hl ▸ hi')] at hget
    simp only [get_eq_getElem, getElem_range', Baseline.rawRecord_eq, Nat.one_mul]
    rw [if_pos (by omega), Nat.add_sub_cancel_left]
    dsimp only [Baseline.fromBytes]
    rw [getElem?_eq_getElem (hl ▸ hi')]
    simp only [lineContentUtf8, Option.some.inj hget, fromUtf8_asBytes]

/-- Every row of written lines is UTF-8. -/
theorem exists_baselineLines (hlf : ∀ line ∈ document, byteLf ∉ asBytes line)
    (kind : TerminatorKind) (trailing : Bool) :
    ∃ lines, baselineLines (.fromBytes (joinLines document kind trailing)) = .ok lines := by
  suffices h : ∀ record ∈ lineRecords (joinLines document kind trailing),
      ∃ line, record.content = asBytes line by
    choose! line hl using h
    refine ⟨(lineRecords (joinLines document kind trailing)).map line, baselineLines_of_contents ?_⟩
    rw [map_map]
    exact map_congr_left fun record hr => hl record hr
  have hc {lines : List String} (hlf : ∀ line ∈ lines, byteLf ∉ asBytes line) :
      ∀ record ∈ lines.flatMap (closedRow kind), ∃ line, record.content = asBytes line := by
    intro record hr
    rw [flatMap_closedRow hlf] at hr
    obtain ⟨line, -, rfl⟩ := mem_map.1 hr
    have ht : ∃ line', (terminatedRecord (asBytes line)).content =
        asBytes line' := by
      rw [terminatedRecord]
      split_ifs with hcr
      · obtain ⟨init, hin⟩ := exists_dropLast_cr hcr
        exact ⟨init, hin.symm⟩
      · exact ⟨line, rfl⟩
    cases kind with
    | crLf => exact ⟨line, rfl⟩
    | lf | none => exact ht
  cases trailing with
  | true =>
    rw [lineRecords_joinLines_closed]
    exact hc hlf
  | false =>
    rcases eq_nil_or_concat document with rfl | ⟨init, last, rfl⟩
    · exact fun record hr => absurd hr not_mem_nil
    · rw [concat_eq_append] at hlf ⊢
      rw [lineRecords_joinLines_open]
      intro record hr
      rcases mem_append.1 hr with hr | hr
      · exact hc (fun line hl => hlf line (mem_append_left _ hl)) record hr
      · by_cases hne : asBytes last = []
        · rw [hne] at hr
          cases hr
        · rw [lineRecords_line (hlf last (by simp)) hne, mem_singleton] at hr
          exact ⟨last, by rw [hr]⟩

end Aft.Hashline
