import Aft.Hashline.TransactionPlan

/-!
# Pure moves

A move is planned like the other sections: its line operations, of which there are none, lead from
the decoded lines of the baseline to lines that are joined under the terminator policy. Rows with
the minority terminator do not survive (`joinLines_baseline_iff`).
-/

namespace Aft.Hashline

open List RawLineRecord TerminatorKind

/-! ## Joining the lines of a baseline again -/

/-- A record written with another terminator. -/
def RawLineRecord.rewritten (kind : TerminatorKind) (record : RawLineRecord) : Bytes :=
  record.content ++ if record.terminator = .none then [] else kind.bytes

variable {kind : TerminatorKind} {records : List RawLineRecord} {lines : List String}

theorem joinLines_records (hk : kind ≠ .none) (hl : lines.map asBytes = records.map content)
    (hc : records.IsChain fun record _ => record.terminator ≠ .none) :
    joinLines lines kind (records.getLast?.elim true fun record =>
      decide (record.terminator ≠ .none)) = records.flatMap (rewritten kind) := by
  have hw : writtenTerminator kind = kind := if_neg hk
  induction records generalizing lines with
  | nil =>
    obtain rfl := map_eq_nil_iff.1 hl
    rfl
  | cons record rest ih =>
    obtain ⟨line, lines, rfl, hli, hr⟩ := map_eq_cons_iff.1 hl
    cases rest with
    | nil =>
      obtain rfl := map_eq_nil_iff.1 hr
      by_cases ho : record.terminator = .none <;>
        simp [joinLines, rewritten, hli, hw]
    | cons next rest =>
      obtain ⟨hen, hc⟩ := isChain_cons_cons.1 hc
      obtain ⟨line', lines, rfl, -, -⟩ := map_eq_cons_iff.1 hr
      rw [joinLines, flatMap_cons, ← ih hr hc, getLast?_cons_cons, hw, hli, rewritten, if_neg hen]
      simp

theorem lineRecords_isChain (bytes : Bytes) :
    (lineRecords bytes).IsChain fun record _ => record.terminator ≠ .none := by
  refine isChain_map_of_isChain rowRecord (fun row _ hen => ?_) (rows_isChain bytes)
  rw [rowRecord, hen, if_pos rfl, ForwardScanner.terminatedRecord]
  split_ifs <;> simp

/-- Lines that end in LF and lines that end in CRLF. -/
def MixesTerminators (bytes : Bytes) : Prop :=
  (∃ record ∈ lineRecords bytes, record.terminator = .lf) ∧
    ∃ record ∈ lineRecords bytes, record.terminator = .crLf

instance (bytes : Bytes) : Decidable (MixesTerminators bytes) :=
  inferInstanceAs (Decidable ((∃ record ∈ lineRecords bytes, record.terminator = .lf) ∧
    ∃ record ∈ lineRecords bytes, record.terminator = .crLf))

theorem flatMap_rewritten_iff (hk : kind ≠ .none) :
    records.flatMap (rewritten kind) = records.flatMap toBytes ↔
      ∀ record ∈ records, record.terminator ≠ .none → record.terminator = kind := by
  constructor
  · intro heq record hr hen
    by_contra ho
    have hl := congrArg length heq
    rw [length_flatMap, length_flatMap] at hl
    cases kind with
    | none => exact hk rfl
    | lf =>
      refine (sum_lt_sum _ _ (fun other _ => ?_) ⟨record, hr, ?_⟩).ne hl
      · cases h : other.terminator <;>
          simp [rewritten, toBytes, h, bytes]
      · cases h : record.terminator <;> rw [h] at hen ho <;>
          simp_all [rewritten, toBytes, bytes]
    | crLf =>
      refine (sum_lt_sum _ _ (fun other _ => ?_) ⟨record, hr, ?_⟩).ne' hl
      · cases h : other.terminator <;>
          simp [rewritten, toBytes, h, bytes]
      · cases h : record.terminator <;> rw [h] at hen ho <;>
          simp_all [rewritten, toBytes, bytes]
  · intro hs
    refine flatMap_congr fun record hr => ?_
    by_cases hop : record.terminator = .none
    · simp [rewritten, toBytes, hop, bytes]
    · rw [rewritten, if_neg hop, ← hs record hr hop]
      rfl

/-- The majority terminator is that of all terminated lines exactly when they do not mix. -/
theorem terminatorPolicy_uniform_iff (bytes : Bytes) :
    (∀ record ∈ lineRecords bytes, record.terminator ≠ .none → record.terminator =
        (terminatorPolicy (SortedMap.ofList (lineRecords bytes))).1) ↔ ¬ MixesTerminators bytes := by
  rw [terminatorPolicy_ofList]
  constructor
  · rintro hs ⟨⟨lf, hlf, hk⟩, crLf, hc, hk'⟩
    have h := hs lf hlf (by rw [hk]; decide)
    have h' := hs crLf hc (by rw [hk']; decide)
    rw [hk] at h
    rw [hk', ← h] at h'
    cases h'
  · intro hm record hr hen
    cases hk : record.terminator with
    | none => exact absurd hk hen
    | lf =>
      have hn : (lineRecords bytes).countP (fun record => record.terminator = .crLf) = 0 :=
        countP_eq_zero.2 fun other ho hc =>
          hm ⟨⟨record, hr, hk⟩, other, ho, by simpa using hc⟩
      simp [hn]
    | crLf =>
      have hn : (lineRecords bytes).countP (fun record => record.terminator = .lf) = 0 :=
        countP_eq_zero.2 fun other ho hlf =>
          hm ⟨⟨other, ho, by simpa using hlf⟩, record, hr, hk⟩
      have hso : 0 < (lineRecords bytes).countP (fun record => record.terminator = .crLf) :=
        countP_pos_iff.2 ⟨record, hr, by simpa using hk⟩
      simp [hn, hso]

variable {baseline : Baseline}

/-- The lines of a baseline are joined to its bytes exactly when it does not mix terminators. -/
theorem joinLines_baseline_iff (hl : baselineLines baseline = .ok lines) :
    joinLines lines (terminatorPolicy baseline.snapshot.records).1
        (terminatorPolicy baseline.snapshot.records).2 = baseline.bytes ↔
      ¬ MixesTerminators baseline.bytes := by
  have hk : (terminatorPolicy (SortedMap.ofList (lineRecords baseline.bytes))).1 ≠ .none := by
    rw [terminatorPolicy_ofList]
    dsimp only
    split_ifs <;> decide
  have hj := joinLines_records hk (baselineLines_eq_ok hl) (lineRecords_isChain baseline.bytes)
  have ht : (terminatorPolicy (SortedMap.ofList (lineRecords baseline.bytes))).2 =
      (lineRecords baseline.bytes).getLast?.elim true fun record =>
        decide (record.terminator ≠ .none) := by
    rw [terminatorPolicy_ofList]
  rw [baseline.records_eq, ht, hj, ← terminatorPolicy_uniform_iff,
    ← flatMap_rewritten_iff hk, flatMap_toBytes_lineRecords]

/-! ## Moves of a plan -/

def TransactionSectionInput.EndsInMv (input : TransactionSectionInput) : Prop :=
  ∃ destination line, input.operations.getLast? = some (.mv destination line)

def pathOperations (sections : List TransactionSectionInput) (path : PathBuf) : List Operation :=
  (sections.filter fun input => input.canonicalPath = path).flatMap fun input => input.operations

def pathCount (sections : List TransactionSectionInput) (path : PathBuf) : ℕ :=
  sections.countP fun input => input.canonicalPath = path

/-- Every row of the file was seen, and its rows are those of the baseline. -/
def SeenWhole (snapshot : Snapshot) (baseline : Baseline) : Prop :=
  snapshot.totalLines = baseline.snapshot.totalLines ∧
    snapshot.records = baseline.snapshot.records ∧
    ∀ line, 0 < line → line ≤ snapshot.totalLines → snapshot.isSeen line

theorem verifyExact_wholeFile_iff {snapshot : Snapshot} :
    verifyExact snapshot baseline .wholeFile = .exact ↔ SeenWhole snapshot baseline := by
  rw [verifyExact_wholeFile, checkEligibility_wholeFile]
  constructor
  · rintro ⟨⟨-, hs⟩, ht, hr⟩
    exact ⟨ht, hr, hs⟩
  · rintro ⟨ht, hr, hs⟩
    refine ⟨⟨?_, hs⟩, ht, hr⟩
    rw [hr, ht, baseline.records_eq, baseline.totalLines_eq, SortedMap.size_ofList]

variable {operations lineOps : List Operation} {resolved lineResolved : List ResolvedOperation}
  {mvLine : Option ℕ}

section

variable (h : splitMv operations resolved = .ok (lineOps, lineResolved, mvLine))
include h

theorem mem_of_splitMv :
    ∀ operation ∈ lineOps, operation ∈ operations ∧ operation.isMv = false := by
  have hk {kept : List Operation} (hany : ¬ kept.any Operation.isMv = true)
      (hs : kept ⊆ operations) :
      ∀ operation ∈ kept, operation ∈ operations ∧ operation.isMv = false := by
    rw [any_eq_true, not_exists] at hany
    exact fun operation hmem => ⟨hs hmem, by simpa [hmem] using hany operation⟩
  unfold splitMv at h
  by_cases hl : operations.length ≠ resolved.length
  · rw [if_pos hl] at h
    cases h
  rw [if_neg hl] at h
  split at h
  · split_ifs at h with hany
    cases h
    exact hk hany (dropLast_subset _)
  · split_ifs at h with hany
    cases h
    exact hk hany (List.Subset.refl _)

theorem isSome_of_splitMv {destination : String} {line : ℕ}
    (hl : operations.getLast? = some (.mv destination line)) : mvLine.isSome = true := by
  unfold splitMv at h
  rw [hl] at h
  dsimp only at h
  split_ifs at h
  obtain ⟨-, heq⟩ := Prod.mk.inj (Except.ok.inj h)
  cases heq
  rfl

end

section Moves

variable {sections : List TransactionSectionInput} {split : SectionSplit} {applied : ApplyPlan}
  {session : RegisterStore} {path : PathBuf}

theorem SectionSplit.Holds.sectionCount_eq (h : split.Holds sections) (path : PathBuf) :
    sectionCount split.lineSections path = pathCount sections path := by
  have hl := h.lines
  unfold sectionCount pathCount
  generalize split.lineSections = lines at hl
  clear h
  induction hl with
  | nil => rfl
  | cons hp _ ih => rw [countP_cons, countP_cons, ih, hp.path_eq]

variable {operation : Operation} {line : SectionPlanInput}

theorem SectionSplit.Holds.lineOps_eq_nil (h : split.Holds sections)
    (ho : pathOperations sections path = [operation]) (hmv : operation.isMv = true)
    (hl : line ∈ split.lineSections) (hp : line.canonicalPath = path) : line.operations = [] := by
  obtain ⟨input, hin, hpa⟩ := h.lines.exists_of_mem_right hl
  have hp' := hpa.path_eq.symm.trans hp
  obtain ⟨_, hs, -, -⟩ := hpa
  refine eq_nil_iff_forall_not_mem.2 fun other hot => ?_
  obtain ⟨hmem, hnot⟩ := mem_of_splitMv hs other hot
  have hall : other ∈ pathOperations sections path :=
    mem_flatMap.2 ⟨input, mem_filter.2 ⟨hin, by simpa using hp'⟩, hmem⟩
  rw [ho, mem_singleton] at hall
  rw [hall, hmv] at hnot
  cases hnot

variable {file : PlannedFile}

theorem finalBytes_of_no_operations {registers registers' : StagedRegisters}
    (hnil : line.operations = [])
    (h : applySectionOps line.requestedPath line.canonicalPath line.baseline line.operations
      line.resolved registers = .ok (file, registers')) :
    file.finalBytes = line.baseline.bytes ↔ ¬ MixesTerminators line.baseline.bytes := by
  obtain ⟨-, ⟨⟨_, hrem⟩, -, -⟩ | ⟨-, -, lines, edits, hl, hed, rfl⟩⟩ := applySectionOps_eq_ok h
  · cases hnil.symm.trans hrem
  · rw [hnil] at hed
    cases hed
    rw [← joinLines_baseline_iff hl]
    simp only [linePlanned, planLines_nil]

variable {input : TransactionSectionInput}

theorem finalBytes_of_pureMove (hp : TransactionPlanned sections split applied)
    (hap : planApply split.lineSections session = .ok applied) (hin : input ∈ sections)
    (ho : pathOperations sections input.canonicalPath = [operation])
    (hmv : operation.isMv = true) (hf : file ∈ applied.files)
    (hpa : file.canonicalPath = input.canonicalPath) :
    file.finalBytes = input.baseline.bytes ↔
      (pathCount sections input.canonicalPath = 1 → ¬ MixesTerminators input.baseline.bytes) := by
  obtain ⟨hv, -, hfi⟩ :=
    planApply_eq_ok (Q := fun _ _ _ _ => True) hap (.always fun _ _ _ _ => trivial)
  obtain ⟨-, -, hs⟩ := verifySections_eq_ok hv
  obtain ⟨own, hown, hpar⟩ := hp.holds.lines.exists_of_mem_left hin
  obtain ⟨_, slot, -, hsl, hfin⟩ := hfi file hf
  obtain rfl := (slot_file hsl hfin).1
  have hb {line : SectionPlanInput} (hl : line ∈ split.lineSections)
      (hl' : line.canonicalPath = file.canonicalPath) :
      line.baseline.bytes = input.baseline.bytes := by
    rw [← hpar.baseline_eq]
    exact hs line hl own hown (hl'.trans (hpa.trans hpar.path_eq.symm))
  rw [← hpa, ← hp.holds.sectionCount_eq]
  cases hsl with
  | complete hc hmem hl hpl =>
    cases hfin
    have hnil := hp.holds.lineOps_eq_nil ho hmv hmem (hl.trans hpa)
    rw [← hb hmem hl, finalBytes_of_no_operations hnil hpl]
    simp [hc]
  | @composing state line hc hmem hl hrun =>
    have hst : state = .new line := by
      refine Relation.ReflTransGen.cases_tail_iff _ _ _ |>.1 hrun |>.resolve_right ?_
      rintro ⟨_, -, operation, resolved, _, _, ⟨other, hot, hoth, hzip⟩, -⟩
      have hnil := hp.holds.lineOps_eq_nil ho hmv hot (hoth.trans hpa)
      rw [hnil] at hzip
      simp at hzip
    obtain ⟨-, -, hfina, -⟩ := CompositionState.finish_eq_ok hfin
    rw [hfina, hst]
    exact iff_of_true (hb hmem hl) fun hone => absurd hone hc

theorem find?_of_endsInMv (hp : TransactionPlanned sections split applied)
    (hin : input ∈ sections) (hen : input.EndsInMv) :
    ∃ move, split.moves.find? input.canonicalPath = some move := by
  obtain ⟨line, -, _, hs, hso, -⟩ := hp.holds.lines.exists_of_mem_left hin
  obtain ⟨destination, mvLine, hl⟩ := hen
  rw [isSome_of_splitMv hs hl, eq_comm, Option.isSome_iff_exists] at hso
  obtain ⟨target, ht⟩ := hso
  have hm : (input.canonicalPath, target) ∈ sections.filterMap TransactionSectionInput.move :=
    mem_filterMap.2 ⟨input, hin, by rw [TransactionSectionInput.move, ht]; rfl⟩
  rw [← hp.holds.moves.mem_iff] at hm
  obtain ⟨⟨source, move⟩, hent, heq⟩ := mem_map.1 hm
  cases heq
  exact ⟨move, SortedMap.find?_eq_some_iff.2 hent⟩

end Moves

/-- A planned move was verified like a removal, and a pure move copies exactly, if and only if the
whole file was seen as it is and a pure move does not mix terminators. -/
theorem planTransaction_moves_iff {sections : List TransactionSectionInput}
    {session : RegisterStore} {enabled : Bool} {plan : TransactionPlan}
    (h : planTransaction sections session enabled = .ok plan) {input : TransactionSectionInput}
    (hinput : input ∈ sections) (hends : input.EndsInMv) :
    (verifyExact input.snapshot input.baseline .wholeFile = .exact ∧
        ((pathOperations sections input.canonicalPath).length = 1 →
          ∃ move, .mv move ∈ plan.steps ∧ move.sourceCanonical = input.canonicalPath ∧
            move.finalBytes = input.baseline.bytes)) ↔
      SeenWhole input.snapshot input.baseline ∧
        ((pathOperations sections input.canonicalPath).length = 1 →
          pathCount sections input.canonicalPath = 1 → ¬ MixesTerminators input.baseline.bytes) := by
  obtain ⟨split, applied, hplanned, happlied, hsteps⟩ := planTransaction_eq_ok h
  rw [verifyExact_wholeFile_iff, and_congr_right_iff]
  refine fun _ => forall_congr' fun hlength => ?_
  obtain ⟨operation, honly⟩ := length_eq_one_iff.1 hlength
  have hmv : operation.isMv = true := by
    obtain ⟨destination, line, hlast⟩ := hends
    have hmem : .mv destination line ∈ pathOperations sections input.canonicalPath :=
      mem_flatMap.2 ⟨input, mem_filter.2 ⟨hinput, by simp⟩, mem_of_getLast? hlast⟩
    rw [honly, mem_singleton] at hmem
    rw [← hmem]
    rfl
  obtain ⟨file, hfile, hpath⟩ := hplanned.covered input hinput
  rw [← finalBytes_of_pureMove hplanned happlied hinput honly hmv hfile hpath, hsteps]
  constructor
  · rintro ⟨move, hmove, hsource, hfinal⟩
    obtain ⟨other, hother, hstep⟩ := mem_map.1 hmove
    have hmoved : move.sourceCanonical = other.canonicalPath ∧ move.finalBytes = other.finalBytes := by
      unfold plannedStep at hstep
      split at hstep
      · obtain rfl := PlannedStep.mv.inj hstep
        exact ⟨rfl, rfl⟩
      · cases hstep
    obtain rfl := inj_on_of_nodup_map hplanned.nodup hfile hother
      (hpath.trans (hsource.symm.trans hmoved.1))
    exact hmoved.2.symm.trans hfinal
  · intro hfinal
    obtain ⟨move, hmove⟩ := find?_of_endsInMv hplanned hinput hends
    have hstep : ∃ planned, plannedStep split.moves file = .mv planned ∧
        planned.sourceCanonical = file.canonicalPath ∧ planned.finalBytes = file.finalBytes := by
      rw [plannedStep, hpath, hmove]
      exact ⟨_, rfl, rfl, rfl⟩
    obtain ⟨planned, hplannedStep, hsource, hbytes⟩ := hstep
    exact ⟨planned, mem_map.2 ⟨file, hfile, hplannedStep⟩, hsource.trans hpath,
      hbytes.trans hfinal⟩

/-- A file with a CRLF and an LF row, read whole, and a file that has changed since it was read. -/
def unfaithfulMoves : List TransactionSectionInput :=
  [moveSection ["a"] ["c"] [97, 13, 10, 98, 10],
    { moveSection ["b"] ["d"] [98, 10] with snapshot := scanBytes [120, 10] }]

/-- Both are planned. The first loses its CR, and the second is not what was read. -/
theorem planTransaction_moves_unfaithfully :
    (planTransaction unfaithfulMoves .new true).toOption.map (fun plan =>
      plan.steps.map fun
        | .mv move => (move.sourceCanonical, move.sourceBaselineBytes, move.finalBytes)
        | .mutate file => (file.canonicalPath, file.baselineBytes, file.finalBytes)) =
      some [(["a"], [97, 13, 10, 98, 10], [97, 10, 98, 10]), (["b"], [98, 10], [98, 10])] ∧
    unfaithfulMoves.map (fun input =>
      decide (verifyExact input.snapshot input.baseline .wholeFile = .exact)) = [true, false] := by
  decide

/-- A file with two CRLF rows. -/
def crlfMove : TransactionSectionInput := moveSection ["a"] ["c"] [97, 13, 10, 98, 13, 10]

theorem planTransaction_moves_crlf :
    ∃ plan, planTransaction [crlfMove] .new true = .ok plan ∧
      verifyExact crlfMove.snapshot crlfMove.baseline .wholeFile = .exact ∧
      ∃ move, .mv move ∈ plan.steps ∧ move.sourceCanonical = ["a"] ∧
        move.finalBytes = [97, 13, 10, 98, 13, 10] := by
  obtain ⟨plan, hplan⟩ : ∃ plan, planTransaction [crlfMove] .new true = .ok plan := ⟨_, rfl⟩
  have hseen : SeenWhole crlfMove.snapshot crlfMove.baseline :=
    verifyExact_wholeFile_iff.1 (by decide)
  obtain ⟨hexact, hcopied⟩ := (planTransaction_moves_iff hplan (mem_singleton_self crlfMove)
    ⟨"", 1, rfl⟩).2 ⟨hseen, fun _ _ => by decide⟩
  exact ⟨plan, hplan, hexact, hcopied (by decide)⟩

end Aft.Hashline
