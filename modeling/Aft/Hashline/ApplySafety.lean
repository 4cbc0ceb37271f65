import Aft.Hashline.CompositionOrigins
import Aft.Hashline.PlanRuns

/-!
# Line operations and the rows of the baseline

An accepted patch only takes rows that the tagged read has seen and that have not changed since
(`planApply_keeps_rows`); the other rows keep their order. For a path with several sections every
operation has to meet `CompositionState.StepOk`.
-/

namespace Aft.Hashline

open List Except CompositionState Operation

/-! ## Rows that are not deleted -/

variable {α : Type*}

theorem filter_sublist_flatMap_zipIdx {l : List α} {f : α × ℕ → List α} {p : ℕ → Bool} {k : ℕ}
    (h : ∀ x i, p i → [x].Sublist (f (x, i))) :
    (((l.zipIdx k).filter fun row => p row.2).map Prod.fst).Sublist ((l.zipIdx k).flatMap f) := by
  induction l generalizing k with
  | nil => simp
  | cons x l ih =>
    rw [zipIdx_cons, filter_cons]
    split_ifs with hp
    · exact (h x k hp).append ih
    · exact ih.trans (sublist_append_right _ _)

theorem map_filter_zipIdx {β : Type*} (f : α → β) (l : List α) (p : ℕ → Bool) (k : ℕ) :
    ((l.zipIdx k).filter fun row => p row.2).map (fun row => f row.1) =
      (((l.map f).zipIdx k).filter fun row => p row.2).map Prod.fst := by
  rw [zipIdx_map, filter_map, map_map]
  rfl

variable {lines : List String} {edits : List LineEdit}

/-- Rows that are not deleted are kept in order. -/
theorem sublist_materializeEdits (hz : deletesRow edits 0 = false) :
    (((lines.zipIdx 1).filter fun row => !deletesRow edits row.2).map Prod.fst).Sublist
      (materializeEdits lines edits) := by
  have hb := filter_sublist_flatMap_zipIdx (l := lines) (k := 1)
    (p := fun row => !deletesRow edits row)
    (f := fun row => appendLineBucket (some row.1) (lineBucket edits row.2)) fun line row hk => by
      rw [Bool.not_eq_true'] at hk
      rw [appendLineBucket_eq, hk]
      exact ((sublist_append_right _ _).trans (sublist_append_left _ _))
  have hout (extended : List String) : extended.Sublist
      (if (lineBucket edits 0).isEmpty then extended
        else appendLineBucket extended.head? (lineBucket edits 0) ++ extended.tail) := by
    split_ifs
    · exact List.Sublist.refl _
    · have hs : extended = extended.head?.toList ++ extended.tail := by
        cases extended <;> rfl
      conv_lhs => rw [hs]
      refine List.Sublist.append ?_ (List.Sublist.refl _)
      rw [appendLineBucket_eq, hz]
      exact ((sublist_append_right _ _).trans (sublist_append_left _ _))
  refine List.Sublist.trans ?_ (sublist_append_left _ _)
  refine List.Sublist.trans ?_ (sublist_append_right _ _)
  exact (hb.trans (sublist_append_left _ _)).trans (hout _)

variable {address : ResolvedAddress} {line : ℕ}

theorem deletedLine_lowerPutBody {body : List String} {opIndex : ℕ}
    (h : line ∈ (lowerPutBody address body opIndex).filterMap LineEdit.deletedLine) :
    0 < line ∧ address.Takes line := by
  cases address with
  | span span =>
    rw [lowerPutBody, filterMap_append, deletedLine_inserts, deletedLine_deletes] at h
    exact ⟨LineSpan.pos_of_mem_lines h, h⟩
  | gap | wholeFile =>
    rw [lowerPutBody, deletedLine_inserts] at h
    cases h
  | blockAnchor | blockGapAnchor => cases h

variable {operation : Operation} {resolved : ResolvedOperation}
  {registers registers' : StagedRegisters}

theorem deletedLine_lowerOperation
    (h : lowerOperation lines operation resolved registers = .ok (edits, registers'))
    (hl : line ∈ edits.filterMap LineEdit.deletedLine) :
    0 < line ∧ resolved.address.Takes line := by
  obtain ⟨opIndex, address⟩ := resolved
  cases operation with
  | put location source patchLine =>
    obtain ⟨lowered, hput, h⟩ := bind_eq_ok_iff.1 h
    obtain ⟨body, -, hput⟩ := bind_eq_ok_iff.1 hput
    cases hput
    cases h
    exact deletedLine_lowerPutBody hl
  | cut location register patchLine =>
    cases address with
    | span span =>
      obtain ⟨rfl, -⟩ := lowerCutSpan_eq_ok h
      exact deletedLine_lowerPutBody hl
    | wholeFile =>
      simp only [lowerOperation, lowerCut] at h
      split_ifs at h with hpos
      · obtain ⟨rfl, -⟩ := lowerCutSpan_eq_ok h
        exact ⟨(deletedLine_lowerPutBody hl).1, trivial⟩
      · cases h
        cases hl
    | gap | blockAnchor | blockGapAnchor => cases h
  | rem | mv => cases h

theorem deletedLine_lowerOperations {operations : List (Operation × ResolvedOperation)}
    (h : lowerOperations lines operations registers = .ok (edits, registers'))
    (hl : line ∈ edits.filterMap LineEdit.deletedLine) :
    0 < line ∧ ∃ pair ∈ operations, pair.2.address.Takes line := by
  induction operations generalizing registers edits with
  | nil =>
    cases h
    cases hl
  | cons pair rest ih =>
    obtain ⟨⟨lowered, next⟩, hlo, hr⟩ := bind_eq_ok_iff.1 h
    obtain ⟨⟨more, final⟩, hm, h⟩ := bind_eq_ok_iff.1 hr
    cases h
    rw [filterMap_append, mem_append] at hl
    rcases hl with hl | hl
    · obtain ⟨hpos, ht⟩ := deletedLine_lowerOperation hlo hl
      exact ⟨hpos, pair, mem_cons_self, ht⟩
    · obtain ⟨hpos, pair, hp, ht⟩ := ih hm hl
      exact ⟨hpos, pair, mem_cons_of_mem _ hp, ht⟩

/-! ## Rows that no operation takes -/

/-- Whether an operation on a path takes a row. -/
def touchedRow (sections : List SectionPlanInput) (path : PathBuf) (line : ℕ) : Bool :=
  sections.any fun input => decide (input.canonicalPath = path) &&
    (input.operations.zip input.resolved).any fun (_, resolved) => decide (resolved.address.Takes line)

/-- The contents of the rows that no operation on a path takes, in order. -/
def untouchedContents (sections : List SectionPlanInput) (path : PathBuf) (baseline : Baseline) :
    List Bytes :=
  (baseline.snapshot.records.entries.filter fun (line, _) => !touchedRow sections path line).map
    fun (_, record) => record.content

variable {sections : List SectionPlanInput} {path : PathBuf}

theorem touchedRow_iff :
    touchedRow sections path line ↔ ∃ operation resolved,
      AddressedIn sections path operation resolved ∧ resolved.address.Takes line := by
  simp only [touchedRow, any_eq_true, Bool.and_eq_true, decide_eq_true_eq, Prod.exists]
  constructor
  · rintro ⟨input, hin, hp, operation, resolved, hmem, ht⟩
    exact ⟨operation, resolved, ⟨input, hin, hp, hmem⟩, ht⟩
  · rintro ⟨operation, resolved, ⟨input, hin, hp, hmem⟩, ht⟩
    exact ⟨input, hin, hp, operation, resolved, hmem, ht⟩

variable {baseline : Baseline}

theorem untouchedContents_eq (hl : baselineLines baseline = .ok lines) :
    untouchedContents sections path baseline =
      (((lines.zipIdx 1).filter fun row => !touchedRow sections path row.2).map Prod.fst).map
        asBytes := by
  have hr := map_filter_zipIdx RawLineRecord.content (lineRecords baseline.bytes)
    (fun line => !touchedRow sections path line) 1
  have hc := map_filter_zipIdx asBytes lines (fun line => !touchedRow sections path line) 1
  rw [untouchedContents, baseline.records_eq, SortedMap.ofList, filter_map, map_map, map_map]
  rw [← baselineLines_eq_ok hl] at hr
  exact hr.trans hc.symm

variable {input : SectionPlanInput}

/-- The logical lines of the only section of a path keep the rows that it does not take. -/
theorem untouched_sublist_planLines (hin : input ∈ sections)
    (hl : baselineLines input.baseline = .ok lines)
    (hed : lowerOperations lines (input.operations.zip input.resolved) registers =
      .ok (edits, registers')) :
    (untouchedContents sections input.canonicalPath input.baseline).Sublist
      ((planLines lines edits).finalLines.map asBytes) := by
  have hd {row : ℕ} (h : deletesRow
      (applyRepairLayers (coalesceReplacementEdits edits) lines).edits row = true) :
      0 < row ∧ touchedRow sections input.canonicalPath row := by
    rw [deletesRow_iff, deletedLine_applyRepairLayers] at h
    obtain ⟨hpos, ⟨operation, resolved⟩, hmem, ht⟩ :=
      deletedLine_lowerOperations hed (deletedLine_coalesce h)
    exact ⟨hpos, touchedRow_iff.2 ⟨operation, resolved, ⟨input, hin, rfl, hmem⟩, ht⟩⟩
  have hz : deletesRow
      (applyRepairLayers (coalesceReplacementEdits edits) lines).edits 0 = false := by
    by_contra h
    exact absurd (hd (Bool.not_eq_false _ ▸ h)).1 (lt_irrefl 0)
  rw [untouchedContents_eq hl]
  refine List.Sublist.map _ (List.Sublist.trans ?_ (sublist_materializeEdits hz))
  refine List.Sublist.map _ (monotone_filter_right _ fun row hrow => ?_)
  rw [Bool.not_eq_true'] at hrow ⊢
  by_contra h
  rw [(hd (Bool.not_eq_false _ ▸ h)).2] at hrow
  cases hrow

/-! ## Compositions -/

variable {state : CompositionState}

theorem applyOperation_removed {next : CompositionState}
    (h : state.applyOperation operation resolved registers = .ok (next, registers')) :
    state.removedBy = none ∧ next.removeFile = operation.isRem ∧
      (next.removedBy = none ↔ operation.isRem = false) := by
  obtain ⟨hr, address, planned, updated, -, hp, hu, rfl⟩ := applyOperation_eq_ok h
  refine ⟨hr, ?_, ?_⟩
  · obtain ⟨-, ⟨⟨line, hrem⟩, -, rfl⟩ | ⟨hrem, -, lines, edits, -, -, rfl⟩⟩ :=
      applySectionOps_eq_ok hp
    · cases hrem
      rfl
    · exact hrem.symm
  · have hc := hu
    unfold updateOrigins at hc
    cases operation with
    | put location source line =>
      simp only at hc
      split at hc
      · split_ifs at hc
        cases hc
        simpa [isRem] using hr
      · split_ifs at hc
        cases hc
        simpa [isRem] using hr
      · cases hc
        simpa [isRem] using hr
    | cut location register line =>
      simp only at hc
      split at hc <;> cases hc <;> simpa [isRem] using hr
    | rem line =>
      cases hc
      simp [isRem]
    | mv destination line =>
      cases hc
      simpa [isRem] using hr

variable {Q : CompositionState → StagedRegisters → Operation → ResolvedOperation → Prop}

/-- The originals that no operation takes stay, unless the file is removed. -/
theorem run_original_mem
    (hrun : Relation.ReflTransGen (PathStep Q sections path) (.new input) state) :
    state.origins.Pairwise LineOrigin.Precedes ∧
      (state.removedBy = none ↔ state.removeFile = false) ∧
      (state.removedBy = none → ∀ line, 0 < line → line ≤ input.baseline.snapshot.totalLines →
        touchedRow sections path line = false → .original line ∈ state.origins) := by
  induction hrun with
  | refl =>
    refine ⟨ordered_new input, by simp [new], fun _ line hpos hle _ => ?_⟩
    exact mem_map_of_mem (mem_range'_1.2 ⟨hpos, by omega⟩)
  | tail _ hs ih =>
    obtain ⟨operation, resolved, _, _, had, hap, -⟩ := hs
    obtain ⟨address, planned, -, -, -, -, ho⟩ := applyOperation_origins hap
    obtain ⟨hr, hre, hn⟩ := applyOperation_removed hap
    refine ⟨ho.ordered ih.1, by rw [hre]; exact hn, fun hk line hpos hle hl => ?_⟩
    refine ho.original_mem ih.1 (hn.1 hk) (fun ht => ?_) (ih.2.2 hr line hpos hle hl)
    rw [touchedRow_iff.2 ⟨operation, resolved, had, ht⟩] at hl
    cases hl

/-- Original rows in increasing order have their contents in the current rows, in the same order. -/
theorem contents_sublist {original : Baseline} {origins : List LineOrigin}
    {records : List RawLineRecord} (hal : List.Forall₂ (Tracks original) origins records)
    (ho : origins.Pairwise LineOrigin.Precedes) {rows : List (ℕ × RawLineRecord)}
    (hs : rows.Pairwise fun a b => a.1 < b.1)
    (hr : ∀ row ∈ rows, original.rawRecord row.1 = some row.2)
    (hmem : ∀ row ∈ rows, .original row.1 ∈ origins) :
    (rows.map fun row => row.2.content).Sublist (records.map RawLineRecord.content) := by
  induction hal generalizing rows with
  | nil =>
    cases rows with
    | nil => exact List.Sublist.refl _
    | cons row rows => cases hmem row mem_cons_self
  | @cons origin record origins records ht _ ih =>
    obtain ⟨hp, hre⟩ := pairwise_cons.1 ho
    by_cases hf : ∃ row rest, rows = row :: rest ∧ origin = .original row.1
    · obtain ⟨row, rest, rfl, rfl⟩ := hf
      obtain ⟨hlt, hres⟩ := pairwise_cons.1 hs
      obtain ⟨source, hso, hc⟩ := ht row.1 rfl
      rw [hr row mem_cons_self] at hso
      cases hso
      rw [map_cons, hc]
      refine (ih hre hres (fun other hot => hr other (mem_cons_of_mem _ hot))
        fun other hot => ?_).cons_cons _
      rcases mem_cons.1 (hmem other (mem_cons_of_mem _ hot)) with heq | hin
      · have := hlt other hot
        rw [LineOrigin.original.inj heq] at this
        exact absurd this (lt_irrefl _)
      · exact hin
    · refine (ih hre hs hr fun other hot => ?_).cons _
      rcases mem_cons.1 (hmem other hot) with heq | hin
      · exfalso
        cases rows with
        | nil => cases hot
        | cons row rest =>
          rcases mem_cons.1 hot with rfl | hl
          · exact hf ⟨_, rest, rfl, heq.symm⟩
          · have hlt := (pairwise_cons.1 hs).1 other hl
            rcases mem_cons.1 (hmem row mem_cons_self) with heq' | hin
            · exact hf ⟨_, rest, rfl, heq'.symm⟩
            · rw [← heq] at hp
              rcases hp _ hin _ rfl _ rfl with hlt' | ⟨_, _, _, heq', _⟩
              · exact absurd hlt (lt_asymm hlt')
              · cases heq'
      · exact hin

theorem Baseline.fromBytes_bytes (baseline : Baseline) :
    Baseline.fromBytes baseline.bytes = baseline := by
  obtain ⟨bytes, snapshot, rfl⟩ := baseline
  rfl

/-- A composed file keeps the rows that no operation takes, if every operation meets the
condition. -/
theorem untouched_sublist_composed (hrun : Relation.ReflTransGen (PathStep CompositionState.StepOk
      sections path) (.new input) state) (hk : state.removeFile = false) :
    (untouchedContents sections path input.baseline).Sublist
      ((lineRecords state.current.bytes).map RawLineRecord.content) := by
  have ht : state.Tracked input := by
    refine .run (Relation.ReflTransGen.mono (fun before next hs => ?_) _ _ hrun)
    obtain ⟨operation, resolved, registers, registers', -, hap, hok⟩ := hs
    exact ⟨operation, resolved, registers, registers', hap, hok⟩
  obtain ⟨ho, hr, hmem⟩ := run_original_mem hrun
  have hal := ht.aligned
  rw [CompositionState.Aligned, ht.original] at hal
  refine contents_sublist hal ho ?_ (fun row hrow => ?_) fun row hrow => ?_
  · exact input.baseline.snapshot.records.sorted.sublist filter_sublist
  · exact SortedMap.find?_eq_some_iff.2 (mem_filter.1 hrow).1
  · obtain ⟨hen, hu⟩ := mem_filter.1 hrow
    rw [Bool.not_eq_true'] at hu
    have hre : input.baseline.rawRecord row.1 = some row.2 :=
      SortedMap.find?_eq_some_iff.2 hen
    rw [input.baseline.rawRecord_eq] at hre
    split_ifs at hre with hpos
    have hlt := (List.getElem?_eq_some_iff.1 hre).1
    rw [← input.baseline.totalLines_eq] at hlt
    exact hmem (hr.2 hk) row.1 hpos (by omega) hu

/-! ## Accepted patches -/

/-- The lines that a planned file was made from: of its only section, or the rows of the composed
bytes. -/
inductive PlannedFrom (sections : List SectionPlanInput) (file : PlannedFile) : List String → Prop
  | single {input : SectionPlanInput} {registers registers' : StagedRegisters}
      {originalLines : List String} {plan : LinePlan} (hinput : input ∈ sections)
      (hpath : input.canonicalPath = file.canonicalPath)
      (hcount : sectionCount sections file.canonicalPath = 1)
      (hplan : planSectionLines input.baseline input.operations input.resolved registers =
        .ok (originalLines, plan, registers'))
      (hbytes : file.finalBytes = joinLines plan.finalLines
        (terminatorPolicy input.baseline.snapshot.records).1
        (terminatorPolicy input.baseline.snapshot.records).2) :
      PlannedFrom sections file plan.finalLines
  | composed {lines : List String} (hcount : sectionCount sections file.canonicalPath ≠ 1)
      (hlines : baselineLines (.fromBytes file.finalBytes) = .ok lines) :
      PlannedFrom sections file lines

def SectionPlanInput.RemWhole (input : SectionPlanInput) : Prop :=
  ∀ pair ∈ input.operations.zip input.resolved, pair.1.isRem → pair.2.address = .wholeFile

instance (input : SectionPlanInput) : Decidable input.RemWhole :=
  inferInstanceAs (Decidable (∀ pair ∈ input.operations.zip input.resolved,
    pair.1.isRem → pair.2.address = .wholeFile))

/-- Verified addresses only take rows that were seen and have not changed. -/
theorem takes_of_verified {snapshot : Snapshot} (h : verifyExact snapshot baseline address = .exact)
    (hpos : 0 < line) (hle : line ≤ baseline.snapshot.totalLines) (ht : address.Takes line) :
    snapshot.isSeen line ∧ baseline.rawRecord line = snapshot.rawRecord line := by
  cases address with
  | span span =>
    obtain ⟨hs, hsa⟩ := verifyExact_span.1 h line ht
    exact ⟨hs, hsa.symm⟩
  | wholeFile =>
    obtain ⟨hel, hto, hr⟩ := verifyExact_wholeFile.1 h
    refine ⟨(checkEligibility_wholeFile.1 hel).2 line hpos (hto ▸ hle), ?_⟩
    rw [Baseline.rawRecord, Snapshot.rawRecord, Snapshot.rawRecord, hr]
  | gap | blockAnchor | blockGapAnchor => exact ht.elim

variable {file : PlannedFile}

theorem CompositionState.finish_eq_ok (h : state.finish = .ok file) :
    file.canonicalPath = state.canonicalPath ∧ file.baselineBytes = state.original.bytes ∧
      file.finalBytes = state.current.bytes ∧ file.removeFile = state.removeFile ∧
      (state.removeFile = false → ∃ lines, baselineLines state.current = .ok lines) := by
  unfold finish at h
  cases hr : state.removeFile with
  | true =>
    rw [hr] at h
    cases h
    exact ⟨rfl, rfl, rfl, rfl, by simp⟩
  | false =>
    rw [hr] at h
    obtain ⟨originalLines, -, h⟩ := bind_eq_ok_iff.1 h
    obtain ⟨lines, hl, h⟩ := bind_eq_ok_iff.1 h
    cases h
    exact ⟨rfl, rfl, rfl, rfl, fun _ => ⟨lines, hl⟩⟩

variable {slot : ApplyPlanSlot}

theorem slot_file (hs : SlotHolds Q sections path slot) (hf : slot.finish = .ok file) :
    file.canonicalPath = path ∧ ∃ input ∈ sections, input.canonicalPath = path ∧
      file.baselineBytes = input.baseline.bytes := by
  cases hs with
  | complete _ hmem hp hpl =>
    cases hf
    refine ⟨(canonicalPath_of_applySectionOps hpl).trans hp, _, hmem, hp, ?_⟩
    obtain ⟨-, ⟨-, -, rfl⟩ | ⟨-, -, lines, edits, -, -, rfl⟩⟩ := applySectionOps_eq_ok hpl <;> rfl
  | composing _ hmem hp hrun =>
    obtain ⟨hc, hb, -⟩ := finish_eq_ok hf
    obtain ⟨hfr, -, ho⟩ := pathStep_frame hrun
    exact ⟨hc.trans (hfr.trans hp), _, hmem, hp, hb.trans (congrArg Baseline.bytes ho)⟩

/-- The logical lines of the file that a slot ends in. -/
theorem slot_untouched (hs : SlotHolds CompositionState.StepOk sections path slot)
    (hf : slot.finish = .ok file) (hk : file.removeFile = false) :
    ∃ lines, PlannedFrom sections file lines ∧
      (untouchedContents sections path (.fromBytes file.baselineBytes)).Sublist
        (lines.map asBytes) := by
  have hfi := (slot_file hs hf).1
  cases hs with
  | @complete _ input registers registers' hc hmem hp hpl =>
    cases hf
    obtain ⟨-, ⟨-, -, rfl⟩ | ⟨-, -, lines, edits, hl, hed, rfl⟩⟩ :=
      applySectionOps_eq_ok hpl
    · cases hk
    · have hpla : planSectionLines input.baseline input.operations input.resolved registers =
          .ok (lines, planLines lines edits, registers') := by
        exact bind_eq_ok_iff.2 ⟨_, hl, bind_eq_ok_iff.2 ⟨_, hed, rfl⟩⟩
      refine ⟨_, .single hmem rfl (hp.symm ▸ hc) hpla rfl, ?_⟩
      have hsu := untouched_sublist_planLines hmem hl hed
      rwa [hp, ← input.baseline.fromBytes_bytes] at hsu
  | composing hc hmem hp hrun =>
    obtain ⟨-, hb, hfin, hr, hl⟩ := finish_eq_ok hf
    rw [hr] at hk
    obtain ⟨lines, hl⟩ := hl hk
    refine ⟨lines, .composed (hfi.symm ▸ hc) ?_, ?_⟩
    · rw [hfin, Baseline.fromBytes_bytes]
      exact hl
    · rw [hb, (pathStep_frame hrun).2.2, Baseline.fromBytes_bytes, baselineLines_eq_ok hl]
      exact untouched_sublist_composed hrun hk

/-- An accepted patch takes only rows that were seen and have not changed, plans a file for every
section, and keeps the rows that no operation takes in every file that it does not remove. -/
theorem planApply_keeps_rows {sections : List SectionPlanInput} {sessionRegisters : RegisterStore}
    {plan : ApplyPlan} (hrem : ∀ input ∈ sections, input.RemWhole)
    (h : planApply sections sessionRegisters = .ok plan)
    (hmeet : PlanMeets CompositionState.StepOk sections sessionRegisters) :
    (∀ input ∈ sections, ∀ pair ∈ input.operations.zip input.resolved, ∀ line, 0 < line →
      line ≤ input.baseline.snapshot.totalLines → pair.1.isRem ∨ pair.2.address.Takes line →
      input.snapshot.isSeen line ∧
        input.baseline.rawRecord line = input.snapshot.rawRecord line) ∧
    (∀ input ∈ sections, ∃ file ∈ plan.files, file.canonicalPath = input.canonicalPath ∧
      file.baselineBytes = input.baseline.bytes) ∧
    ∀ file ∈ plan.files, file.removeFile = false → ∃ lines, PlannedFrom sections file lines ∧
      (untouchedContents sections file.canonicalPath (.fromBytes file.baselineBytes)).Sublist
        (lines.map asBytes) := by
  obtain ⟨hverified, hcovered, hfiles⟩ := planApply_eq_ok h hmeet
  obtain ⟨hexact, -, hsame⟩ := verifySections_eq_ok hverified
  refine ⟨fun input hinput pair hpair line hpos hle htakes => ?_, fun input hinput => ?_,
    fun file hfile hkept => ?_⟩
  · refine takes_of_verified (hexact input hinput pair.2 (of_mem_zip hpair).2) hpos hle ?_
    rcases htakes with hisRem | htakes
    · rw [hrem input hinput pair hpair hisRem]
      trivial
    · exact htakes
  · obtain ⟨slot, file, hslot, hfile, hmem⟩ := hcovered input hinput
    obtain ⟨hpath, other, hother, hotherPath, hbaseline⟩ := slot_file hslot hfile
    exact ⟨file, hmem, hpath, hbaseline.trans (hsame other hother input hinput hotherPath)⟩
  · obtain ⟨path, slot, -, hslot, hfinish⟩ := hfiles file hfile
    rw [(slot_file hslot hfinish).1]
    exact slot_untouched hslot hfinish hkept

/-- Two sections of one path: the first deletes the last row of `a\n\nb`, the second inserts before
row two. -/
def lostRowSections : List SectionPlanInput :=
  [readSection [97, 10, 10, 98] [.cut (.line (.absolute 3 (by decide))) none 1]
      [.span (.single 3 (by decide))],
    readSection [97, 10, 10, 98] [.put (.gap .before (.absolute 2 (by decide))) (.text ["X"]) 2]
      [.gap ⟨some 1, some 2⟩]]

/-- The empty row two is in neither operation, and the composed file has lost it. -/
theorem planApply_loses_row :
    untouchedContents lostRowSections ["f"] (.fromBytes [97, 10, 10, 98]) = [[97], []] ∧
    (planApply lostRowSections .new).toOption.map (fun plan => plan.files.map fun file =>
      (file.canonicalPath, file.removeFile, (lineRecords file.finalBytes).map (·.content))) =
      some [(["f"], false, [[97], [88]])] := by
  decide

/-- Two sections of one path with CRLF rows. -/
def keptRowSections : List SectionPlanInput :=
  [readSection [97, 13, 10, 98, 13, 10] [.cut (.line (.absolute 2 (by decide))) none 1]
      [.span (.single 2 (by decide))],
    readSection [97, 13, 10, 98, 13, 10] [.put .bof (.text ["X"]) 2] [.gap ⟨none, some 1⟩]]

theorem planApply_keeps_rows_composed : ∃ plan, planApply keptRowSections .new = .ok plan ∧
    ∀ file ∈ plan.files, file.removeFile = false → ∃ lines, PlannedFrom keptRowSections file lines ∧
      (untouchedContents keptRowSections file.canonicalPath (.fromBytes file.baselineBytes)).Sublist
        (lines.map asBytes) := by
  obtain ⟨plan, hplan⟩ : ∃ plan, planApply keptRowSections .new = .ok plan := ⟨_, rfl⟩
  refine ⟨plan, hplan, (planApply_keeps_rows (by decide) hplan ?_).2.2⟩
  refine ⟨fun _ composition hcomposition => ?_, fun next hnext => ?_⟩
  · cases hcomposition
    refine ⟨fun address haddress => ?_, fun _ _ _ => trivial⟩
    cases haddress
    exact ⟨fun h => absurd h (by decide), fun h => absurd h (by decide)⟩
  · cases hnext
    refine ⟨fun _ composition hcomposition => ?_, fun _ _ => trivial⟩
    cases hcomposition
    refine ⟨fun address haddress => ?_, fun _ _ _ => trivial⟩
    cases haddress
    refine ⟨.inr ?_, fun h => absurd h (by decide), fun h => absurd h (by decide)⟩
    intro row line _ hrow
    cases hrow

end Aft.Hashline
