import Aft.Hashline.Composition

/-!
# The origins of the current rows

A composition keeps, beside the current bytes, the origin of each of their rows. The origins are
updated by counting lines, the bytes by joining lines and scanning them again. They agree as long
as every step leaves the rows it does not replace as they are (`CompositionState.StepOk`).
-/

namespace Aft.Hashline

open List CompositionState

/-- A row has the content of the pre-request row it stands for. -/
def Tracks (original : Baseline) (origin : LineOrigin) (record : RawLineRecord) : Prop :=
  ∀ line, origin = .original line →
    ∃ source, original.rawRecord line = some source ∧ source.content = record.content

variable {original : Baseline} {origin : LineOrigin} {record : RawLineRecord}

/-! ## Placements -/

/-- Rows `first` to `stop`, counted from zero, are replaced by a body. -/
structure Placement where
  first : ℕ
  stop : ℕ
  body : List String
deriving DecidableEq

/-- Whether a row that stays is the last one after the replacement. -/
def Placement.EndsAt (placement : Placement) (total row : ℕ) : Prop :=
  (placement.stop ≤ row ∧ row + 1 = total) ∨
    (row + 1 = placement.first ∧ total ≤ placement.stop ∧ placement.body = [])

namespace CompositionState

def policy (state : CompositionState) : TerminatorKind × Bool :=
  terminatorPolicy state.current.snapshot.records

/-- The rows that a placement leaves survive being written and scanned: a file without final
terminator does not end in an empty line, and no original row ends in a carriage return before a
line feed. -/
structure Survives (state : CompositionState) (placement : Placement) : Prop where
  lastLine : state.policy.2 = false → placement.body = [] →
    state.current.snapshot.totalLines ≤ placement.stop →
    ∀ record, state.current.rawRecord placement.first = some record → record.content ≠ []
  carriageReturn : state.policy.1 = .lf → ∀ row line record,
    state.origins[row]? = some (.original line) → row < placement.first ∨ placement.stop ≤ row →
    state.current.rawRecord (row + 1) = some record → record.content.getLast? = some byteCr →
    state.policy.2 = false ∧ placement.EndsAt state.current.snapshot.totalLines row

def Aligned (state : CompositionState) : Prop :=
  List.Forall₂ (Tracks state.original) state.origins (lineRecords state.current.bytes)

theorem Aligned.length_origins {state : CompositionState} (h : state.Aligned) :
    state.origins.length = state.current.snapshot.totalLines := by
  rw [List.Forall₂.length_eq h, state.current.totalLines_eq]

end CompositionState

theorem terminatorPolicy_eq_lf {records : SortedMap ℕ RawLineRecord}
    (h : (terminatorPolicy records).1 ≠ .crLf) : (terminatorPolicy records).1 = .lf := by
  unfold terminatorPolicy at h ⊢
  simp only at h ⊢
  split_ifs at h ⊢
  · exact absurd rfl h
  · rfl

variable {body : List String}

section Reencode

variable {state : CompositionState} {lines : List String}

variable {row : ℕ}

theorem rawRecord_succ_iff {baseline : Baseline} :
    baseline.rawRecord (row + 1) = some record ↔ (lineRecords baseline.bytes)[row]? = some record := by
  rw [baseline.rawRecord_eq, if_pos (Nat.succ_pos row), Nat.add_sub_cancel]

section

variable (hl : baselineLines state.current = .ok lines)
include hl

variable {line : String}

theorem exists_record (hli : lines[row]? = some line) :
    ∃ record, (lineRecords state.current.bytes)[row]? = some record ∧
      record.content = asBytes line := by
  have h : (lines.map asBytes)[row]? = some (asBytes line) := by
    rw [getElem?_map, hli]
    rfl
  rw [baselineLines_eq_ok hl, getElem?_map] at h
  exact Option.map_eq_some_iff.1 h

theorem length_lines : lines.length = state.current.snapshot.totalLines := by
  have h := congrArg length (baselineLines_eq_ok hl)
  rwa [length_map, length_map, ← state.current.totalLines_eq] at h

/-- A last line without terminator is not empty. -/
theorem last_ne_nil (ht : state.policy.2 = false) (hla : lines.getLast? = some line) :
    asBytes line ≠ [] := by
  rw [policy, state.current.records_eq] at ht
  obtain ⟨init, content, hr, hne⟩ := exists_open_record ht
  have h : (lines.map asBytes).getLast? = some (asBytes line) := by
    rw [getLast?_map, hla]
    rfl
  rw [baselineLines_eq_ok hl, hr, map_append, map_singleton, getLast?_concat] at h
  exact Option.some.inj h ▸ hne

variable {placement : Placement} (hal : state.Aligned) (hs : state.Survives placement)
include hal hs

/-- A surviving original row keeps its content when all lines but an open last one get the policy's
terminator. -/
theorem tracks_written (ho : state.origins[row]? = some origin) (hli : lines[row]? = some line)
    (hk : row < placement.first ∨ placement.stop ≤ row) {isOpen : Prop} [Decidable isOpen]
    (hop : state.policy.2 = false → placement.EndsAt state.current.snapshot.totalLines row →
      isOpen) :
    Tracks state.original origin (if isOpen then ⟨asBytes line, .none⟩
      else writtenRecord state.policy.1 (asBytes line)) := by
  rintro k rfl
  obtain ⟨record, hr, hc⟩ := exists_record hl hli
  obtain ⟨source, hso, hsa⟩ :=
    (forall₂_iff_getElem?.1 hal).2 row _ _ ho hr k rfl
  refine ⟨source, hso, hsa.trans (hc.trans ?_)⟩
  split_ifs with hisO
  · rfl
  · refine (writtenRecord_content fun hcrL hcr => hisO ?_).symm
    obtain ⟨ht, hen⟩ := hs.carriageReturn (terminatorPolicy_eq_lf hcrL) row k record
      ho hk (rawRecord_succ_iff.2 hr) (by rw [hc]; exact hcr)
    exact hop ht hen

/-- Writing a placement and scanning the result gives back the rows outside it. -/
theorem reencode_placement (hle : placement.first ≤ placement.stop)
    (hst : placement.stop ≤ lines.length) (hbo : body = [] ↔ placement.body = []) {bytes : Bytes}
    (hby : bytes = joinLines (splice lines placement.first placement.stop body)
      state.policy.1 state.policy.2) :
    ∃ before middle after, lineRecords bytes = before ++ middle ++ after ∧
      (body = [] → middle = []) ∧
      List.Forall₂ (Tracks state.original) (state.origins.take placement.first) before ∧
      List.Forall₂ (Tracks state.original) (state.origins.drop placement.stop) after ∧
      (Baseline.fromBytes bytes).snapshot.totalLines + (placement.stop - placement.first) =
        state.current.snapshot.totalLines + middle.length := by
  have ht := length_lines hl
  have ho : state.origins.length = lines.length := hal.length_origins.trans ht.symm
  obtain ⟨middle, hm, hnil⟩ := lineRecords_joinLines
    (a := lines.take placement.first) (c := lines.drop placement.stop)
    (fun line h => lf_notMem_line hl (mem_of_mem_take h))
    (fun line h => lf_notMem_line hl (mem_of_mem_drop h)) body state.policy.1
    state.policy.2
    (fun htr line hli => by
      rw [getLast?_drop] at hli
      split_ifs at hli
      exact last_ne_nil hl htr hli)
    (fun htr hb hc line hli => by
      have hd := drop_eq_nil_iff.1 hc
      rw [getLast?_take] at hli
      split_ifs at hli with hz
      obtain ⟨row, hrow⟩ : ∃ row, placement.first = row + 1 := ⟨placement.first - 1, by omega⟩
      rw [hrow, Nat.add_sub_cancel] at hli
      have hget : lines[row]? = some line := by
        rw [getElem?_eq_getElem (by omega)] at hli ⊢
        exact hli
      obtain ⟨record, hr, hco⟩ := exists_record hl hget
      rw [← hco]
      exact hs.lastLine htr (hbo.1 hb) (ht ▸ hd) record (hrow ▸ rawRecord_succ_iff.2 hr))
  subst hby
  refine ⟨_, middle, _, hm, hnil, ?_, ?_, ?_⟩
  · refine forall₂_iff_getElem?.2 ⟨?_, fun i origin record hor hr => ?_⟩
    · rw [length_writtenRecords, length_take, length_take, ho]
    · rw [getElem?_writtenRecords] at hr
      obtain ⟨line, hli, rfl⟩ := Option.map_eq_some_iff.1 hr
      rw [getElem?_take] at hor hli
      split_ifs at hor with hi
      rw [if_pos hi] at hli
      refine tracks_written hl hal hs hor hli (.inl hi) fun htr hen => ?_
      rcases hen with ⟨hge, -⟩ | ⟨hf, ht', hb⟩
      · omega
      · refine ⟨?_, by rw [length_take]; omega⟩
        have hd : lines.drop placement.stop = [] := drop_eq_nil_of_le (ht ▸ ht')
        simp [htr, hbo.2 hb, hd]
  · refine forall₂_iff_getElem?.2 ⟨?_, fun i origin record hor hr => ?_⟩
    · rw [length_writtenRecords, length_drop, length_drop, ho]
    · rw [getElem?_writtenRecords] at hr
      obtain ⟨line, hli, rfl⟩ := Option.map_eq_some_iff.1 hr
      rw [getElem?_drop] at hor hli
      refine tracks_written hl hal hs hor hli (.inr (Nat.le_add_right _ _)) fun htr hen => ?_
      rcases hen with ⟨-, hla⟩ | ⟨hf, -⟩
      · exact ⟨by simp [htr], by rw [length_drop]; omega⟩
      · omega
  · rw [Baseline.totalLines_eq]
    change (lineRecords (joinLines (_ ++ _ ++ _) _ _)).length + _ = _
    rw [hm, length_append, length_append,
      length_writtenRecords, length_writtenRecords, length_take, length_drop]
    omega

end

end Reencode

/-! ## Accepted steps -/

def putLines (source : PutSource) (address : ResolvedAddress) (registers : StagedRegisters) :
    List String :=
  (putBody source address registers).toOption.getD []

namespace CompositionState

/-- At its current address, the rows an operation leaves survive, and the text of a gap goes where
its origins go. -/
def PlacementOk (state : CompositionState) (registers : StagedRegisters) :
    Operation → ResolvedAddress → Prop
  | .put _ source _, .span span =>
    state.Survives ⟨span.start - 1, span.stop, putLines source (.span span) registers⟩
  | .put _ source _, .gap gap =>
    let position := gapPosition gap state.current.snapshot.totalLines
    let body := putLines source (.gap gap) registers
    (body = [] ∨ ∀ row line, gap.before.getD 0 ≤ row → row < position →
      state.origins[row]? ≠ some (.original line)) ∧ state.Survives ⟨position, position, body⟩
  | .put _ source _, .wholeFile =>
    putLines source .wholeFile registers = [] ∧ state.Survives ⟨0, 0, []⟩
  | .put _ _ _, .blockAnchor _ | .put _ _ _, .blockGapAnchor _ _ => state.Survives ⟨0, 0, []⟩
  | .cut _ _ _, .span span => state.Survives ⟨span.start - 1, span.stop, []⟩
  | .cut _ _ _, .wholeFile => state.current.snapshot.totalLines = 0
  | .cut _ _ _, _ | .rem _, _ | .mv _ _, _ => True

/-- The condition on an operation in the state before it. -/
def StepOk (state : CompositionState) (registers : StagedRegisters) (operation : Operation)
    (resolved : ResolvedOperation) : Prop :=
  ∀ address, state.remapAddress resolved.address (operationLabel operation) = .ok address →
    state.PlacementOk registers operation address

end CompositionState

variable {origins : List LineOrigin}

theorem forall₂_tracks_of_ne {records : List RawLineRecord} (hlen : origins.length = records.length)
    (hne : ∀ origin ∈ origins, ∀ line, origin ≠ .original line) :
    List.Forall₂ (Tracks original) origins records :=
  forall₂_iff_getElem?.2 ⟨hlen, fun _ _ _ ho _ =>
    fun line heq => absurd heq (hne _ (mem_of_getElem? ho) line)⟩

/-- Rows without an original may be inserted before the place where they went, if no original row
lies between. -/
theorem forall₂_tracks_insert {new : List LineOrigin} {before middle after : List RawLineRecord}
    {index position : ℕ} (hb : List.Forall₂ (Tracks original) (origins.take position) before)
    (haf : List.Forall₂ (Tracks original) (origins.drop position) after)
    (hin : index ≤ position) (hp : position ≤ origins.length)
    (hbe : ∀ row line, index ≤ row → row < position → origins[row]? ≠ some (.original line))
    (hnew : ∀ origin ∈ new, ∀ line, origin ≠ .original line) (hlen : new.length = middle.length) :
    List.Forall₂ (Tracks original) (splice origins index index new) (before ++ middle ++ after) := by
  have ht : origins.take index = (origins.take position).take index := by
    rw [take_take, min_eq_left hin]
  have hd : origins.drop index = (origins.take position).drop index ++ origins.drop position := by
    conv_lhs => rw [← take_append_drop position origins]
    rw [drop_append_of_le_length]
    rwa [length_take, min_eq_left hp]
  have hs : before ++ middle ++ after =
      before.take index ++ (before.drop index ++ middle) ++ after := by
    rw [← append_assoc, take_append_drop]
  have hl := hb.length_eq
  rw [splice, ht, hd, hs, ← append_assoc, append_assoc _ new]
  refine rel_append (rel_append (forall₂_take index hb) ?_) haf
  refine forall₂_tracks_of_ne ?_ fun origin ho line => ?_
  · rw [length_append, length_append, length_drop, length_drop]
    omega
  · rcases mem_append.1 ho with ho | ho
    · exact hnew origin ho line
    · obtain ⟨i, hi⟩ := getElem?_of_mem ho
      rw [getElem?_drop, getElem?_take] at hi
      split_ifs at hi with hlt
      rintro rfl
      exact hbe (index + i) line (Nat.le_add_right _ _) hlt hi

variable {gap : ResolvedGap} {total : ℕ}

theorem before_getD_le_gapPosition (h : ∀ r ∈ gap.anchors, 0 < r ∧ r ≤ total) :
    gap.before.getD 0 ≤ gapPosition gap total := by
  obtain ⟨before, after⟩ := gap
  cases before with
  | none => exact Nat.zero_le _
  | some b =>
    cases after with
    | none => exact (h b (by simp [ResolvedGap.anchors])).2
    | some a => exact le_rfl

theorem gapPosition_le (h : ∀ r ∈ gap.anchors, 0 < r ∧ r ≤ total) :
    gapPosition gap total ≤ total := by
  rcases gapPlacement_cases gap with hp | ⟨b, hb, hp⟩ | ⟨a, ha, hp⟩ | ⟨b, hb, hp⟩
  · simp [gapPosition, hp]
  · simp [gapPosition, hp]
  · have := (h a (by simp [ResolvedGap.anchors, ha])).2
    simp only [gapPosition, hp]
    omega
  · simpa only [gapPosition, hp] using (h b (by simp [ResolvedGap.anchors, hb])).2

variable {registers : StagedRegisters}

theorem putLines_eq {source : PutSource} {address : ResolvedAddress}
    (h : putBody source address registers = .ok body) :
    putLines source address registers = body := by
  rw [putLines, h]
  rfl

variable {state : CompositionState}

variable {opIndex : ℕ} {edits : List LineEdit}

section Aligned

variable {state : CompositionState} {lines : List String}

variable {after : ℕ} {planned : PlannedFile} {new : LineOrigin} (hal : state.Aligned)
  (hl : baselineLines state.current = .ok lines)
include hal hl

/-- A span replaced by a body, in the bytes and in the origins. -/
theorem aligned_span {current : LineSpan} (hs : current.stop ≤ state.origins.length)
    (hsu : state.Survives ⟨current.start - 1, current.stop, body⟩)
    (hnew : ∀ line, new ≠ .original line)
    (hp : planned = linePlanned state.requestedPath state.canonicalPath state.current lines
      (lowerPutBody (.span current) body opIndex))
    (haf : after = (Baseline.fromBytes planned.finalBytes).snapshot.totalLines) :
    List.Forall₂ (Tracks state.original)
      (splice state.origins (current.start - 1) current.stop (List.replicate
        (after + (current.stop - current.start + 1) - state.current.snapshot.totalLines) new))
      (lineRecords planned.finalBytes) ∧
    (body = [] →
      after + (current.stop - current.start + 1) - state.current.snapshot.totalLines = 0) := by
  have hlen := hal.length_origins
  have ht := length_lines hl
  have hpos := current.pos
  have hle := current.le
  obtain ⟨body', hf, hbo⟩ := planLines_span (by omega : current.stop ≤ lines.length) body opIndex
  obtain ⟨before, middle, rest, hre, hnil, hbe, hres, hcount⟩ :=
    reencode_placement hl hal hsu (by simp only; omega) (by simp only; omega) hbo
      (show planned.finalBytes = _ by rw [hp, linePlanned, hf]; rfl)
  have hc : after + (current.stop - current.start + 1) - state.current.snapshot.totalLines =
      middle.length := by
    simp only at hcount
    omega
  refine ⟨?_, fun hem => ?_⟩
  · rw [hre]
    refine rel_append (rel_append hbe ?_) hres
    refine forall₂_tracks_of_ne (by rw [length_replicate, hc]) fun origin ho => ?_
    rw [eq_of_mem_replicate ho]
    exact hnew
  · rw [hc, hnil (hbo.2 hem), length_nil]

/-- A gap filled with a body, in the bytes and in the origins. -/
theorem aligned_gap (han : ∀ r ∈ gap.anchors, 0 < r ∧ r ≤ state.origins.length)
    (hbe : body = [] ∨ ∀ row line, gap.before.getD 0 ≤ row →
      row < gapPosition gap state.current.snapshot.totalLines →
      state.origins[row]? ≠ some (.original line))
    (hs : state.Survives ⟨gapPosition gap state.current.snapshot.totalLines,
      gapPosition gap state.current.snapshot.totalLines, body⟩)
    (hnew : ∀ line, new ≠ .original line)
    (hp : planned = linePlanned state.requestedPath state.canonicalPath state.current lines
      (lowerPutBody (.gap gap) body opIndex))
    (haf : after = (Baseline.fromBytes planned.finalBytes).snapshot.totalLines) :
    List.Forall₂ (Tracks state.original)
      (splice state.origins (gap.before.getD 0) (gap.before.getD 0)
        (List.replicate (after - state.current.snapshot.totalLines) new))
      (lineRecords planned.finalBytes) := by
  have hle := hal.length_origins
  have ht := length_lines hl
  rw [hle] at han
  have hin := before_getD_le_gapPosition han
  have hpo := gapPosition_le han
  have hf := planLines_gap (ht.symm ▸ han) body opIndex
  rw [ht] at hf
  obtain ⟨before, middle, rest, hre, hnil, hbef, hres, hcount⟩ :=
    reencode_placement hl hal hs le_rfl (hpo.trans ht.ge) Iff.rfl
      (show planned.finalBytes = _ by rw [hp, linePlanned, hf]; rfl)
  simp only at hbef hres hcount
  have hc : after - state.current.snapshot.totalLines = middle.length := by omega
  rw [hre]
  rcases hbe with hem | hbe
  · rw [hc, hnil hem, length_nil, replicate_zero, splice_zero_nil, append_nil]
    conv => arg 2; rw [← take_append_drop (gapPosition gap state.current.snapshot.totalLines)
      state.origins]
    exact rel_append hbef hres
  · refine forall₂_tracks_insert hbef hres hin (by omega) hbe (fun origin ho => ?_)
      (by rw [length_replicate, hc])
    rw [eq_of_mem_replicate ho]
    exact hnew

theorem aligned_same (hs : state.Survives ⟨0, 0, []⟩) (hed : edits = [])
    (hp : planned = linePlanned state.requestedPath state.canonicalPath state.current lines edits) :
    List.Forall₂ (Tracks state.original) state.origins (lineRecords planned.finalBytes) := by
  obtain ⟨before, middle, rest, hr, hnil, hb, hre, -⟩ :=
    reencode_placement hl hal hs le_rfl (Nat.zero_le _) (Iff.refl ([] = []))
      (show planned.finalBytes = _ by rw [hp, hed, linePlanned, planLines_nil]; rfl)
  rw [hr, hnil rfl, forall₂_nil_left_iff.1 hb]
  exact hre

end Aligned

variable {registers' : StagedRegisters}

variable {next : CompositionState}

/-- An accepted operation that meets the condition keeps the rows aligned with their origins. -/
theorem applyOperation_aligned {operation : Operation} {resolved : ResolvedOperation}
    (h : state.applyOperation operation resolved registers = .ok (next, registers'))
    (hok : state.StepOk registers operation resolved) (hal : state.Aligned) : next.Aligned := by
  obtain ⟨address, planned, had, hp, hc, ho, hs⟩ :=
    applyOperation_origins h
  have hpl := hok address had
  rw [CompositionState.Aligned, hc, ho]
  change List.Forall₂ _ _ (lineRecords planned.finalBytes)
  generalize next.origins = origins at hs ⊢
  generalize haf : (Baseline.fromBytes planned.finalBytes).snapshot.totalLines = after at hs
  generalize resolved.address = original at hs
  cases hs with
  | put hsp =>
    obtain ⟨lines, body, hl, hb, -, hpla⟩ := applySectionOps_put hp
    rw [CompositionState.PlacementOk, putLines_eq hb] at hpl
    exact (aligned_span hal hl hsp.stop_le hpl (by simp) hpla haf.symm).1
  | insert han =>
    obtain ⟨lines, body, hl, hb, -, hpla⟩ := applySectionOps_put hp
    simp only [CompositionState.PlacementOk, putLines_eq hb] at hpl
    exact aligned_gap hal hl han hpl.1 hpl.2 (by simp) hpla haf.symm
  | cut hsp =>
    obtain ⟨lines, edits, hl, hcut, hpla⟩ := applySectionOps_cut hp
    obtain ⟨rfl, -⟩ := lowerCutSpan_eq_ok hcut
    obtain ⟨ht, hz⟩ := @aligned_span _ _ _ _ _ _ (.inserted ⟨none, none⟩) hal hl _
      hsp.stop_le hpl (by simp) hpla haf.symm
    rwa [hz rfl] at ht
  | rem =>
    obtain ⟨-, ⟨-, -, rfl⟩ | ⟨hrem, -⟩⟩ := applySectionOps_eq_ok hp
    · exact List.Forall₂.nil
    · cases hrem
  | other hsp hgap hrem =>
    cases operation with
    | put location source line =>
      obtain ⟨lines, body, hl, hb, -, hpla⟩ := applySectionOps_put hp
      cases address with
      | span span => exact absurd rfl (hsp span)
      | gap gap => exact absurd rfl (hgap gap)
      | wholeFile =>
        simp only [CompositionState.PlacementOk, putLines_eq hb] at hpl
        refine aligned_same hal hl hpl.2 ?_ hpla
        rw [hpl.1]
        rfl
      | blockAnchor | blockGapAnchor => exact aligned_same hal hl hpl rfl hpla
    | cut location register line =>
      obtain ⟨lines, edits, hl, hcut, hpla⟩ := applySectionOps_cut hp
      cases address with
      | span span => exact absurd rfl (hsp span)
      | gap gap => exact absurd rfl (hgap gap)
      | wholeFile =>
        have hz : state.current.snapshot.totalLines = 0 := hpl
        obtain rfl := length_eq_zero_iff.1 ((length_lines hl).trans hz)
        have horig : state.origins = [] :=
          length_eq_zero_iff.1 (hal.length_origins.trans hz)
        cases hcut
        rw [horig, hpla, linePlanned, planLines_nil]
        exact List.Forall₂.nil
      | blockAnchor | blockGapAnchor => cases hcut
    | rem line => cases hrem
    | mv destination line => exact absurd hp applySectionOps_mv

/-! ## Runs -/

/-- An accepted operation that meets the condition. -/
def CompositionState.GoodStep (state next : CompositionState) : Prop :=
  ∃ operation resolved registers registers',
    state.applyOperation operation resolved registers = .ok (next, registers') ∧
      state.StepOk registers operation resolved

theorem aligned_new (input : SectionPlanInput) : (new input).Aligned := by
  refine forall₂_iff_getElem?.2 ⟨?_, fun i origin record ho hr line hl => ?_⟩
  · rw [new, length_map, length_range', input.baseline.totalLines_eq]
  · rw [new, getElem?_map, hl] at ho
    obtain ⟨number, hn, hs⟩ := Option.map_eq_some_iff.1 ho
    obtain ⟨hlt, hget⟩ := List.getElem?_eq_some_iff.1 hn
    rw [getElem_range', one_mul] at hget
    cases hs
    refine ⟨record, ?_, rfl⟩
    rw [← hget, Nat.add_comm]
    exact rawRecord_succ_iff.2 hr

theorem ordered_new (input : SectionPlanInput) :
    (new input).origins.Pairwise LineOrigin.Precedes := by
  refine pairwise_map.2 ((pairwise_lt_range' 1).imp fun {a b} hlt r hr s hs => ?_)
  cases hr
  cases hs
  exact .inl hlt

/-- What a run of accepted operations that meet the condition keeps. -/
structure CompositionState.Tracked (input : SectionPlanInput) (state : CompositionState) : Prop where
  original : state.original = input.baseline
  aligned : state.Aligned
  ordered : state.origins.Pairwise LineOrigin.Precedes

variable {input : SectionPlanInput}

theorem CompositionState.Tracked.step (h : state.Tracked input) (hs : state.GoodStep next) :
    next.Tracked input := by
  obtain ⟨operation, resolved, registers, registers', hap, hok⟩ := hs
  obtain ⟨address, planned, -, -, -, ho, hor⟩ := applyOperation_origins hap
  exact ⟨ho.trans h.original, applyOperation_aligned hap hok h.aligned, hor.ordered h.ordered⟩

theorem CompositionState.Tracked.run
    (hrun : Relation.ReflTransGen CompositionState.GoodStep (.new input) state) :
    state.Tracked input := by
  induction hrun with
  | refl => exact ⟨rfl, aligned_new input, ordered_new input⟩
  | tail _ hs ih => exact ih.step hs

/-- After accepted operations that meet the condition, there is one origin for each current row, a
row marked as original has its content, and the original rows are in order. -/
theorem run_origins {input : SectionPlanInput} {state : CompositionState}
    (hrun : Relation.ReflTransGen CompositionState.GoodStep (.new input) state) :
    state.origins.length = state.current.snapshot.totalLines ∧
    (∀ (index line : ℕ), state.origins[index]? = some (.original line) →
      ∃ record source, state.current.rawRecord (index + 1) = some record ∧
        input.baseline.rawRecord line = some source ∧ record.content = source.content) ∧
    ∀ (i j line line' : ℕ), i < j → state.origins[i]? = some (.original line) →
      state.origins[j]? = some (.original line') → line < line' := by
  have h := CompositionState.Tracked.run hrun
  refine ⟨h.aligned.length_origins, fun index line horigin => ?_, fun i j line line' hij hi hj => ?_⟩
  · have hlt : index < (lineRecords state.current.bytes).length := by
      rw [← List.Forall₂.length_eq h.aligned]
      exact (List.getElem?_eq_some_iff.1 horigin).1
    have hrecord := getElem?_eq_getElem hlt
    obtain ⟨source, hsource, hcontent⟩ :=
      (forall₂_iff_getElem?.1 h.aligned).2 index _ _ horigin hrecord line rfl
    exact ⟨_, source, rawRecord_succ_iff.2 hrecord, h.original ▸ hsource, hcontent.symm⟩
  · rcases precedes_of_lt h.ordered hij hi hj _ rfl _ rfl with hlt | ⟨_, _, _, heq, _⟩
    · exact hlt
    · cases heq

/-- Deleting the last row of `a\n\nb` leaves two lines, which are written as one row. -/
theorem cut_last_row_misaligns :
    ((CompositionState.new (readSection [97, 10, 10, 98] [] [])).applyOperation
      (.cut (.line (.absolute 3 (by decide))) none 1) ⟨0, .span (.single 3 (by decide))⟩
      RegisterStore.new.stage).toOption.map (fun (next, _) =>
        (next.origins, next.current.snapshot.totalLines)) =
      some ([.original 1, .original 2], 1) := by
  decide

theorem run_origins_after_cut : ∃ next, Relation.ReflTransGen CompositionState.GoodStep
    (.new (readSection [97, 13, 10, 98, 13, 10] [] [])) next ∧
    next.origins = [.original 1] ∧ next.origins.length = next.current.snapshot.totalLines := by
  obtain ⟨next, registers, happly, horigins⟩ : ∃ next registers,
      (CompositionState.new (readSection [97, 13, 10, 98, 13, 10] [] [])).applyOperation
        (.cut (.line (.absolute 2 (by decide))) none 1) ⟨0, .span (.single 2 (by decide))⟩
        RegisterStore.new.stage = .ok (next, registers) ∧ next.origins = [.original 1] :=
    ⟨_, _, rfl, by decide⟩
  have hrun : Relation.ReflTransGen CompositionState.GoodStep
      (.new (readSection [97, 13, 10, 98, 13, 10] [] [])) next := by
    refine .single ⟨_, _, _, _, happly, fun address haddress => ?_⟩
    cases haddress
    exact ⟨fun h => absurd h (by decide), fun h => absurd h (by decide)⟩
  exact ⟨next, hrun, horigins, (run_origins hrun).1⟩

end Aft.Hashline
