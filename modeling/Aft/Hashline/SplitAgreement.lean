import Aft.Hashline.SplitSections

/-!
# Split and merged patches

Planning the changes of a path in several sections agrees with planning them in one, when the
sequence is `Splittable`. Other sequences need not agree (`planApply_split_disagrees`).
-/

namespace Aft.Hashline

open List Except PlanState CompositionState

/-! ## Sequences of changes -/

/-- Changes that can be split into sections: each follows the earlier ones, and every document on
the way survives being written and scanned. -/
structure Splittable (baseline : Baseline) (lines : List String) (changes : List LineChange) :
    Prop where
  nonempty : changes ≠ []
  within : ∀ change ∈ changes, change.Within lines.length
  follows : ∀ earlier change later, changes = earlier ++ change :: later → change.Follows earlier
  reencodes : ∀ earlier change later, changes = earlier ++ change :: later → earlier ≠ [] →
    Reencodes (terminatorPolicy baseline.snapshot.records) (handMerged lines earlier)

/-- A state between the sections of a split. -/
def Midway (baseline : Baseline) (lines : List String) (changes : List LineChange)
    (state : CompositionState) : Prop :=
  (changes = [] ∧ Composed baseline lines changes state) ∨
    (changes ≠ [] ∧ Written baseline lines changes state)

variable {operations : List (Operation × ResolvedOperation)}
  {registers registers' : StagedRegisters} {edits : List LineEdit} {input : SectionPlanInput}

section Sequence

variable {baseline : Baseline} {lines : List String} {changes done : List LineChange}
  {state : CompositionState}

variable {later : List LineChange}

section

variable (h : Midway baseline lines done state) (hs : Splittable baseline lines changes)
  (ha : Admissible lines changes)
include h hs ha

theorem Midway.composed {change : LineChange} (hc : changes = done ++ change :: later) :
    Composed baseline lines done state := by
  rcases h with ⟨-, h⟩ | ⟨hne, h⟩
  · exact h
  · exact h.composed (hc ▸ ha).left (hs.reencodes done change later hc hne)

theorem Midway.run {middle : List LineChange} (hd : Describes operations middle)
    (hc : changes = done ++ (middle ++ later))
    (hm : state.OperationsMeet CompositionState.Quiet operations registers)
    (hlo : lowerOperations lines operations registers = .ok (edits, registers')) :
    ∃ next, state.applyOperations operations registers = .ok (next, registers') ∧
      Midway baseline lines (done ++ middle) next := by
  induction hd generalizing done state registers edits with
  | nil =>
    cases hlo
    exact ⟨state, rfl, by rwa [append_nil]⟩
  | @cons pair change operations middle hch _ ih =>
    obtain ⟨⟨first, registers''⟩, hf, hlo⟩ := bind_eq_ok_iff.1 hlo
    obtain ⟨⟨more, final⟩, hmo, hlo⟩ := bind_eq_ok_iff.1 hlo
    cases hlo
    rw [cons_append] at hc
    have hco : changes = done ++ [change] ++ (middle ++ later) := by
      rw [hc, append_assoc, singleton_append]
    obtain ⟨next, hap, hw⟩ := (h.composed hs ha hc).step hch (hco ▸ ha).left
      (hs.follows _ _ _ hc) hm.1 hf
    have hmi : Midway baseline lines (done ++ [change]) next := Or.inr ⟨by simp, hw⟩
    obtain ⟨final, hr, hfi⟩ := ih hmi hco (hm.2 _ _ hap) hmo
    refine ⟨final, bind_eq_ok_iff.2 ⟨_, hap, hr⟩, ?_⟩
    rwa [append_assoc] at hfi

end

theorem tagged_nil (lines : List String) : tagged lines [] =
    (List.range' 1 lines.length).map fun r => (lines.getD (r - 1) "", .original r) := by
  rw [map_eq_flatMap]
  refine flatMap_congr fun r hr => ?_
  obtain ⟨hpos, hlt⟩ := mem_range'_1.1 hr
  have hget : lines[r - 1]? = some (lines.getD (r - 1) "") := by
    rw [getD_eq_getElem?_getD, getElem?_eq_getElem (by omega)]
    rfl
  exact (append_nil _).trans (row_baselineDraft hget)

theorem handMerged_nil (lines : List String) : handMerged lines [] = lines := by
  change (tagged lines []).map Prod.fst = lines
  have hr := map_getD_middle [] lines []
  rw [append_nil] at hr
  rw [tagged_nil, map_map]
  exact hr

/-- The first section of a path starts from its baseline. -/
theorem midway_new (hl : baselineLines input.baseline = .ok lines) :
    Midway input.baseline lines [] (.new input) := by
  have hd : ∀ line, (new input).deletedBy.find? line ≠ none →
      ∃ span, .cut span ∈ ([] : List LineChange) ∧ line ∈ span.lines :=
    fun line hli => absurd rfl hli
  refine .inl ⟨rfl, ⟨rfl, ⟨rfl, rfl⟩, hd⟩, ?_, rfl, ?_⟩
  · rw [handMerged_nil]
    exact hl
  · have ht : input.baseline.snapshot.totalLines = lines.length := by
      have hle := congrArg length (baselineLines_eq_ok hl)
      rw [length_map, length_map] at hle
      rw [input.baseline.totalLines_eq, ← hle]
    rw [tagged_nil, map_map, new, ht]
    rfl

/-- The file that a split leaves has the bytes of its changes. -/
theorem Written.finish (h : Written baseline lines changes state)
    (hb : baselineLines baseline = .ok lines) (ha : Admissible lines changes) :
    ∃ file, state.finish = .ok file ∧ file.finalBytes = joinLines (handMerged lines changes)
      (terminatorPolicy baseline.snapshot.records).1
      (terminatorPolicy baseline.snapshot.records).2 := by
  obtain ⟨final, hf⟩ := exists_baselineLines ha.lf_notMem_handMerged
    (terminatorPolicy baseline.snapshot.records).1
    (terminatorPolicy baseline.snapshot.records).2
  rw [← h.bytes] at hf
  refine ⟨⟨state.canonicalPath, state.requestedPath, baseline.bytes, state.current.bytes,
    affectedFromLineDiff lines final, false, state.warnings, state.repairLayers⟩, ?_, ?_⟩
  · unfold CompositionState.finish
    rw [h.kept.2, h.original]
    simp only [hb, hf]
    rfl
  · exact congrArg Baseline.bytes h.bytes

end Sequence

/-! ## Sections of one path -/

def SectionPlanInput.part (merged : SectionPlanInput)
    (operations : List (Operation × ResolvedOperation)) : SectionPlanInput :=
  { merged with
    operations := operations.map Prod.fst
    resolved := operations.map Prod.snd }

/-- A planning state that goes on with one composition. -/
structure PlanState.Carries (plan : PlanState) (merged : SectionPlanInput)
    (composition : CompositionState) : Prop where
  next : ∀ part, plan.composition (merged.part part) = some composition
  slots : ∀ part, (plan.opened (merged.part part)).slots = [.composing composition]
  slot : ∀ part, (plan.opened (merged.part part)).slotByPath.find? merged.canonicalPath = some 0

section Sections

variable {merged : SectionPlanInput} {plan : PlanState} {composition : CompositionState}

theorem zip_part (merged : SectionPlanInput) (part : List (Operation × ResolvedOperation)) :
    (merged.part part).operations.zip (merged.part part).resolved = part := by
  have hzip := zip_unzip part
  rwa [unzip_eq_map] at hzip

theorem PlanState.carries_start (merged : SectionPlanInput) (staged : StagedRegisters) :
    (⟨staged, [], .empty⟩ : PlanState).Carries merged (.new merged) where
  next _ := rfl
  slots _ := rfl
  slot _ := SortedMap.find?_insert_self _ _ _

theorem PlanState.carries_of (hs : plan.slots = [.composing composition])
    (hsl : plan.slotByPath.find? merged.canonicalPath = some 0) : plan.Carries merged composition := by
  have ho (part : List (Operation × ResolvedOperation)) :
      plan.opened (merged.part part) = plan := by
    rw [PlanState.opened, show (merged.part part).canonicalPath = merged.canonicalPath from rfl, hsl]
  refine ⟨fun part => ?_, fun part => ?_, fun part => ?_⟩
  · rw [PlanState.composition, show (merged.part part).canonicalPath = merged.canonicalPath from rfl,
      hsl, hs]
    rfl
  · rw [ho, hs]
  · rw [ho, hsl]

variable {sections : List SectionPlanInput}

theorem PlanState.Carries.planSection (h : plan.Carries merged composition)
    (hc : sectionCount sections merged.canonicalPath ≠ 1)
    {part : List (Operation × ResolvedOperation)} {next : CompositionState}
    {staged : StagedRegisters}
    (hap : composition.applyOperations part plan.staged = .ok (next, staged)) :
    ∃ plan', plan.planSection sections (merged.part part) = .ok plan' ∧ plan'.staged = staged ∧
      plan'.slots = [.composing next] ∧ plan'.Carries merged next := by
  have hs : composition.applySection (merged.part part) plan.staged = .ok (next, staged) :=
    applySection_eq_ok_iff.2 ⟨by simp [SectionPlanInput.part], by rwa [zip_part]⟩
  have hsl : plan.slotOf (merged.part part) = 0 := congrArg (Option.getD · 0) (h.slot part)
  have hp : plan.planRepeated (merged.part part) = .ok { plan.opened (merged.part part) with
      staged := staged
      slots := [.composing next] } := by
    refine planRepeated_eq_ok_iff.2 ⟨composition, next, staged, ?_, hs, ?_⟩
    · rw [hsl, h.slots part]
      rfl
    · rw [hsl, h.slots part]
      rfl
  exact ⟨_, (if_neg hc).trans hp, rfl, rfl, carries_of rfl (h.slot part)⟩

variable {more : List (Operation × ResolvedOperation)}

theorem lowerOperations_append {lines : List String}
    (h : lowerOperations lines (operations ++ more) registers = .ok (edits, registers')) :
    ∃ first second middle, lowerOperations lines operations registers = .ok (first, middle) ∧
      lowerOperations lines more middle = .ok (second, registers') := by
  induction operations generalizing registers edits with
  | nil => exact ⟨[], edits, registers, rfl, h⟩
  | cons pair operations ih =>
    obtain ⟨⟨first, next⟩, hf, h⟩ := bind_eq_ok_iff.1 h
    obtain ⟨⟨rest, final⟩, hr, h⟩ := bind_eq_ok_iff.1 h
    cases h
    obtain ⟨firsts, second, middle, hfi, hs⟩ := ih hr
    exact ⟨_, second, middle, bind_eq_ok_iff.2 ⟨_, hf, bind_eq_ok_iff.2 ⟨_, hfi, rfl⟩⟩, hs⟩

theorem Describes.append {changes : List LineChange} (h : Describes (operations ++ more) changes) :
    ∃ first second, changes = first ++ second ∧ Describes operations first ∧
      Describes more second := by
  induction operations generalizing changes with
  | nil => exact ⟨[], changes, rfl, .nil, h⟩
  | cons pair operations ih =>
    obtain ⟨change, rest, hc, hr, rfl⟩ := forall₂_cons_left_iff.1 h
    obtain ⟨first, second, rfl, hf, hs⟩ := ih hr
    exact ⟨change :: first, second, rfl, .cons hc hf, hs⟩

variable {parts : List (List (Operation × ResolvedOperation))}

theorem PlanState.Carries.run {lines : List String} {changes done rest : List LineChange}
    (h : plan.Carries merged composition) (hm : Midway merged.baseline lines done composition)
    (hs : Splittable merged.baseline lines changes) (ha : Admissible lines changes)
    (hc : sectionCount sections merged.canonicalPath ≠ 1)
    (hd : Describes parts.flatten rest) (hch : changes = done ++ rest)
    (hme : SectionsMeet CompositionState.Quiet sections (parts.map merged.part) plan)
    (hlo : lowerOperations lines parts.flatten plan.staged = .ok (edits, registers')) :
    ∃ final last, (parts.map merged.part).foldlM (PlanState.planSection sections) plan = .ok final ∧
      (plan.slots = [.composing composition] ∨ parts ≠ [] → final.slots = [.composing last]) ∧
      Midway merged.baseline lines changes last := by
  induction parts generalizing plan composition done rest edits with
  | nil =>
    cases hd
    rw [append_nil] at hch
    exact ⟨plan, composition, rfl, fun hsl => hsl.resolve_right (not_not.2 rfl), hch ▸ hm⟩
  | cons part parts ih =>
    obtain ⟨middle, later, rfl, hp, hpa⟩ := hd.append
    obtain ⟨first, second, registers, hf, hse⟩ := lowerOperations_append hlo
    obtain ⟨hq, hn⟩ := hme
    have ho := hq hc composition (h.next part)
    rw [zip_part] at ho
    obtain ⟨next, hap, hr⟩ := hm.run hs ha hp hch ho hf
    obtain ⟨plan', hpl, rfl, hsl, hca⟩ := h.planSection hc hap
    rw [← append_assoc] at hch
    obtain ⟨final, last, hrun, hfi, hla⟩ :=
      ih hca hr hpa hch (hn _ hpl) hse
    refine ⟨final, last, ?_, fun _ => hfi (.inl hsl), hla⟩
    exact bind_eq_ok_iff.2 ⟨_, hpl, hrun⟩

/-- The sections of a split are verified with the section they come from. -/
theorem verifySections_parts (hv : ∀ pair ∈ parts.flatten,
      verifyExact merged.snapshot merged.baseline pair.2.address = .exact)
    {common : SortedMap PathBuf Bytes}
    (hc : ∀ bytes,
      common.find? merged.canonicalPath = some bytes → bytes = merged.baseline.bytes) :
    verifySections (parts.map merged.part) common = .ok () := by
  induction parts generalizing common with
  | nil => rfl
  | cons part parts ih =>
    have hp : verifySectionAgainstPreRequestBaseline (merged.part part) = .ok () := by
      refine forM_eq_ok_iff.2 fun resolved hr => ?_
      obtain ⟨pair, hpa, rfl⟩ := mem_map.1 hr
      have hexact : verifyExact (merged.part part).snapshot (merged.part part).baseline _ = _ :=
        hv pair (mem_append_left _ hpa)
      rw [hexact]
    have hre := fun pair hpa => hv pair (mem_append_right _ hpa)
    rw [map_cons, verifySections]
    cases hf : common.find? merged.canonicalPath with
    | some existing =>
      have hs := hc existing hf
      simp only [SectionPlanInput.part, hf, hs, ne_eq]
      exact bind_eq_ok_iff.2 ⟨_, rfl, bind_eq_ok_iff.2 ⟨_, hp, ih hre hc⟩⟩
    | none =>
      simp only [SectionPlanInput.part, hf]
      refine bind_eq_ok_iff.2 ⟨_, rfl, bind_eq_ok_iff.2 ⟨_, hp, ih hre ?_⟩⟩
      intro bytes hb
      rw [common.find?_insert_self] at hb
      exact (Option.some.inj hb).symm

/-- What an accepted patch of one section plans. -/
theorem planApply_single {store : RegisterStore} {plan : ApplyPlan}
    (h : planApply [merged] store = .ok plan) :
    verifySectionAgainstPreRequestBaseline merged = .ok () ∧
      ∃ planned staged, applySectionOps merged.requestedPath merged.canonicalPath merged.baseline
        merged.operations merged.resolved store.stage = .ok (planned, staged) ∧
        plan = ⟨[planned], staged⟩ := by
  obtain ⟨⟨⟩, hv, h⟩ := bind_eq_ok_iff.1 h
  obtain ⟨final, hrun, h⟩ := bind_eq_ok_iff.1 h
  obtain ⟨files, hf, h⟩ := bind_eq_ok_iff.1 h
  cases h
  obtain ⟨-, -, -, hv, -⟩ := verifySections_cons hv
  have hc : sectionCount [merged] merged.canonicalPath = 1 := by simp [sectionCount]
  obtain ⟨next, hn, hrun⟩ := bind_eq_ok_iff.1 hrun
  cases hrun
  rw [planSection, if_pos hc] at hn
  obtain ⟨planned, staged, hp, rfl⟩ := planSingle_eq_ok hn
  cases hf
  exact ⟨hv, planned, staged, hp, rfl⟩

end Sections

/-- Changes of different rows, with no gap beside a cut row, leave the same bytes in several
sections as in one, if no repair layer fires and they can be split. -/
theorem planApply_split {merged : SectionPlanInput}
    {parts : List (List (Operation × ResolvedOperation))} {changes : List LineChange}
    {lines : List String} {store : RegisterStore} {plan : ApplyPlan}
    (hparts : parts.flatten = merged.operations.zip merged.resolved) (hseveral : 1 < parts.length)
    (hnodup : (merged.resolved.map ResolvedOperation.operationIndex).Nodup)
    (hdescribes : Describes parts.flatten changes) (hindependent : Independent changes)
    (htexts : ∀ change ∈ changes, change.TextOk)
    (hlines : baselineLines merged.baseline = .ok lines)
    (hplan : planApply [merged] store = .ok plan)
    (hwarnings : ∀ file ∈ plan.files, file.warnings = [])
    (hquiet : PlanMeets CompositionState.Quiet (parts.map merged.part) store)
    (hsplittable : Splittable merged.baseline lines changes) :
    ∃ plan', planApply (parts.map merged.part) store = .ok plan' ∧
      plan'.files.map PlannedFile.finalBytes = plan.files.map PlannedFile.finalBytes := by
  obtain ⟨hverified, planned, staged, hplanned, rfl⟩ := planApply_single hplan
  have hnotRem : ¬ ∃ line, merged.operations = [.rem line] := by
    rintro ⟨line, hrem⟩
    obtain ⟨first, rest, rfl⟩ := exists_cons_of_ne_nil hsplittable.nonempty
    obtain ⟨pair, others, hpair, -, hflatten⟩ := forall₂_cons_right_iff.1 hdescribes
    have hmem : pair.1 ∈ merged.operations := by
      have hzip : (pair.1, pair.2) ∈ merged.operations.zip merged.resolved := by
        rw [← hparts, hflatten]
        exact mem_cons_self
      exact (of_mem_zip hzip).1
    rw [hrem, mem_singleton] at hmem
    rw [hmem] at hpair
    cases hpair
  obtain ⟨hlength, ⟨hrem, -⟩ | ⟨-, -, lines', edits, hlines', hlowered, rfl⟩⟩ :=
    applySectionOps_eq_ok hplanned
  · exact absurd hrem hnotRem
  obtain rfl := ok.inj (hlines.symm.trans hlines')
  have hadmissible : Admissible lines changes :=
    ⟨hindependent, hsplittable.within, htexts, fun line hline => lf_notMem_line hlines hline⟩
  have hindices : (parts.flatten.map fun pair => pair.2.operationIndex).Nodup := by
    have hsnd := map_snd_zip hlength.ge
    rw [← hsnd, map_map, ← hparts] at hnodup
    exact hnodup
  have hcount : sectionCount (parts.map merged.part) merged.canonicalPath ≠ 1 := by
    have hall : sectionCount (parts.map merged.part) merged.canonicalPath = parts.length := by
      rw [sectionCount]
      simp [SectionPlanInput.part]
    omega
  rw [← hparts] at hlowered
  have hfinal := finalLines_merged hdescribes hindices hsplittable.within hindependent hlowered
    (hwarnings _ (mem_singleton_self _))
  obtain ⟨final, last, hrun, hslots, hlast⟩ := (PlanState.carries_start merged store.stage).run
    (midway_new hlines) hsplittable hadmissible hcount hdescribes (nil_append _).symm hquiet hlowered
  obtain ⟨hempty, -⟩ | ⟨-, hwritten⟩ := hlast
  · exact absurd hempty hsplittable.nonempty
  obtain ⟨file, hfinish, hbytes⟩ := hwritten.finish hlines hadmissible
  have hverifiedParts : verifySections (parts.map merged.part) .empty = .ok () := by
    refine verifySections_parts (fun pair hpair => ?_) fun bytes hbytes => by cases hbytes
    rw [hparts] at hpair
    exact verifySection_eq_ok hverified pair.2 (of_mem_zip (a := pair.1) hpair).2
  have hfiles : final.slots.mapM ApplyPlanSlot.finish = .ok [file] := by
    rw [hslots (.inr (ne_nil_of_length_pos (by omega)))]
    exact mapM_eq_ok_iff.2 (.cons hfinish .nil)
  refine ⟨⟨[file], final.staged⟩, ?_, ?_⟩
  · exact bind_eq_ok_iff.2 ⟨_, hverifiedParts, bind_eq_ok_iff.2 ⟨_, hrun,
      bind_eq_ok_iff.2 ⟨_, hfiles, rfl⟩⟩⟩
  · rw [map_singleton, hbytes, ← hfinal]
    rfl

def emptiedRow : List (List (Operation × ResolvedOperation)) :=
  [[(.put (.line (.absolute 2 Nat.two_pos)) (.text [""]) 1, ⟨0, .span (.single 2 Nat.two_pos)⟩)],
    [(.put (.gap .after (.absolute 2 Nat.two_pos)) (.text ["X"]) 2, ⟨1, .gap ⟨some 2, none⟩⟩)]]

def emptiedRowChanges : List LineChange :=
  [.replace (.single 2 Nat.two_pos) [""] "PUT at patch line 1", .insert ⟨some 2, none⟩ ["X"]]

theorem describes_emptiedRow : Describes emptiedRow.flatten emptiedRowChanges :=
  .cons (by decide) (.cons (by decide) .nil)

theorem independent_emptiedRow : Independent emptiedRowChanges where
  disjoint := by
    refine .cons (fun other ho s _ t ht => ?_) (pairwise_singleton _ _)
    cases mem_singleton.1 ho
    cases ht
  gaps := by
    intro gap body _ span hs
    simp [emptiedRowChanges] at hs

/-- The last row of `a\nb` is emptied: without a final newline it is lost, and the text after it
goes to the start of the file. -/
theorem planApply_split_disagrees :
    Describes emptiedRow.flatten emptiedRowChanges ∧ Independent emptiedRowChanges ∧
    (planApply [(readSection [97, 10, 98] [] []).part emptiedRow.flatten] .new).toOption.map
      (fun plan => plan.files.map fun file => (file.finalBytes, file.warnings)) =
        some [([97, 10, 10, 88], [])] ∧
    (planApply (emptiedRow.map (readSection [97, 10, 98] [] []).part) .new).toOption.map
      (fun plan => plan.files.map fun file => (file.finalBytes, file.warnings)) =
        some [([88, 10, 97, 10], [])] :=
  ⟨describes_emptiedRow, independent_emptiedRow, by decide, by decide⟩

/-- With rows that end in CRLF the two operations can be split. -/
theorem planApply_split_crlf : ∃ plan plan',
    planApply [(readSection [97, 13, 10, 98, 13, 10] [] []).part emptiedRow.flatten] .new =
      .ok plan ∧
    planApply (emptiedRow.map (readSection [97, 13, 10, 98, 13, 10] [] []).part) .new = .ok plan' ∧
    plan'.files.map PlannedFile.finalBytes = plan.files.map PlannedFile.finalBytes := by
  obtain ⟨merged, hmerged⟩ : ∃ merged,
    merged = (readSection [97, 13, 10, 98, 13, 10] [] []).part emptiedRow.flatten := ⟨_, rfl⟩
  have hsplittable : Splittable merged.baseline ["a", "b"] emptiedRowChanges := by
    subst hmerged
    have hsplits {earlier later : List LineChange} {change : LineChange}
        (h : emptiedRowChanges = earlier ++ change :: later) :
        earlier = [] ∨ earlier = emptiedRowChanges.take 1 ∧ change = .insert ⟨some 2, none⟩ ["X"] := by
      rcases earlier with - | ⟨first, - | ⟨second, rest⟩⟩
      · exact .inl rfl
      · cases h
        exact .inr ⟨rfl, rfl⟩
      · cases rest <;> cases h
    refine ⟨by decide, ?_, fun earlier change later h => ?_, fun earlier change later h hne => ?_⟩
    · exact forall_mem_cons.2 ⟨le_rfl, forall_mem_singleton.2 ⟨le_rfl, rfl⟩⟩
    · rcases hsplits h with rfl | ⟨rfl, rfl⟩
      · cases change with
        | replace span body operation => exact fun gap body hgap => by cases hgap
        | cut span => trivial
        | insert gap body => exact .inr fun span body operation hspan => by cases hspan
      · refine .inr fun span body operation _ _ other text hother => ?_
        simp [emptiedRowChanges] at hother
    · obtain rfl := ((hsplits h).resolve_left hne).1
      exact ⟨by decide, by decide, by decide⟩
  have htexts : ∀ change ∈ emptiedRowChanges, change.TextOk :=
    forall_mem_cons.2 ⟨⟨by decide, by decide⟩, forall_mem_singleton.2 ⟨by decide, by decide⟩⟩
  obtain ⟨plan, hplan, hwarnings⟩ : ∃ plan, planApply [merged] .new = .ok plan ∧
      ∀ file ∈ plan.files, file.warnings = [] := by
    subst hmerged
    exact ⟨_, rfl, by decide⟩
  have hquiet : PlanMeets CompositionState.Quiet (emptiedRow.map merged.part) .new := by
    subst hmerged
    refine ⟨fun _ composition hcomposition => ?_, fun next hnext => ?_⟩
    · cases hcomposition
      refine ⟨fun address lines edits registers haddress hlines hlowered => ?_, fun _ _ _ => trivial⟩
      cases haddress
      cases hlines
      cases hlowered
      decide
    · cases hnext
      refine ⟨fun _ composition hcomposition => ?_, fun _ _ => trivial⟩
      cases hcomposition
      refine ⟨fun address lines edits registers haddress hlines hlowered => ?_, fun _ _ _ => trivial⟩
      cases haddress
      cases hlines
      cases hlowered
      decide
  obtain ⟨plan', hplan', hbytes⟩ := planApply_split (by rw [hmerged]; rfl) (by decide)
    (by rw [hmerged]; decide) describes_emptiedRow independent_emptiedRow htexts
    (by rw [hmerged]; decide) hplan hwarnings hquiet hsplittable
  subst hmerged
  exact ⟨plan, plan', hplan, hplan', hbytes⟩

end Aft.Hashline
