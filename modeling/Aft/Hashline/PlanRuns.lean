import Aft.Hashline.Composition

/-!
# Runs of the planner

`planApply` verifies every section, then goes through the sections once and keeps one slot for each
path: the plan of its only section or the state that the operations of its sections lead to. A
condition on the states before those operations (`PlanMeets`) is carried along.
-/

namespace Aft.Hashline

open List Except Option

/-! ## Verification -/

variable {input : SectionPlanInput}

theorem verifySection_eq_ok (h : verifySectionAgainstPreRequestBaseline input = .ok ()) :
    ∀ resolved ∈ input.resolved,
      verifyExact input.snapshot input.baseline resolved.address = .exact := by
  intro resolved hr
  have hone := forM_eq_ok_iff.1 h resolved hr
  split at hone
  · assumption
  · cases hone
  · cases hone
  · cases hone

variable {rest : List SectionPlanInput} {common : SortedMap PathBuf Bytes}

theorem verifySections_cons {first : SectionPlanInput}
    (h : verifySections (first :: rest) common = .ok ()) :
    ∃ extended : SortedMap PathBuf Bytes,
      extended.find? first.canonicalPath = some first.baseline.bytes ∧
      (∀ path bytes, common.find? path = some bytes → extended.find? path = some bytes) ∧
      verifySectionAgainstPreRequestBaseline first = .ok () ∧
      verifySections rest extended = .ok () := by
  simp only [verifySections] at h
  cases hf : common.find? first.canonicalPath with
  | some existing =>
    simp only [hf] at h
    split_ifs at h with hne
    · cases h
    · obtain ⟨_, hs, h⟩ := bind_eq_ok_iff.1 h
      cases hs
      obtain ⟨⟨⟩, hv, hr⟩ := bind_eq_ok_iff.1 h
      exact ⟨common, by rw [hf, not_not.1 hne], fun _ _ hp => hp, hv, hr⟩
  | none =>
    simp only [hf] at h
    obtain ⟨_, hin, h⟩ := bind_eq_ok_iff.1 h
    cases hin
    obtain ⟨⟨⟩, hv, hr⟩ := bind_eq_ok_iff.1 h
    refine ⟨_, common.find?_insert_self _ _, fun path bytes hp => ?_, hv, hr⟩
    have hne : path ≠ first.canonicalPath := by
      rintro rfl
      rw [hf] at hp
      cases hp
    rwa [common.find?_insert_of_ne _ hne]

/-- Accepted sections are verified, and those of one path have one baseline. -/
theorem verifySections_eq_ok {sections : List SectionPlanInput}
    (h : verifySections sections common = .ok ()) :
    (∀ input ∈ sections, ∀ resolved ∈ input.resolved,
      verifyExact input.snapshot input.baseline resolved.address = .exact) ∧
    (∀ input ∈ sections, ∀ bytes, common.find? input.canonicalPath = some bytes →
      input.baseline.bytes = bytes) ∧
    ∀ input ∈ sections, ∀ other ∈ sections, input.canonicalPath = other.canonicalPath →
      input.baseline.bytes = other.baseline.bytes := by
  induction sections generalizing common with
  | nil => simp
  | cons first rest ih =>
    obtain ⟨extended, hs, hk, hv, hr⟩ := verifySections_cons h
    obtain ⟨hall, hc, hp⟩ := ih hr
    refine ⟨?_, ?_, ?_⟩
    · intro input hin
      rcases mem_cons.1 hin with rfl | hin
      · exact verifySection_eq_ok hv
      · exact hall input hin
    · intro input hin bytes hb
      rcases mem_cons.1 hin with rfl | hin
      · exact mem_unique hs (hk _ _ hb)
      · exact hc input hin bytes (hk _ _ hb)
    · intro input hin other ho hpa
      rcases mem_cons.1 hin with rfl | hmem <;>
        rcases mem_cons.1 ho with rfl | hmem'
      · rfl
      · exact (hc other hmem' _ (hpa ▸ hs)).symm
      · exact hc input hmem _ (hpa.symm ▸ hs)
      · exact hp input hmem other hmem' hpa

/-! ## The operations of a path -/

def AddressedIn (sections : List SectionPlanInput) (path : PathBuf) (operation : Operation)
    (resolved : ResolvedOperation) : Prop :=
  ∃ input ∈ sections, input.canonicalPath = path ∧
    (operation, resolved) ∈ input.operations.zip input.resolved

section Runs

variable (Q : CompositionState → StagedRegisters → Operation → ResolvedOperation → Prop)

/-- An accepted operation of a path that meets a condition on the state before it. -/
def PathStep (sections : List SectionPlanInput) (path : PathBuf) (state next : CompositionState) :
    Prop :=
  ∃ operation resolved registers registers', AddressedIn sections path operation resolved ∧
    state.applyOperation operation resolved registers = .ok (next, registers') ∧
    Q state registers operation resolved

def CompositionState.OperationsMeet (state : CompositionState) :
    List (Operation × ResolvedOperation) → StagedRegisters → Prop
  | [], _ => True
  | (operation, resolved) :: rest, registers =>
    Q state registers operation resolved ∧
      ∀ next registers', state.applyOperation operation resolved registers = .ok (next, registers') →
        next.OperationsMeet rest registers'

/-- The composition that a section of a path with several sections goes on with. -/
def PlanState.composition (state : PlanState) (input : SectionPlanInput) :
    Option CompositionState :=
  match state.slotByPath.find? input.canonicalPath with
  | none => some (.new input)
  | some slot =>
    match state.slots[slot]? with
    | some (.composing composition) => some composition
    | _ => none

/-- The operations of a list of sections meet the condition, when planned from a state. -/
def SectionsMeet (sections : List SectionPlanInput) : List SectionPlanInput → PlanState → Prop
  | [], _ => True
  | input :: rest, state =>
    (sectionCount sections input.canonicalPath ≠ 1 →
      ∀ composition, state.composition input = some composition →
        composition.OperationsMeet Q (input.operations.zip input.resolved) state.staged) ∧
      ∀ next, state.planSection sections input = .ok next → SectionsMeet sections rest next

/-- Every operation of a path with several sections meets the condition where it is applied. -/
def PlanMeets (sections : List SectionPlanInput) (sessionRegisters : RegisterStore) : Prop :=
  SectionsMeet Q sections sections ⟨sessionRegisters.stage, [], .empty⟩

inductive SlotHolds (sections : List SectionPlanInput) (path : PathBuf) : ApplyPlanSlot → Prop
  | complete {file input registers registers'} (hcount : sectionCount sections path = 1)
      (hmem : input ∈ sections) (hpath : input.canonicalPath = path)
      (hplanned : applySectionOps input.requestedPath input.canonicalPath input.baseline
        input.operations input.resolved registers = .ok (file, registers')) :
      SlotHolds sections path (.complete file)
  | composing {state input} (hcount : sectionCount sections path ≠ 1) (hmem : input ∈ sections)
      (hpath : input.canonicalPath = path)
      (hrun : Relation.ReflTransGen (PathStep Q sections path) (.new input) state) :
      SlotHolds sections path (.composing state)

variable {Q} {sections : List SectionPlanInput}

variable {next : CompositionState} {registers registers' : StagedRegisters}

theorem applyOperations_run {path : PathBuf} {operations : List (Operation × ResolvedOperation)}
    {state : CompositionState} (hmem : ∀ pair ∈ operations, AddressedIn sections path pair.1 pair.2)
    (hm : state.OperationsMeet Q operations registers)
    (h : state.applyOperations operations registers = .ok (next, registers')) :
    Relation.ReflTransGen (PathStep Q sections path) state next := by
  induction operations generalizing state registers with
  | nil =>
    cases h
    exact .refl
  | cons pair rest ih =>
    obtain ⟨operation, resolved⟩ := pair
    obtain ⟨⟨middle, registers''⟩, hf, hr⟩ := bind_eq_ok_iff.1 h
    obtain ⟨hQ, hn⟩ := hm
    refine .head ⟨operation, resolved, registers, registers'', hmem _ mem_cons_self, hf, hQ⟩ ?_
    exact ih (fun pair hp => hmem pair (mem_cons_of_mem _ hp)) (hn _ _ hf) hr

theorem canonicalPath_of_applySectionOps {requestedPath : String} {canonicalPath : PathBuf}
    {baseline : Baseline} {operations : List Operation} {resolved : List ResolvedOperation}
    {planned : PlannedFile}
    (h : applySectionOps requestedPath canonicalPath baseline operations resolved registers =
      .ok (planned, registers')) : planned.canonicalPath = canonicalPath := by
  obtain ⟨-, ⟨-, -, rfl⟩ | ⟨-, -, lines, edits, -, -, rfl⟩⟩ := applySectionOps_eq_ok h <;> rfl

theorem pathStep_frame {path : PathBuf} {state : CompositionState}
    (h : Relation.ReflTransGen (PathStep Q sections path) state next) :
    next.canonicalPath = state.canonicalPath ∧ next.requestedPath = state.requestedPath ∧
      next.original = state.original := by
  induction h with
  | refl => exact ⟨rfl, rfl, rfl⟩
  | tail _ hs ih =>
    obtain ⟨_, _, _, _, -, hap, -⟩ := hs
    obtain ⟨-, _, _, _, -, -, hu, rfl⟩ := applyOperation_eq_ok hap
    obtain ⟨hc, hr, ho⟩ := updateOrigins_frame hu
    exact ⟨hc.trans ih.1, hr.trans ih.2.1, ho.trans ih.2.2⟩

def ApplyPlanSlot.path : ApplyPlanSlot → PathBuf
  | .complete file => file.canonicalPath
  | .composing state => state.canonicalPath

variable {slot : ApplyPlanSlot}

theorem SlotHolds.path_eq {path : PathBuf} (h : SlotHolds Q sections path slot) :
    slot.path = path := by
  cases h with
  | complete _ _ hp hpl => exact (canonicalPath_of_applySectionOps hpl).trans hp
  | composing _ _ hp hrun => exact (pathStep_frame hrun).1.trans hp

variable (Q sections)

/-- The slots after some sections. -/
structure PlanState.Holds (done : List SectionPlanInput) (state : PlanState) : Prop where
  covered : ∀ input ∈ done, ∃ i, state.slotByPath.find? input.canonicalPath = some i
  known : ∀ path i, state.slotByPath.find? path = some i →
    ∃ input ∈ done, input.canonicalPath = path
  slot : ∀ path i, state.slotByPath.find? path = some i →
    ∃ slot, state.slots[i]? = some slot ∧ SlotHolds Q sections path slot
  owned : ∀ i slot, state.slots[i]? = some slot → ∃ path, state.slotByPath.find? path = some i

variable {Q sections}

variable {done : List SectionPlanInput} {state : PlanState}

section

variable (h : state.Holds Q sections done)
include h

theorem PlanState.Holds.withSlot (hn : state.slotByPath.find? input.canonicalPath = none)
    (hs : SlotHolds Q sections input.canonicalPath slot) (staged : StagedRegisters) :
    ({ state.withSlot input slot with staged := staged } : PlanState).Holds Q sections
      (done ++ [input]) := by
  have hse : (state.withSlot input slot).slotByPath.find? input.canonicalPath =
      some state.slots.length := state.slotByPath.find?_insert_self _ _
  have ho {path : PathBuf} (hne : path ≠ input.canonicalPath) :
      (state.withSlot input slot).slotByPath.find? path = state.slotByPath.find? path :=
    state.slotByPath.find?_insert_of_ne _ hne
  have hne {path : PathBuf} {i : ℕ} (hp : state.slotByPath.find? path = some i) :
      path ≠ input.canonicalPath := by
    rintro rfl
    rw [hn] at hp
    cases hp
  refine ⟨fun other hmem => ?_, fun path i hp => ?_, fun path i hp => ?_, fun i found hi => ?_⟩
  · rcases mem_append.1 hmem with hmem | hmem
    · obtain ⟨i, hi⟩ := h.covered other hmem
      exact ⟨i, (ho (hne hi)).trans hi⟩
    · rw [mem_singleton.1 hmem]
      exact ⟨_, hse⟩
  · by_cases hc : path = input.canonicalPath
    · exact ⟨input, mem_append_right _ (mem_singleton_self _), hc.symm⟩
    · obtain ⟨other, hmem, ho'⟩ := h.known path i ((ho hc).symm.trans hp)
      exact ⟨other, mem_append_left _ hmem, ho'⟩
  · by_cases hc : path = input.canonicalPath
    · obtain rfl : state.slots.length = i := mem_unique hse (hc ▸ hp)
      exact ⟨slot, getElem?_concat_length, hc ▸ hs⟩
    · obtain ⟨found, hf, hh⟩ := h.slot path i ((ho hc).symm.trans hp)
      refine ⟨found, ?_, hh⟩
      have hlt := (List.getElem?_eq_some_iff.1 hf).1
      exact (getElem?_append_left hlt).trans hf
  · rcases lt_trichotomy i state.slots.length with hlt | rfl | hgt
    · obtain ⟨path, hp⟩ := h.owned i found ((getElem?_append_left hlt).symm.trans hi)
      exact ⟨path, (ho (hne hp)).trans hp⟩
    · exact ⟨_, hse⟩
    · have hl : i < (state.slots ++ [slot]).length := (List.getElem?_eq_some_iff.1 hi).1
      rw [length_append, length_singleton] at hl
      omega

theorem PlanState.Holds.again {i : ℕ} (hf : state.slotByPath.find? input.canonicalPath = some i) :
    state.Holds Q sections (done ++ [input]) := by
  refine ⟨fun other hmem => ?_, fun path j hp => ?_, h.slot, h.owned⟩
  · rcases mem_append.1 hmem with hmem | hmem
    · exact h.covered other hmem
    · rw [mem_singleton.1 hmem]
      exact ⟨i, hf⟩
  · obtain ⟨other, hmem, ho⟩ := h.known path j hp
    exact ⟨other, mem_append_left _ hmem, ho⟩

theorem PlanState.Holds.set {path : PathBuf} {i : ℕ}
    (hf : state.slotByPath.find? path = some i) (hs : SlotHolds Q sections path slot)
    (staged : StagedRegisters) :
    ({ state with staged := staged, slots := state.slots.set i slot } : PlanState).Holds Q sections
      done := by
  obtain ⟨old, hold, hh⟩ := h.slot path i hf
  have hlt := (List.getElem?_eq_some_iff.1 hold).1
  refine ⟨h.covered, h.known, fun path' j hp => ?_, fun j found hj => ?_⟩
  · obtain ⟨found, hfo, hh'⟩ := h.slot path' j hp
    by_cases hij : i = j
    · subst hij
      obtain rfl := mem_unique hold hfo
      obtain rfl := hh.path_eq.symm.trans hh'.path_eq
      exact ⟨slot, getElem?_set_self hlt, hs⟩
    · exact ⟨found, (getElem?_set_ne hij).trans hfo, hh'⟩
  · have hj' : j < state.slots.length := by
      have := (List.getElem?_eq_some_iff.1 hj).1
      rwa [length_set] at this
    exact h.owned j _ (getElem?_eq_getElem hj')

end

theorem PlanState.planSingle_eq_ok {next : PlanState} (h : state.planSingle input = .ok next) :
    ∃ planned staged, applySectionOps input.requestedPath input.canonicalPath input.baseline
        input.operations input.resolved state.staged = .ok (planned, staged) ∧
      next = { state.withSlot input (.complete planned) with staged := staged } := by
  obtain ⟨⟨planned, staged⟩, hp, h⟩ := bind_eq_ok_iff.1 h
  exact ⟨planned, staged, hp, (ok.inj h).symm⟩

section

variable (state : PlanState) (input : SectionPlanInput)

def PlanState.opened : PlanState :=
  match state.slotByPath.find? input.canonicalPath with
  | some _ => state
  | none => state.withSlot input (.composing (.new input))

def PlanState.slotOf : ℕ :=
  ((state.opened input).slotByPath.find? input.canonicalPath).getD 0

theorem PlanState.planRepeated_eq :
    state.planRepeated input =
      match (state.opened input).slots[state.slotOf input]? with
      | some (.composing composition) => do
        let (composition, staged) ← composition.applySection input state.staged
        return { state.opened input with
          staged := staged
          slots := (state.opened input).slots.set (state.slotOf input) (.composing composition) }
      | _ => throw unreachableCode :=
  rfl

end

theorem PlanState.planRepeated_eq_ok_iff {next : PlanState} :
    state.planRepeated input = .ok next ↔ ∃ composition composition' staged,
      (state.opened input).slots[state.slotOf input]? = some (.composing composition) ∧
      composition.applySection input state.staged = .ok (composition', staged) ∧
      next = { state.opened input with
        staged := staged
        slots := (state.opened input).slots.set (state.slotOf input) (.composing composition') } := by
  rw [planRepeated_eq]
  constructor
  · intro h
    split at h
    · rename_i composition hs
      obtain ⟨⟨composition', staged⟩, hap, h⟩ := bind_eq_ok_iff.1 h
      exact ⟨composition, composition', staged, hs, hap, (ok.inj h).symm⟩
    · cases h
  · rintro ⟨composition, composition', staged, hs, hap, rfl⟩
    simp only [hs]
    exact bind_eq_ok_iff.2 ⟨_, hap, rfl⟩

theorem CompositionState.applySection_eq_ok_iff {state : CompositionState} :
    state.applySection input registers = .ok (next, registers') ↔
      input.operations.length = input.resolved.length ∧
        state.applyOperations (input.operations.zip input.resolved) registers =
          .ok (next, registers') := by
  unfold CompositionState.applySection
  split_ifs with hlen
  · simp [hlen]
  · simp [not_not.1 hlen]

theorem PlanState.composition_of_opened {composition : CompositionState}
    (h : (state.opened input).slots[state.slotOf input]? = some (.composing composition)) :
    state.composition input = some composition := by
  unfold PlanState.slotOf PlanState.opened at h
  unfold PlanState.composition
  cases hf : state.slotByPath.find? input.canonicalPath with
  | some i =>
    simp only [hf, getD_some] at h
    simp only [h]
  | none =>
    simp only [hf] at h
    rw [show (state.withSlot input (.composing (.new input))).slotByPath.find?
      input.canonicalPath = _ from state.slotByPath.find?_insert_self _ _] at h
    exact congrArg some (ApplyPlanSlot.composing.inj (mem_unique getElem?_concat_length h))

section

variable (h : state.Holds Q sections done)
include h

theorem PlanState.Holds.opened (hin : input ∈ sections)
    (hc : sectionCount sections input.canonicalPath ≠ 1) :
    (state.opened input).Holds Q sections (done ++ [input]) := by
  unfold PlanState.opened
  cases hf : state.slotByPath.find? input.canonicalPath with
  | some i => exact h.again hf
  | none => exact h.withSlot hf (.composing hc hin rfl .refl) state.staged

theorem PlanState.Holds.planSection {next : PlanState} (hs : sections = done ++ input :: rest)
    (hm : sectionCount sections input.canonicalPath ≠ 1 →
      ∀ composition, state.composition input = some composition →
        composition.OperationsMeet Q (input.operations.zip input.resolved) state.staged)
    (hp : state.planSection sections input = .ok next) :
    next.Holds Q sections (done ++ [input]) := by
  have hin : input ∈ sections := by
    rw [hs]
    exact mem_append_right _ mem_cons_self
  unfold PlanState.planSection at hp
  split_ifs at hp with hc
  · obtain ⟨planned, staged, hpl, rfl⟩ := planSingle_eq_ok hp
    refine h.withSlot ?_ (.complete hc hin rfl hpl) staged
    rw [eq_none_iff_forall_ne_some]
    intro i hi
    obtain ⟨other, ho, hpa⟩ := h.known _ i hi
    have hpos : 0 < done.countP fun other => other.canonicalPath = input.canonicalPath :=
      countP_pos_iff.2 ⟨other, ho, by simpa using hpa⟩
    rw [sectionCount, hs, countP_append, countP_cons_of_pos (by simp)] at hc
    omega
  · obtain ⟨composition, composition', staged, hsl, hap, rfl⟩ := planRepeated_eq_ok_iff.1 hp
    have hst := applyOperations_run (fun pair hpai => ⟨input, hin, rfl, hpai⟩)
      (hm hc composition (composition_of_opened hsl))
      (CompositionState.applySection_eq_ok_iff.1 hap).2
    have ho := h.opened hin hc
    obtain ⟨i, hi⟩ := ho.covered input (mem_append_right _ (mem_singleton_self _))
    rw [slotOf, hi, getD_some] at hsl ⊢
    obtain ⟨found, hfo, hh⟩ := ho.slot _ i hi
    obtain rfl := mem_unique hsl hfo
    cases hh with
    | composing _ hfi hpa hrun =>
      exact ho.set hi (.composing hc hfi hpa (hrun.trans hst)) staged

theorem PlanState.Holds.run {final : PlanState}
    (hs : sections = done ++ rest) (hm : SectionsMeet Q sections rest state)
    (hrun : rest.foldlM (PlanState.planSection sections) state = .ok final) :
    final.Holds Q sections sections := by
  induction rest generalizing done state with
  | nil =>
    cases hrun
    obtain rfl : sections = done := hs.trans (append_nil done)
    exact h
  | cons input rest ih =>
    obtain ⟨next, hn, hr⟩ := bind_eq_ok_iff.1 hrun
    refine ih (h.planSection hs hm.1 hn) ?_ (hm.2 next hn) hr
    rw [hs, append_assoc, singleton_append]

end

variable {sessionRegisters : RegisterStore} {plan : ApplyPlan}

section

variable (h : planApply sections sessionRegisters = .ok plan)
  (hm : PlanMeets Q sections sessionRegisters)
include h hm

/-- An accepted patch finishes the slots that its sections lead to. -/
theorem planApply_slots :
    verifySections sections .empty = .ok () ∧ ∃ final : PlanState, final.Holds Q sections sections ∧
      final.slots.length = plan.files.length ∧ ∀ (i : ℕ) slot file, final.slots[i]? = some slot →
        plan.files[i]? = some file → slot.finish = .ok file := by
  obtain ⟨⟨⟩, hv, h⟩ := bind_eq_ok_iff.1 h
  obtain ⟨final, hrun, h⟩ := bind_eq_ok_iff.1 h
  obtain ⟨files, hf, h⟩ := bind_eq_ok_iff.1 h
  cases h
  have hs : (⟨sessionRegisters.stage, [], .empty⟩ : PlanState).Holds Q sections [] :=
    ⟨by simp, by simp, by simp, by simp⟩
  exact ⟨hv, final, hs.run rfl hm hrun, forall₂_iff_getElem?.1 (mapM_eq_ok_iff.1 hf)⟩

/-- What an accepted patch plans. -/
theorem planApply_eq_ok :
    verifySections sections .empty = .ok () ∧
    (∀ input ∈ sections, ∃ slot file, SlotHolds Q sections input.canonicalPath slot ∧
      slot.finish = .ok file ∧ file ∈ plan.files) ∧
    ∀ file ∈ plan.files, ∃ path slot, (∃ input ∈ sections, input.canonicalPath = path) ∧
      SlotHolds Q sections path slot ∧ slot.finish = .ok file := by
  obtain ⟨hv, final, hh, hl, hf⟩ := planApply_slots h hm
  refine ⟨hv, fun input hin => ?_, fun file hfi => ?_⟩
  · obtain ⟨i, hi⟩ := hh.covered input hin
    obtain ⟨slot, hs, hsh⟩ := hh.slot _ i hi
    have hlt : i < plan.files.length := hl ▸ (List.getElem?_eq_some_iff.1 hs).1
    exact ⟨slot, plan.files[i], hsh, hf i _ _ hs (getElem?_eq_getElem hlt), getElem_mem hlt⟩
  · obtain ⟨i, hi⟩ := getElem?_of_mem hfi
    have hlt : i < final.slots.length := hl.symm ▸ (List.getElem?_eq_some_iff.1 hi).1
    have hs := getElem?_eq_getElem hlt
    obtain ⟨path, hp⟩ := hh.owned i _ hs
    obtain ⟨slot, hs', hsh⟩ := hh.slot path i hp
    obtain rfl := mem_unique hs hs'
    exact ⟨path, _, hh.known path i hp, hsh, hf i _ _ hs hi⟩

end

theorem SectionsMeet.always
    (hQ : ∀ state registers operation resolved, Q state registers operation resolved) :
    SectionsMeet Q sections rest state := by
  have hm (composition : CompositionState) (operations : List (Operation × ResolvedOperation))
      (registers : StagedRegisters) : composition.OperationsMeet Q operations registers := by
    induction operations generalizing composition registers with
    | nil => trivial
    | cons pair operations ih => exact ⟨hQ _ _ _ _, fun next registers' _ => ih next registers'⟩
  induction rest generalizing state with
  | nil => trivial
  | cons input rest ih => exact ⟨fun _ composition _ => hm composition _ _, fun next _ => ih⟩

end Runs

end Aft.Hashline
