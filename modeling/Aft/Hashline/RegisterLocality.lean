import Aft.Hashline.PlanRuns

/-!
# Whose captures a request sees

A request forks the registers of its session with whatever an earlier request left in the anonymous
one. Two sessions that differ only there plan the same files as long as the registers answer alike
until the first bare CUT (`planApply_local`); a PUT from the anonymous register before it pastes
what an earlier request cut (`planApply_pastes_earlier_cut`).
-/

namespace Aft.Hashline

open List Except PlanState RegisterStore

/-! ## Questions to the registers -/

/-- No bare CUT of the request has captured anything yet. -/
def StagedRegisters.Untaken (registers : StagedRegisters) : Prop :=
  ∀ write ∈ registers.writes, write.register ≠ .anonymous

def StagedRegisters.withAnonymous (registers : StagedRegisters)
    (anonymous : Option RegisterLines) : StagedRegisters :=
  { registers with working := { registers.working with anonymous := anonymous } }

def cutLines (lines : List String) : ResolvedAddress → Option RegisterLines
  | .span span => some (span.lines.map fun line => lines.getD (line - 1) "")
  | .wholeFile => if lines = [] then none
    else some ((List.range' 1 lines.length).map fun line => lines.getD (line - 1) "")
  | .gap _ | .blockAnchor _ | .blockGapAnchor _ _ => none

/-- Until the first bare CUT, the registers answer an operation alike with other lines in the
anonymous one. -/
def AsksAlike (anonymous : Option RegisterLines) (lines : List String) (registers : StagedRegisters)
    (operation : Operation) (resolved : ResolvedOperation) : Prop :=
  registers.Untaken →
    match operation with
    | .put _ (.register register) _ =>
      (registers.withAnonymous anonymous).readForPut register resolved.address.isSpan =
        registers.readForPut register resolved.address.isSpan
    | .cut _ register _ => ∀ captured, cutLines lines resolved.address = some captured →
      checkRegisterBounds (registers.withAnonymous anonymous).working (register.getD .anonymous)
          captured =
        checkRegisterBounds registers.working (register.getD .anonymous) captured
    | .put _ (.text _) _ | .rem _ | .mv _ _ => True

/-- Two forks that differ only in what earlier requests captured into the anonymous register. -/
structure Twin (anonymous : Option RegisterLines) (registers other : StagedRegisters) : Prop where
  writes : other.writes = registers.writes
  untaken : registers.Untaken → other.working = (registers.withAnonymous anonymous).working
  taken : ¬registers.Untaken → other.working = registers.working

variable {store : RegisterStore} {lines : List String} {operation : Operation}

/-- Results that are the same up to the forks that come with them. -/
def TwinResults {α : Type} (anonymous : Option RegisterLines) (x y : α × StagedRegisters) : Prop :=
  x.1 = y.1 ∧ Twin anonymous x.2 y.2

section Twin

variable {anonymous : Option RegisterLines} {registers other : StagedRegisters}
  {register : RegisterRef}

theorem namedFull_congr {store' : RegisterStore} (h : store'.named = store.named)
    (register : RegisterRef) : store'.namedFull register = store.namedFull register := by
  cases register with
  | anonymous => rfl
  | named name => rw [namedFull, namedFull, h]

theorem untaken_captured {lines : RegisterLines} :
    (registers.captured register lines).Untaken ↔
      registers.Untaken ∧ register ≠ .anonymous := by
  simp [StagedRegisters.Untaken, StagedRegisters.captured, or_imp, forall_and]

/-- The rest of two runs after results that are the same. -/
theorem bind_twins {α β : Type} {S : β → β → Prop} {x y : Except Rejection (α × StagedRegisters)}
    (h : Except.Agree (TwinResults anonymous) x y)
    {f g : α × StagedRegisters → Except Rejection β}
    (hfg : ∀ a next next', x = .ok (a, next) → Twin anonymous next next' →
      Except.Agree S (f (a, next)) (g (a, next'))) : Except.Agree S (x >>= f) (y >>= g) := by
  refine h.bind ?_
  rintro ⟨a, next⟩ ⟨b, next'⟩ hx ⟨heq, ht⟩
  obtain rfl : a = b := heq
  exact hfg a next next' hx ht

section

variable (h : Twin anonymous registers other)
include h

theorem Twin.named : other.working.named = registers.working.named := by
  by_cases ht : registers.Untaken
  · rw [h.untaken ht]
    rfl
  · rw [h.taken ht]

theorem Twin.readForPut {span : Bool}
    (hal : registers.Untaken → (registers.withAnonymous anonymous).readForPut register span =
      registers.readForPut register span) :
    other.readForPut register span = registers.readForPut register span := by
  by_cases ht : registers.Untaken
  · rw [← hal ht]
    unfold StagedRegisters.readForPut StagedRegisters.get
    rw [h.untaken ht]
  · unfold StagedRegisters.readForPut StagedRegisters.get
    rw [h.taken ht]

/-- A capture with the same verdict leaves forks that differ only in the anonymous register. -/
theorem Twin.capture {captured : RegisterLines} (hal : registers.Untaken →
      checkRegisterBounds (registers.withAnonymous anonymous).working register captured =
        checkRegisterBounds registers.working register captured) :
    Except.Agree (Twin anonymous) (registers.capture register captured)
      (other.capture register captured) := by
  have hb : checkRegisterBounds registers.working register captured =
      checkRegisterBounds other.working register captured := by
    by_cases ht : registers.Untaken
    · rw [← hal ht, h.untaken ht]
    · rw [h.taken ht]
  have hw : (other.captured register captured).writes =
      (registers.captured register captured).writes := congrArg (· ++ [_]) h.writes
  rw [capture_eq, capture_eq]
  refine (Except.Agree.of_eq hb).bind fun _ _ _ _ => ?_
  rw [namedFull_congr h.named]
  split_ifs with hf
  · exact .error _
  · refine .ok ⟨hw, fun hu => ?_, fun ht => ?_⟩
    · obtain ⟨hbe, hne⟩ := untaken_captured.1 hu
      cases register with
      | anonymous => exact absurd rfl hne
      | named name =>
        rw [StagedRegisters.captured, h.untaken hbe]
        rfl
    · cases register with
      | anonymous => exact congrArg (RegisterStore.mk · (some captured)) h.named
      | named name =>
        rw [untaken_captured, not_and_or] at ht
        rw [StagedRegisters.captured, h.taken (ht.resolve_right (by simp))]
        rfl

theorem Twin.lowerCutSpan {register : Option RegisterRef} {span : LineSpan} {opIndex : ℕ}
    (hal : registers.Untaken →
      checkRegisterBounds (registers.withAnonymous anonymous).working (register.getD .anonymous)
          (span.lines.map fun line => lines.getD (line - 1) "") =
        checkRegisterBounds registers.working (register.getD .anonymous)
          (span.lines.map fun line => lines.getD (line - 1) "")) :
    Except.Agree (TwinResults anonymous) (lowerCutSpan register span lines registers opIndex)
      (lowerCutSpan register span lines other opIndex) :=
  (h.capture hal).bind fun _ _ _ ht => .ok ⟨rfl, ht⟩

theorem Twin.lowerOperation {resolved : ResolvedOperation}
    (hal : AsksAlike anonymous lines registers operation resolved) :
    Except.Agree (TwinResults anonymous) (lowerOperation lines operation resolved registers)
      (lowerOperation lines operation resolved other) := by
  obtain ⟨opIndex, address⟩ := resolved
  cases operation with
  | put location source line =>
    have hb : putBody source address registers = putBody source address other := by
      cases source with
      | text body => rfl
      | register register => exact (h.readForPut hal).symm
    refine Except.Agree.bind (R := Eq) ?_ fun edits _ _ hed => .ok ⟨hed, h⟩
    exact (Except.Agree.of_eq hb).bind fun body _ _ hb => .ok (by rw [hb])
  | cut location register line =>
    cases address with
    | span span => exact h.lowerCutSpan fun hu => hal hu _ rfl
    | wholeFile =>
      change Except.Agree _ (if hpos : 0 < lines.length then _ else _)
        (if hpos : 0 < lines.length then _ else _)
      split_ifs with hpos
      · exact h.lowerCutSpan fun hu => hal hu _ (if_neg (ne_nil_of_length_pos hpos))
      · exact .ok ⟨rfl, h⟩
    | gap _ | blockAnchor _ | blockGapAnchor _ _ => exact .error _
  | rem | mv => exact .error _

end

end Twin

/-! ## Sections -/

/-- The questions of the operations of a section are answered alike. -/
def LoweringAsksAlike (anonymous : Option RegisterLines) (lines : List String) :
    List (Operation × ResolvedOperation) → StagedRegisters → Prop
  | [], _ => True
  | (operation, resolved) :: rest, registers =>
    AsksAlike anonymous lines registers operation resolved ∧
      ∀ edits next, lowerOperation lines operation resolved registers = .ok (edits, next) →
        LoweringAsksAlike anonymous lines rest next

def SectionAsksAlike (anonymous : Option RegisterLines) (baseline : Baseline)
    (operations : List Operation) (resolved : List ResolvedOperation)
    (registers : StagedRegisters) : Prop :=
  ∀ lines, baselineLines baseline = .ok lines →
    LoweringAsksAlike anonymous lines (operations.zip resolved) registers

variable {operations : List (Operation × ResolvedOperation)} {requestedPath : String}
  {canonicalPath : PathBuf} {baseline : Baseline} {resolved : List ResolvedOperation}
  {input : SectionPlanInput}

variable {state : CompositionState}

section Sections

variable {anonymous : Option RegisterLines} {registers other : StagedRegisters}

theorem Twin.lowerOperations (h : Twin anonymous registers other)
    (hal : LoweringAsksAlike anonymous lines operations registers) :
    Except.Agree (TwinResults anonymous) (lowerOperations lines operations registers)
      (lowerOperations lines operations other) := by
  induction operations generalizing registers other with
  | nil => exact .ok ⟨rfl, h⟩
  | cons pair rest ih =>
    refine bind_twins (h.lowerOperation hal.1) fun edits next next' hx ht => ?_
    exact bind_twins (ih ht (hal.2 _ _ hx)) fun more final final' _ ht => .ok ⟨rfl, ht⟩

theorem applySectionOps_eq (requestedPath : String) (canonicalPath : PathBuf) (baseline : Baseline)
    (operations : List Operation) (resolved : List ResolvedOperation)
    (registers : StagedRegisters) :
    applySectionOps requestedPath canonicalPath baseline operations resolved registers =
      if operations.length ≠ resolved.length then .error countMismatch
      else if operations.head?.any Operation.isRem then
        if operations.length ≠ 1 then .error (.parse "REM cannot be combined with other operations")
        else .ok (⟨canonicalPath, requestedPath, baseline.bytes, [], .default, true, [], []⟩,
          registers)
      else if operations.any Operation.isMv then
        .error (.parse "MV is not handled by the line-apply engine")
      else baselineLines baseline >>= fun lines =>
        lowerOperations lines (operations.zip resolved) registers >>= fun lowered =>
          .ok (linePlanned requestedPath canonicalPath baseline lines lowered.1, lowered.2) := by
  unfold applySectionOps planSectionLines
  by_cases hlen : operations.length ≠ resolved.length
  · rw [if_pos hlen, if_pos hlen]
    rfl
  rw [if_neg hlen, if_neg hlen]
  by_cases hrem : operations.head?.any Operation.isRem = true
  · rw [if_pos hrem]
    split_ifs <;> rfl
  rw [if_neg hrem, if_neg hrem]
  by_cases hmv : operations.any Operation.isMv = true
  · rw [if_pos hmv, if_pos hmv]
    rfl
  rw [if_neg hmv, if_neg hmv]
  cases baselineLines baseline with
  | error e => rfl
  | ok lines =>
    change (lowerOperations lines _ registers >>= _) >>= _ = lowerOperations lines _ registers >>= _
    cases lowerOperations lines (operations.zip resolved) registers with
    | error | ok => rfl

section

variable (h : Twin anonymous registers other)
include h

theorem Twin.applySectionOps {operations : List Operation}
    (hal : SectionAsksAlike anonymous baseline operations resolved registers) :
    Except.Agree (TwinResults anonymous)
      (applySectionOps requestedPath canonicalPath baseline operations resolved registers)
      (applySectionOps requestedPath canonicalPath baseline operations resolved other) := by
  rw [applySectionOps_eq, applySectionOps_eq]
  split_ifs
  · exact .error _
  · exact .error _
  · exact .ok ⟨rfl, h⟩
  · exact .error _
  · refine .bind_self _ fun lines hl => ?_
    exact bind_twins (h.lowerOperations (hal lines hl)) fun edits next next' _ ht => .ok ⟨rfl, ht⟩

def CompositionState.AsksAlike (anonymous : Option RegisterLines) (state : CompositionState)
    (registers : StagedRegisters) (operation : Operation) (resolved : ResolvedOperation) : Prop :=
  ∀ address, state.remapAddress resolved.address (operationLabel operation) = .ok address →
    SectionAsksAlike anonymous state.current [operation] [⟨resolved.operationIndex, address⟩]
      registers

theorem Twin.applyOperation {resolved : ResolvedOperation}
    (hal : state.AsksAlike anonymous registers operation resolved) :
    Except.Agree (TwinResults anonymous) (state.applyOperation operation resolved registers)
      (state.applyOperation operation resolved other) := by
  unfold CompositionState.applyOperation
  cases state.removedBy with
  | some previous => exact .error _
  | none =>
    refine .bind_self _ fun address had => ?_
    refine bind_twins (h.applySectionOps (hal address had)) fun planned next next' _ ht => ?_
    exact .bind_self _ fun updated _ => .ok ⟨rfl, ht⟩

theorem Twin.applyOperations
    (hal : state.OperationsMeet (CompositionState.AsksAlike anonymous) operations registers) :
    Except.Agree (TwinResults anonymous) (state.applyOperations operations registers)
      (state.applyOperations operations other) := by
  induction operations generalizing state registers other with
  | nil => exact .ok ⟨rfl, h⟩
  | cons pair rest ih =>
    exact bind_twins (h.applyOperation hal.1) fun middle next next' hx ht => ih ht (hal.2 _ _ hx)

theorem Twin.applySection (hal : state.OperationsMeet (CompositionState.AsksAlike anonymous)
      (input.operations.zip input.resolved) registers) :
    Except.Agree (TwinResults anonymous) (state.applySection input registers)
      (state.applySection input other) := by
  unfold CompositionState.applySection
  split_ifs
  · exact .error _
  · exact h.applyOperations hal

end

end Sections

/-! ## Patches -/

/-- The questions of a list of sections are answered alike, when planned from a state. -/
def SectionsAskAlike (anonymous : Option RegisterLines) (sections : List SectionPlanInput) :
    List SectionPlanInput → PlanState → Prop
  | [], _ => True
  | input :: rest, state =>
    (if sectionCount sections input.canonicalPath = 1 then
      SectionAsksAlike anonymous input.baseline input.operations input.resolved state.staged
    else ∀ composition, state.composition input = some composition →
      composition.OperationsMeet (CompositionState.AsksAlike anonymous)
        (input.operations.zip input.resolved) state.staged) ∧
    ∀ next, state.planSection sections input = .ok next →
      SectionsAskAlike anonymous sections rest next

/-- Until the first bare CUT, the registers answer a patch alike with other lines in the anonymous
one. -/
def PatchAsksAlike (anonymous : Option RegisterLines) (sections : List SectionPlanInput)
    (store : RegisterStore) : Prop :=
  SectionsAskAlike anonymous sections sections ⟨store.stage, [], .empty⟩

/-- Planning states that differ only in what earlier requests captured. -/
structure TwinPlans (anonymous : Option RegisterLines) (state other : PlanState) : Prop where
  staged : Twin anonymous state.staged other.staged
  slots : other.slots = state.slots
  slotByPath : other.slotByPath = state.slotByPath

section Patches

variable {anonymous : Option RegisterLines} {state other : PlanState}
  {sections : List SectionPlanInput}

section

variable (h : TwinPlans anonymous state other)
include h

theorem TwinPlans.planSingle
    (hal : SectionAsksAlike anonymous input.baseline input.operations input.resolved state.staged) :
    Except.Agree (TwinPlans anonymous) (state.planSingle input) (other.planSingle input) := by
  refine bind_twins (h.staged.applySectionOps hal) fun planned next next' _ ht => .ok ⟨ht, ?_, ?_⟩
  · exact congrArg (· ++ [_]) h.slots
  · change other.slotByPath.insert _ other.slots.length = _
    rw [h.slots, h.slotByPath]
    rfl

theorem TwinPlans.opened (input : SectionPlanInput) :
    TwinPlans anonymous (state.opened input) (other.opened input) := by
  unfold PlanState.opened
  rw [h.slotByPath]
  cases state.slotByPath.find? input.canonicalPath with
  | some i => exact h
  | none =>
    refine ⟨h.staged, congrArg (· ++ [_]) h.slots, ?_⟩
    change other.slotByPath.insert _ other.slots.length = _
    rw [h.slots, h.slotByPath]
    rfl

theorem TwinPlans.planRepeated (hal : ∀ composition, state.composition input = some composition →
      composition.OperationsMeet (CompositionState.AsksAlike anonymous)
        (input.operations.zip input.resolved) state.staged) :
    Except.Agree (TwinPlans anonymous) (state.planRepeated input) (other.planRepeated input) := by
  have ho := h.opened input
  have hs : other.slotOf input = state.slotOf input := by
    rw [slotOf, slotOf, ho.slotByPath]
  rw [planRepeated_eq, planRepeated_eq, hs, ho.slots]
  split
  · rename_i composition hs
    have hm := hal composition (composition_of_opened hs)
    exact bind_twins (h.staged.applySection hm) fun after next next' _ ht =>
      .ok ⟨ht, rfl, ho.slotByPath⟩
  · exact .error _

theorem TwinPlans.planSections {rest : List SectionPlanInput}
    (hal : SectionsAskAlike anonymous sections rest state) :
    Except.Agree (TwinPlans anonymous) (rest.foldlM (planSection sections) state)
      (rest.foldlM (planSection sections) other) := by
  induction rest generalizing state other with
  | nil => exact .ok h
  | cons input rest ih =>
    obtain ⟨hin, hr⟩ := hal
    have hs : Except.Agree (TwinPlans anonymous) (state.planSection sections input)
        (other.planSection sections input) := by
      unfold planSection
      split_ifs at hin ⊢ with hc
      · exact h.planSingle hin
      · exact h.planRepeated hin
    exact hs.bind fun next next' hn ht => ih ht (hr next hn)

end

theorem planApply_alike {other : RegisterStore} (hn : other.named = store.named)
    (hal : PatchAsksAlike other.anonymous sections store) :
    (planApply sections other).map ApplyPlan.files =
      (planApply sections store).map ApplyPlan.files := by
  have hs : TwinPlans other.anonymous ⟨store.stage, [], .empty⟩ ⟨other.stage, [], .empty⟩ := by
    refine ⟨⟨rfl, fun _ => ?_, fun ht => absurd (by simp [StagedRegisters.Untaken,
      stage]) ht⟩, rfl, rfl⟩
    exact congrArg (mk · other.anonymous) hn
  have hag : Except.Agree (fun plan plan' => plan.files = plan'.files) (planApply sections store)
      (planApply sections other) := by
    refine .bind_self _ fun _ _ => ?_
    refine (hs.planSections hal).bind fun final final' _ htw => ?_
    rw [htw.slots]
    exact .bind_self _ fun files _ => .ok rfl
  exact (hag.map_eq fun _ _ heq => heq).symm

end Patches

/-! ## The registers along a patch -/

def Operation.isBareCut : Operation → Bool
  | .cut _ register _ => register.getD .anonymous = .anonymous
  | _ => false

/-- What an accepted operation does to the registers. -/
def RegisterStep (registers : StagedRegisters) (operation : Operation) (next : StagedRegisters) :
    Prop :=
  operation.isRem = true ∧ next = registers ∨
    ∃ lines resolved edits, lowerOperation lines operation resolved registers = .ok (edits, next)

/-- The registers along accepted operations. -/
inductive RegisterRun : StagedRegisters → List Operation → StagedRegisters → Prop
  | nil (registers : StagedRegisters) : RegisterRun registers [] registers
  | cons {registers middle next operation operations}
      (hstep : RegisterStep registers operation middle)
      (hrun : RegisterRun middle operations next) :
      RegisterRun registers (operation :: operations) next

section Runs

variable {registers next : StagedRegisters}

theorem RegisterRun.append {operations more : List Operation} {final : StagedRegisters}
    (h : RegisterRun registers operations next) (hm : RegisterRun next more final) :
    RegisterRun registers (operations ++ more) final := by
  induction h with
  | nil => exact hm
  | cons hs _ ih => exact .cons hs (ih hm)

theorem registerRun_of_lowerOperations {edits : List LineEdit}
    (h : lowerOperations lines operations registers = .ok (edits, next)) :
    RegisterRun registers (operations.map Prod.fst) next := by
  induction operations generalizing registers edits with
  | nil =>
    cases h
    exact .nil _
  | cons pair rest ih =>
    obtain ⟨⟨first, middle⟩, hf, h⟩ := bind_eq_ok_iff.1 h
    obtain ⟨⟨more, final⟩, hm, h⟩ := bind_eq_ok_iff.1 h
    cases h
    exact .cons (.inr ⟨_, _, _, hf⟩) (ih hm)

theorem registerRun_of_applySectionOps {operations : List Operation} {planned : PlannedFile}
    (h : applySectionOps requestedPath canonicalPath baseline operations resolved registers =
      .ok (planned, next)) : RegisterRun registers operations next := by
  obtain ⟨hl, ⟨⟨line, rfl⟩, rfl, -⟩ | ⟨-, -, lines, edits, -, hlo, -⟩⟩ :=
    applySectionOps_eq_ok h
  · exact .cons (.inl ⟨rfl, rfl⟩) (.nil _)
  · have hrun := registerRun_of_lowerOperations hlo
    rwa [map_fst_zip hl.le] at hrun

theorem registerRun_of_applyOperations {final : CompositionState}
    (h : state.applyOperations operations registers = .ok (final, next)) :
    RegisterRun registers (operations.map Prod.fst) next := by
  induction operations generalizing state registers with
  | nil =>
    cases h
    exact .nil _
  | cons pair rest ih =>
    obtain ⟨⟨middle, registers'⟩, hf, hr⟩ := bind_eq_ok_iff.1 h
    obtain ⟨-, _, _, _, -, hp, -, -⟩ := applyOperation_eq_ok hf
    exact (registerRun_of_applySectionOps hp).append (ih hr)

variable {sections : List SectionPlanInput}

theorem registerRun_of_planSection {state after : PlanState}
    (h : state.planSection sections input = .ok after) :
    RegisterRun state.staged input.operations after.staged := by
  unfold planSection at h
  split_ifs at h
  · obtain ⟨planned, staged, hp, rfl⟩ := planSingle_eq_ok h
    exact registerRun_of_applySectionOps hp
  · obtain ⟨_, _, staged, -, hap, rfl⟩ := planRepeated_eq_ok_iff.1 h
    obtain ⟨hl, hap⟩ := CompositionState.applySection_eq_ok_iff.1 hap
    have hrun := registerRun_of_applyOperations hap
    rwa [map_fst_zip hl.le] at hrun

/-- The registers of a patch go through its operations in order. -/
theorem registerRun_of_planApply {plan : ApplyPlan} (h : planApply sections store = .ok plan) :
    RegisterRun store.stage (sections.flatMap SectionPlanInput.operations)
      plan.stagedRegisters := by
  obtain ⟨⟨⟩, -, h⟩ := bind_eq_ok_iff.1 h
  obtain ⟨final, hrun, h⟩ := bind_eq_ok_iff.1 h
  obtain ⟨files, -, h⟩ := bind_eq_ok_iff.1 h
  cases h
  refine foldlM_ok_induction (P := fun done state => RegisterRun store.stage
    (done.flatMap SectionPlanInput.operations) state.staged) hrun (.nil _) ?_
  intro done input state after hd hs
  rw [flatMap_append, flatMap_singleton]
  exact hd.append (registerRun_of_planSection hs)

theorem RegisterStep.anonymous_eq (h : RegisterStep registers operation next)
    (hb : operation.isBareCut = false) : next.working.anonymous = registers.working.anonymous := by
  have hc {register : Option RegisterRef} {captured : RegisterLines}
      (hb : decide (register.getD .anonymous = .anonymous) = false)
      (h : registers.capture (register.getD .anonymous) captured = .ok next) :
      next.working.anonymous = registers.working.anonymous := by
    rw [capture_eq] at h
    obtain ⟨-, -, h⟩ := bind_eq_ok_iff.1 h
    split_ifs at h
    cases h
    cases hr : register.getD .anonymous with
    | anonymous => simp [hr] at hb
    | named name => rfl
  rcases h with ⟨-, rfl⟩ | ⟨lines, ⟨opIndex, address⟩, edits, h⟩
  · rfl
  · cases operation with
    | put location source line =>
      obtain ⟨_, -, h⟩ := bind_eq_ok_iff.1 h
      cases h
      rfl
    | cut location register line =>
      cases address with
      | span span => exact hc hb (lowerCutSpan_eq_ok h).2
      | wholeFile =>
        change (if hpos : 0 < lines.length then _ else _) = _ at h
        split_ifs at h with hpos
        · exact hc hb (lowerCutSpan_eq_ok h).2
        · cases h
          rfl
      | gap _ | blockAnchor _ | blockGapAnchor _ _ => cases h
    | rem | mv => cases h

theorem RegisterStep.filled {location : Address} {line : ℕ}
    (h : RegisterStep registers (.put location (.register .anonymous) line) next) :
    registers.working.anonymous ≠ none := by
  intro hn
  rcases h with ⟨hrem, -⟩ | ⟨lines, resolved, edits, h⟩
  · cases hrem
  · obtain ⟨_, hl, -⟩ := bind_eq_ok_iff.1 h
    obtain ⟨body, hb, -⟩ := bind_eq_ok_iff.1 hl
    have hget : registers.get .anonymous = none := hn
    change registers.readForPut .anonymous _ = _ at hb
    unfold StagedRegisters.readForPut at hb
    rw [hget] at hb
    simp at hb

/-- Operations with a PUT from the anonymous register before the first bare CUT. -/
def PastesUnfilled (operations : List Operation) : Prop :=
  ∃ before location line after,
    operations = before ++ .put location (.register .anonymous) line :: after ∧
      ∀ operation ∈ before, operation.isBareCut = false

theorem RegisterRun.filled {operations : List Operation}
    (h : RegisterRun registers operations next) (hp : PastesUnfilled operations) :
    registers.working.anonymous ≠ none := by
  obtain ⟨before, location, line, after, rfl, hb⟩ := hp
  induction before generalizing registers with
  | nil =>
    cases h with
    | cons hs _ => exact hs.filled
  | cons operation before ih =>
    cases h with
    | cons hs hrun =>
      rw [← hs.anonymous_eq (hb operation mem_cons_self)]
      exact ih (fun other ho => hb other (mem_cons_of_mem _ ho)) hrun

end Runs

/-- Sessions that differ only in the anonymous register plan the same files, if the registers answer
alike until the first bare CUT; a PUT from the anonymous register before it is rejected unless both
hold a capture. -/
theorem planApply_local {sections : List SectionPlanInput} {store other : RegisterStore}
    (hnamed : other.named = store.named) (halike : PatchAsksAlike other.anonymous sections store) :
    (planApply sections other).map ApplyPlan.files =
        (planApply sections store).map ApplyPlan.files ∧
      (store.anonymous = none → PastesUnfilled (sections.flatMap SectionPlanInput.operations) →
        ∃ rejection, planApply sections other = .error rejection) := by
  have hfiles := planApply_alike hnamed halike
  refine ⟨hfiles, fun hnone hpastes => ?_⟩
  cases hother : planApply sections other with
  | error rejection => exact ⟨rejection, rfl⟩
  | ok plan =>
    rw [hother] at hfiles
    obtain ⟨plan', hplan', -⟩ := map_eq_ok_iff.1 hfiles.symm
    exact absurd hnone ((registerRun_of_planApply hplan').filled hpastes)

/-- A request that cuts row one of `a\nb\n`. -/
def cutRequest : List SectionPlanInput :=
  [readSection [97, 10, 98, 10] [.cut (.line (.absolute 1 (by decide))) none 1]
    [.span (.single 1 (by decide))]]

/-- A request that pastes the anonymous register after row one of `b\n`. -/
def pasteRequest : List SectionPlanInput :=
  [readSection [98, 10] [.put (.gap .after (.absolute 1 (by decide))) (.register .anonymous) 1]
    [.gap ⟨some 1, none⟩]]

/-- A fresh session rejects the paste; after the cut of an earlier request it is planned with the
cut row. -/
theorem planApply_pastes_earlier_cut :
    (planApply pasteRequest .new).map ApplyPlan.files =
      .error (.new .parseError .register "register is empty or unknown for this PUT") ∧
    (planApply cutRequest .new).toOption.map (fun plan =>
      let session := (commitRegistersIfComplete .new plan.stagedRegisters [.applied]).1
      (session.named, (planApply pasteRequest session).toOption.map fun next =>
        next.files.map PlannedFile.finalBytes)) =
      some (RegisterStore.new.named, some [[98, 10, 97, 10]]) := by
  decide

/-- A request that cuts row one of `a\nb\n` and pastes it after row two. -/
def cutAndPasteRequest : List SectionPlanInput :=
  [readSection [97, 10, 98, 10] [.cut (.line (.absolute 1 Nat.one_pos)) none 1,
    .put (.gap .after (.absolute 2 Nat.two_pos)) (.register .anonymous) 2]
    [.span (.single 1 Nat.one_pos), .gap ⟨some 2, none⟩]]

theorem planApply_local_after_cut :
    (planApply cutAndPasteRequest ⟨.empty, some ["x"]⟩).map ApplyPlan.files =
      (planApply cutAndPasteRequest .new).map ApplyPlan.files := by
  have halike : PatchAsksAlike (some ["x"]) cutAndPasteRequest .new := by
    refine ⟨fun lines hlines => ?_, fun _ _ => trivial⟩
    cases hlines
    refine ⟨fun _ captured hcaptured => ?_, fun edits next hnext =>
      ⟨fun huntaken => ?_, fun _ _ _ => trivial⟩⟩
    · cases hcaptured
      decide
    · cases hnext
      exact absurd rfl (huntaken ⟨.anonymous, ["a"]⟩ (by decide))
  have hnamed : (⟨.empty, some ["x"]⟩ : RegisterStore).named = RegisterStore.new.named := rfl
  exact (planApply_local hnamed halike).1

end Aft.Hashline
