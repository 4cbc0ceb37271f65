import Aft.Hashline.ApplySafety
import Aft.Hashline.TransactionLaw

/-!
# Plans of a transaction

What Phase 1 hands to Phase 2: one step for every path, in the order of the planned files, with the
destination of the section that moves it. Steps of different paths can only meet in a destination
that two sections name.
-/

namespace Aft.Hashline

open List TransactionSectionInput SortedMap PlannedStep

/-! ## Taking sections apart -/

/-- Where a section moves its path. -/
def TransactionSectionInput.move (input : TransactionSectionInput) :
    Option (PathBuf × MvDestinationInput) :=
  input.mvDestination.map fun destination => (input.canonicalPath, destination)

/-- The line operations of a section are planned with the rest of it unchanged. -/
def LinePart (input : TransactionSectionInput) (line : SectionPlanInput) : Prop :=
  ∃ mvLine, splitMv input.operations input.resolved =
      .ok (line.operations, line.resolved, mvLine) ∧
    mvLine.isSome = input.mvDestination.isSome ∧
    line = { input.toSectionPlanInput with
      operations := line.operations
      resolved := line.resolved }

variable {input : TransactionSectionInput} {line : SectionPlanInput}

theorem LinePart.path_eq (h : LinePart input line) : line.canonicalPath = input.canonicalPath := by
  obtain ⟨_, -, -, hl⟩ := h
  rw [hl]

theorem LinePart.baseline_eq (h : LinePart input line) : line.baseline = input.baseline := by
  obtain ⟨_, -, -, hl⟩ := h
  rw [hl]

/-- What the first loop has collected from some sections. -/
structure SectionSplit.Holds (done : List TransactionSectionInput) (split : SectionSplit) :
    Prop where
  lines : List.Forall₂ LinePart done split.lineSections
  sources : ∀ path, path ∈ split.sourcePaths ↔ ∃ input ∈ done, input.canonicalPath = path
  moves : (split.moves.entries.map fun entry => (entry.1, entry.2.destination)).Perm
    (done.filterMap TransactionSectionInput.move)

theorem SectionSplit.add_eq_ok {split next : SectionSplit} (h : split.add input = .ok next) :
    ∃ line, LinePart input line ∧ split.moves.find? input.canonicalPath = none ∧
      next.lineSections = split.lineSections ++ [line] ∧
      next.sourcePaths = input.canonicalPath :: split.sourcePaths ∧
      (input.mvDestination = none ∧ next.moves = split.moves ∨ ∃ destination label,
        input.mvDestination = some destination ∧
          next.moves = split.moves.insert input.canonicalPath ⟨destination, label⟩) := by
  unfold SectionSplit.add at h
  cases hm : split.moves.find? input.canonicalPath with
  | some previous =>
    rw [hm] at h
    cases h
  | none =>
    rw [hm] at h
    obtain ⟨⟨lineOps, lineResolved, mvLine⟩, hs, h⟩ := Except.bind_eq_ok_iff.1 h
    cases hd : input.mvDestination with
    | none =>
      rw [hd] at h
      cases mvLine with
      | none =>
        cases h
        exact ⟨_, ⟨none, hs, by rw [hd]; rfl, rfl⟩, rfl, rfl, rfl, .inl ⟨rfl, rfl⟩⟩
      | some line => cases h
    | some destination =>
      rw [hd] at h
      cases mvLine with
      | none => cases h
      | some line =>
        cases h
        exact ⟨_, ⟨some line, hs, by rw [hd]; rfl, rfl⟩, rfl, rfl, rfl, .inr ⟨_, _, rfl, rfl⟩⟩

theorem SectionSplit.Holds.add {done : List TransactionSectionInput} {split next : SectionSplit}
    (h : split.Holds done) (hn : split.add input = .ok next) : next.Holds (done ++ [input]) := by
  obtain ⟨line, hl, hnew, hli, hs, hm⟩ := SectionSplit.add_eq_ok hn
  refine ⟨?_, fun path => ?_, ?_⟩
  · rw [hli]
    exact rel_append h.lines (.cons hl .nil)
  · rw [hs, mem_cons, h.sources]
    simp [eq_comm, or_comm]
  · rw [filterMap_append]
    rcases hm with ⟨hd, hm⟩ | ⟨destination, label, hd, hm⟩
    · rw [hm]
      simpa [move, hd] using h.moves
    · rw [hm]
      refine ((split.moves.insert_perm _ _).map _).trans ?_
      rw [erase_eq_self hnew]
      refine (h.moves.cons _).trans ?_
      simpa [move, hd] using (perm_append_singleton _ _).symm

/-! ## Steps -/

variable {enabled : Bool} {moves : SortedMap PathBuf MergedMove}

theorem planSteps_eq_ok {files : List PlannedFile} {steps : List PlannedStep}
    (h : planSteps enabled moves files = .ok steps)
    (hn : (files.map PlannedFile.canonicalPath).Nodup) : steps = files.map (plannedStep moves) := by
  induction files generalizing moves steps with
  | nil => exact (Except.ok.inj h).symm
  | cons file rest ih =>
    obtain ⟨⟨⟩, -, h⟩ := Except.bind_eq_ok_iff.1 h
    obtain ⟨steps', hs, h⟩ := Except.bind_eq_ok_iff.1 h
    cases h
    rw [map_cons, nodup_cons] at hn
    rw [ih hs hn.2]
    refine congrArg _ (map_congr_left fun other ho => ?_)
    have hne : other.canonicalPath ≠ file.canonicalPath := fun heq =>
      hn.1 (heq ▸ mem_map_of_mem ho)
    unfold plannedStep
    rw [find?_erase_of_ne _ hne]

variable {session : RegisterStore}

/-- The files of a plan have different paths. -/
theorem planApply_nodup {sections : List SectionPlanInput} {plan : ApplyPlan}
    (h : planApply sections session = .ok plan) :
    (plan.files.map PlannedFile.canonicalPath).Nodup := by
  obtain ⟨-, final, hh, hl, hf⟩ :=
    planApply_slots (Q := fun _ _ _ _ => True) h (.always fun _ _ _ _ => trivial)
  have ho {i : ℕ} {file : PlannedFile} (hfi : plan.files[i]? = some file) :
      final.slotByPath.find? file.canonicalPath = some i := by
    have hlt : i < final.slots.length := hl.symm ▸ (List.getElem?_eq_some_iff.1 hfi).1
    have hs := getElem?_eq_getElem hlt
    obtain ⟨path, hp⟩ := hh.owned i _ hs
    obtain ⟨slot, hs', hsh⟩ := hh.slot path i hp
    obtain rfl := Option.mem_unique hs hs'
    rw [(slot_file hsh (hf i _ _ hs hfi)).1]
    exact hp
  refine pairwise_iff_getElem.2 fun i j hi hj hlt heq => ?_
  rw [length_map] at hi hj
  rw [getElem_map, getElem_map] at heq
  have hij := ho (getElem?_eq_getElem hi)
  rw [heq, ho (getElem?_eq_getElem hj)] at hij
  exact hlt.ne' (Option.some.inj hij)

structure TransactionPlanned (sections : List TransactionSectionInput) (split : SectionSplit)
    (applied : ApplyPlan) : Prop where
  holds : split.Holds sections
  checked : ∀ entry ∈ split.moves.entries, split.checkMove entry.1 entry.2 = .ok ()
  files : ∀ file ∈ applied.files, ∃ input ∈ sections, input.canonicalPath = file.canonicalPath
  covered : ∀ input ∈ sections, ∃ file ∈ applied.files, file.canonicalPath = input.canonicalPath
  nodup : (applied.files.map PlannedFile.canonicalPath).Nodup

variable {sections : List TransactionSectionInput}

theorem planTransaction_eq_ok {plan : TransactionPlan}
    (h : planTransaction sections session enabled = .ok plan) :
    ∃ split applied, TransactionPlanned sections split applied ∧
      planApply split.lineSections session = .ok applied ∧
      plan.steps = applied.files.map (plannedStep split.moves) := by
  unfold planTransaction at h
  split_ifs at h with hem
  · cases h
  obtain ⟨split, hs, h⟩ := Except.bind_eq_ok_iff.1 h
  obtain ⟨⟨⟩, hc, h⟩ := Except.bind_eq_ok_iff.1 h
  obtain ⟨applied, hap, h⟩ := Except.bind_eq_ok_iff.1 h
  obtain ⟨steps, hst, h⟩ := Except.bind_eq_ok_iff.1 h
  cases h
  have hh : split.Holds sections :=
    foldlM_ok_induction (P := fun done split => SectionSplit.Holds done split) hs
      ⟨.nil, by simp [SectionSplit.empty], by simp [SectionSplit.empty, empty]⟩
      fun done input s s' hd hadd => hd.add hadd
  have hn := planApply_nodup hap
  obtain ⟨-, hco, hf⟩ :=
    planApply_eq_ok (Q := fun _ _ _ _ => True) hap (.always fun _ _ _ _ => trivial)
  refine ⟨split, applied, ⟨hh, forM_eq_ok_iff.1 hc, fun file hfi => ?_,
    fun input hin => ?_, hn⟩, hap, planSteps_eq_ok hst hn⟩
  · obtain ⟨path, slot, ⟨line, hl, rfl⟩, hsl, hfin⟩ := hf file hfi
    obtain ⟨input, hin, hp⟩ := List.Forall₂.exists_of_mem_right hh.lines hl
    exact ⟨input, hin, hp.path_eq.symm.trans (slot_file hsl hfin).1.symm⟩
  · obtain ⟨line, hl, hp⟩ := List.Forall₂.exists_of_mem_left hh.lines hin
    obtain ⟨slot, file, hsl, hfin, hfi⟩ := hco line hl
    exact ⟨file, hfi, (slot_file hsl hfin).1.trans hp.path_eq⟩

def destinations (sections : List TransactionSectionInput) : List PathBuf :=
  sections.filterMap fun input => input.mvDestination.map MvDestinationInput.canonicalPath

/-- No two steps write or remove one path. -/
def DisjointSteps (steps : List PlannedStep) : Prop :=
  steps.Pairwise fun step later => step.paths.Disjoint later.paths

variable {file : PlannedFile} {path : PathBuf}

section Paths

variable {sections : List TransactionSectionInput} {split : SectionSplit} {applied : ApplyPlan}

theorem SectionSplit.Holds.destinations_perm (h : split.Holds sections) :
    (split.moves.entries.map fun entry => entry.2.destination.canonicalPath).Perm
      (destinations sections) := by
  have hp := h.moves.map fun move => move.2.canonicalPath
  rw [map_map, map_filterMap] at hp
  refine hp.trans (List.Perm.of_eq (filterMap_congr fun input _ => ?_))
  simp [move, Function.comp_def]

theorem plannedStep_paths : path ∈ (plannedStep moves file).paths ↔ path = file.canonicalPath ∨
      ∃ move, moves.find? file.canonicalPath = some move ∧
        path = move.destination.canonicalPath := by
  unfold plannedStep
  cases moves.find? file.canonicalPath <;> simp [paths, or_comm]

section

variable (h : TransactionPlanned sections split applied)
include h

theorem TransactionPlanned.destination_ne
    {other : PlannedFile} (ho : other ∈ applied.files) {move : MergedMove}
    (hm : split.moves.find? file.canonicalPath = some move) :
    move.destination.canonicalPath ≠ other.canonicalPath := by
  have hc := h.checked _ (find?_eq_some_iff.1 hm)
  obtain ⟨input, hin, hp⟩ := h.files other ho
  intro heq
  have hs : move.destination.canonicalPath ∈ split.sourcePaths :=
    (h.holds.sources _).2 ⟨input, hin, hp.trans heq.symm⟩
  rw [SectionSplit.checkMove] at hc
  split_ifs at hc

theorem TransactionPlanned.file_of_move
    {entry : PathBuf × MergedMove} (hen : entry ∈ split.moves.entries) :
    ∃ file ∈ applied.files, file.canonicalPath = entry.1 := by
  have hm : (entry.1, entry.2.destination) ∈ sections.filterMap move :=
    h.holds.moves.mem_iff.1 (mem_map_of_mem hen)
  obtain ⟨input, hin, hm⟩ := mem_filterMap.1 hm
  obtain ⟨file, hf, hp⟩ := h.covered input hin
  refine ⟨file, hf, hp.trans ?_⟩
  obtain ⟨destination, -, heq⟩ := Option.map_eq_some_iff.1 hm
  exact congrArg Prod.fst heq

/-- Steps can only meet in a destination that two sections name. -/
theorem TransactionPlanned.disjoint_iff :
    DisjointSteps (applied.files.map (plannedStep split.moves)) ↔ (destinations sections).Nodup := by
  rw [← h.holds.destinations_perm.nodup_iff, DisjointSteps, pairwise_map]
  constructor
  · intro hd
    refine List.Nodup.map_on (fun entry hen entry' he' heq => ?_)
      (List.Nodup.of_map _ split.moves.nodup_keys)
    obtain ⟨file, hf, hp⟩ := h.file_of_move hen
    obtain ⟨file', hf', hp'⟩ := h.file_of_move he'
    have hkey : entry.1 = entry'.1 := by
      by_contra hne
      have hs : Std.Symm fun a b : PlannedFile => (plannedStep split.moves a).paths.Disjoint
          (plannedStep split.moves b).paths := ⟨fun _ _ hab => hab.symm⟩
      have hfi : file ≠ file' := fun hsa => hne (by rw [← hp, ← hp', hsa])
      refine hd.forall hf hf' hfi
        (plannedStep_paths.2 (.inr ⟨entry.2, ?_, rfl⟩)) (plannedStep_paths.2 (.inr ⟨entry'.2, ?_, heq⟩))
      · rw [hp]
        exact find?_eq_some_iff.2 hen
      · rw [hp']
        exact find?_eq_some_iff.2 he'
    exact Prod.ext hkey (split.moves.eq_of_mem_of_mem (hkey ▸ hen) he')
  · intro hn
    have hpa := pairwise_map.1 h.nodup
    refine hpa.imp_of_mem fun {file other} hf ho hne path hp hp' => ?_
    rcases plannedStep_paths.1 hp with rfl | ⟨move, hm, rfl⟩ <;>
      rcases plannedStep_paths.1 hp' with heq | ⟨move', hm', heq⟩
    · exact hne heq
    · exact h.destination_ne hf hm' heq.symm
    · exact h.destination_ne ho hm heq
    · have hent := inj_on_of_nodup_map hn (find?_eq_some_iff.1 hm) (find?_eq_some_iff.1 hm') heq
      exact hne (congrArg Prod.fst hent)

end

end Paths

/-! ## Effects -/

/-- Bytes that are overwritten or removed are those that the plan recorded. -/
def DiskEffect.Accounted (effect : DiskEffect) : Prop :=
  ∀ bytes, effect.found = some bytes → effect.recorded = some bytes

/-- A new destination is not there. -/
def PlannedStep.Free (disk : Disk) : PlannedStep → Prop
  | .mutate _ => True
  | .mv move => move.destBaselineBytes = none → disk move.destCanonical = none

/-- As long as the steps find their baselines, new destinations are not there. -/
def DestinationsFree (disk : Disk) : List PlannedStep → Prop
  | [] => True
  | step :: rest => step.Matches disk →
      step.Free disk ∧ (step.Completes disk → DestinationsFree disk rest)

theorem accounted_of_matches {found : Option Bytes} {expected : Bytes}
    (h : baselineMatches true found expected = true) :
    DiskEffect.Accounted ⟨path, found, some expected⟩ := by
  rintro bytes rfl
  simp only [baselineMatches, Bool.true_and, decide_eq_true_eq] at h
  rw [h]

variable {disk : Disk}

theorem accounted_destination {move : PlannedMv} (hm : (mv move).Matches disk)
    (hf : (mv move).Free disk) :
    DiskEffect.Accounted ⟨move.destCanonical, disk move.destCanonical, move.destBaselineBytes⟩ := by
  cases hb : move.destBaselineBytes with
  | none =>
    rw [hf hb]
    rintro bytes ⟨⟩
  | some expected => exact accounted_of_matches (hm.2 expected hb)

def ExecState.Accounted (state : ExecState) : Prop := ∀ effect ∈ state.effects, effect.Accounted

variable {state : ExecState}

theorem ExecState.Accounted.put {recorded content : Option Bytes} (h : state.Accounted)
    (hef : DiskEffect.Accounted ⟨path, state.disk path, recorded⟩) :
    (state.put path recorded content).Accounted := by
  intro effect hmem
  rcases mem_append.1 hmem with hmem | hmem
  · exact h effect hmem
  · rwa [mem_singleton.1 hmem]

variable {maxDepth : ℕ} {next : ExecState}

theorem ExecState.Accounted.journaled (h : state.Accounted) (hn : Journaled maxDepth state next) :
    next.Accounted := by
  intro effect hmem
  exact h effect (hn.effects ▸ hmem)

variable {exec : StepExec} {step : PlannedStep}

/-- A step on paths of its own accounts for what it changes, if a new destination is free. -/
theorem StepCase.accounted (h : StepCase maxDepth step state exec next) (hn : step.paths.Nodup)
    (hf : step.Matches state.disk → step.Free state.disk) (hs : state.Accounted) :
    next.Accounted := by
  have ht {middle : ExecState} {content : Option Bytes} (hnex : Journaled maxDepth state middle)
      (hm : step.Matches state.disk) :
      (middle.put step.target.1 step.target.2 content).Accounted := by
    refine (hs.journaled hnex).put (hnex.disk.symm ▸ ?_)
    cases step with
    | mutate file => exact accounted_of_matches hm
    | mv move => exact accounted_destination hm (hf hm)
  cases h with
  | refused _ _ _ _ _ hnex => exact hs.journaled hnex
  | stopped _ _ _ _ _ _ _ _ hnex hm => exact ht hnex hm
  | applied _ _ _ _ _ hnex hm _ =>
    cases step with
    | mutate file => exact ht hnex hm
    | mv move =>
      refine (ht hnex hm).put (accounted_of_matches ?_)
      have hne : move.sourceCanonical ≠ (mv move).target.1 := fun hsa =>
        (nodup_cons.1 hn).1 (mem_singleton.2 hsa.symm)
      rw [hnex.disk_put hne]
      exact hm.1

section Runs

variable (ctx : ExecuteContext) {steps : List PlannedStep} {disk : Disk}

variable {disk' : Disk}

section

variable (hd : ∀ path ∈ step.paths, disk' path = disk path)
include hd

theorem PlannedStep.Matches.congr (h : step.Matches disk) : step.Matches disk' := by
  cases step with
  | mutate file =>
    have hf := hd _ (mem_singleton_self _)
    simp only [PlannedStep.Matches, hf]
    exact h
  | mv move =>
    have hde := hd _ mem_cons_self
    have hs := hd _ (mem_cons_of_mem _ (mem_singleton_self _))
    simp only [PlannedStep.Matches, hde, hs]
    exact h

theorem PlannedStep.Free.congr (h : step.Free disk) : step.Free disk' := by
  cases step with
  | mutate file => trivial
  | mv move => exact fun hnew => (hd _ mem_cons_self).trans (h hnew)

theorem PlannedStep.Completes.congr (h : step.Completes disk) : step.Completes disk' := by
  cases step with
  | mutate file => trivial
  | mv move =>
    have hs := hd _ (mem_cons_of_mem _ (mem_singleton_self _))
    simp only [PlannedStep.Completes, hs]
    exact h

end

theorem executeStep_frame {index : ℕ} (hd : ∀ later ∈ steps, step.paths.Disjoint later.paths)
    (hdi : ∀ later ∈ steps, ∀ path ∈ later.paths, state.disk path = disk path) :
    ∀ later ∈ steps, ∀ path ∈ later.paths,
      (executeStep ctx index step state).2.disk path = disk path := fun later hl path hp =>
  ((executeStep_spec ctx index step state).frame path fun hmem =>
    hd later hl hmem hp).trans (hdi later hl path hp)

theorem executeSteps_accounted (index : ℕ) (state : ExecState) (hn : ∀ step ∈ steps, step.paths.Nodup)
    (hd : DisjointSteps steps) (hf : DestinationsFree disk steps)
    (hdi : ∀ step ∈ steps, ∀ path ∈ step.paths, state.disk path = disk path)
    (hs : state.Accounted) : (executeSteps ctx index steps state).2.2.Accounted := by
  induction steps generalizing index state with
  | nil => exact hs
  | cons step rest ih =>
    obtain ⟨hfi, hr⟩ := pairwise_cons.1 hd
    have hse := hdi step mem_cons_self
    have hb : ∀ path ∈ step.paths, disk path = state.disk path :=
      fun path hp => (hse path hp).symm
    have hne : (executeStep ctx index step state).2.Accounted :=
      (executeStep_cases ctx index step state).accounted (hn step mem_cons_self)
        (fun hm => (hf (hm.congr hb)).1.congr hse) hs
    cases hap : (executeStep ctx index step state).1.isApplied with
    | true =>
      have hsp := executeStep_spec ctx index step state
      obtain ⟨-, hl⟩ := hf ((hsp.matched hap).congr hb)
      have hc := hsp.completes hap (hn step mem_cons_self)
      rw [executeSteps_applied hap]
      exact ih _ _ (fun later hmem => hn later (mem_cons_of_mem _ hmem)) hr
        (hl (hc.congr hb)) (executeStep_frame ctx hfi fun later hmem =>
          hdi later (mem_cons_of_mem _ hmem)) hne
    | false =>
      rw [(executeSteps_stopped hap).2]
      exact hne

theorem effects_subset_executeSteps (index : ℕ) (steps : List PlannedStep) (state : ExecState) :
    state.effects ⊆ (executeSteps ctx index steps state).2.2.effects := by
  induction steps generalizing index state with
  | nil => exact List.Subset.refl _
  | cons step rest ih =>
    have hs := (executeStep_spec ctx index step state).effects
    cases hap : (executeStep ctx index step state).1.isApplied with
    | true =>
      rw [executeSteps_applied hap]
      exact List.Subset.trans hs (ih _ _)
    | false =>
      rw [(executeSteps_stopped hap).2]
      exact hs

variable {ctx}

theorem executeMv_clear_effect {index : ℕ} {move : PlannedMv} (hf : ctx.fault = none)
    (hio : ctx.io index = .clear) (hm : (mv move).Matches state.disk) :
    ⟨move.destCanonical, state.disk move.destCanonical, move.destBaselineBytes⟩ ∈
      (executeStep ctx index (.mv move) state).2.effects := by
  rw [executeStep, executeMv_quiet hf (hio ▸ ⟨rfl, rfl, rfl, rfl⟩) hm, writeMv, hio]
  simp only [StepIo.clear, faultIs_of_none hf, Bool.false_eq_true]
  split_ifs <;> simp [ExecState.put]

/-- If a run without failures accounts for its effects, new destinations are free. -/
theorem destinationsFree_of_accounted (hf : ctx.fault = none) (hio : ∀ i, ctx.io i = .clear)
    (index : ℕ) (state : ExecState) (hd : DisjointSteps steps)
    (hdi : ∀ step ∈ steps, ∀ path ∈ step.paths, state.disk path = disk path)
    (hfi : (executeSteps ctx index steps state).2.2.Accounted) : DestinationsFree disk steps := by
  induction steps generalizing index state with
  | nil => trivial
  | cons step rest ih =>
    obtain ⟨hfir, hr⟩ := pairwise_cons.1 hd
    have hs := hdi step mem_cons_self
    intro hm
    have hm' := hm.congr hs
    constructor
    · have hsu : (executeStep ctx index step state).2.effects ⊆
          (executeSteps ctx index (step :: rest) state).2.2.effects := by
        cases hap : (executeStep ctx index step state).1.isApplied with
        | true =>
          rw [executeSteps_applied hap]
          exact effects_subset_executeSteps ctx _ _ _
        | false =>
          rw [(executeSteps_stopped hap).2]
          exact List.Subset.refl _
      cases step with
      | mutate file => trivial
      | mv move =>
        intro hnew
        have hef := hfi _ (hsu (executeMv_clear_effect hf (hio index) hm'))
        rw [← hs _ mem_cons_self, Option.eq_none_iff_forall_ne_some]
        intro bytes hb
        cases hnew.symm.trans (hef bytes hb)
    · intro hc
      have hap := (executeStep_clear hf (hio index) hm' (hc.congr hs)).1
      rw [executeSteps_applied hap] at hfi
      exact ih _ _ hr (executeStep_frame ctx hfir fun later hmem =>
        hdi later (mem_cons_of_mem _ hmem)) hfi

end Runs

theorem TransactionPlanned.nodup_paths {split : SectionSplit} {applied : ApplyPlan}
    (h : TransactionPlanned sections split applied) (hf : file ∈ applied.files) :
    (plannedStep split.moves file).paths.Nodup := by
  unfold plannedStep
  cases hm : split.moves.find? file.canonicalPath with
  | none => exact nodup_singleton _
  | some move => simpa [paths] using h.destination_ne hf hm

/-- The steps of a plan have their own paths and only replace or remove bytes that it recorded,
exactly when no two sections name one destination and no new destination has appeared. -/
theorem planTransaction_accounts_iff {sections : List TransactionSectionInput}
    {session : RegisterStore} {enabled : Bool} {plan : TransactionPlan}
    (h : planTransaction sections session enabled = .ok plan) (disk : Disk) :
    (DisjointSteps plan.steps ∧ ∀ (ctx : ExecuteContext) (session : RegisterStore),
        ∀ effect ∈ (executeTransaction plan ctx session disk).state.effects, effect.Accounted) ↔
      (destinations sections).Nodup ∧ DestinationsFree disk plan.steps := by
  obtain ⟨split, applied, hplanned, -, hsteps⟩ := planTransaction_eq_ok h
  rw [hsteps, hplanned.disjoint_iff, and_congr_right_iff]
  intro hdestinations
  have hdisjoint : DisjointSteps plan.steps := hsteps ▸ hplanned.disjoint_iff.2 hdestinations
  rw [← hsteps]
  constructor
  · intro haccounted
    let ctx : ExecuteContext := ⟨"", 0, none, fun _ => .clear⟩
    have hfault : ctx.fault = none := rfl
    exact destinationsFree_of_accounted hfault (fun _ => rfl) 0 ⟨disk, false, [], []⟩ hdisjoint
      (fun _ _ _ _ => rfl) (haccounted ctx session)
  · intro hfree ctx session
    refine executeSteps_accounted ctx 0 ⟨disk, false, [], []⟩ (fun step hstep => ?_) hdisjoint hfree
      (fun _ _ _ _ => rfl) (nofun)
    rw [hsteps] at hstep
    obtain ⟨file, hfile, rfl⟩ := mem_map.1 hstep
    exact hplanned.nodup_paths hfile

/-- A file moved to a path that was not there when the move was planned. -/
def newMove : List TransactionSectionInput := [moveSection ["a"] ["c"] [97, 10]]

/-- Bytes that have appeared at the destination since are overwritten. -/
theorem executeTransaction_overwrites_destination :
    (planTransaction newMove .new true).toOption.any (fun plan =>
      let disk : Disk := fun path => if path = ["a"] then some [97, 10] else some [120]
      let result := executeTransaction plan ⟨"op", 20, none, fun _ => .clear⟩ .new disk
      result.state.disk ["c"] = some [97, 10] ∧
        ⟨["c"], some [120], none⟩ ∈ result.state.effects) = true := by
  decide

theorem planTransaction_accounts_newMove :
    ∃ plan, planTransaction newMove .new true = .ok plan ∧
      ∀ (ctx : ExecuteContext) (session : RegisterStore),
        ∀ effect ∈ (executeTransaction plan ctx session
          fun path => if path = ["a"] then some [97, 10] else none).state.effects,
          effect.Accounted := by
  obtain ⟨plan, hplan⟩ : ∃ plan, planTransaction newMove .new true = .ok plan := ⟨_, rfl⟩
  refine ⟨plan, hplan, ((planTransaction_accounts_iff hplan _).2 ⟨by decide, ?_⟩).2⟩
  cases hplan
  exact fun _ => ⟨fun _ => rfl, fun _ => trivial⟩

end Aft.Hashline
