import Aft.Views.LiveDelta

/-!
# Switching generations changes no answer

Between a cut and its swap every path is either touched, and then recorded in a journal after the
cut's version, or still has the entry and the patch of the cut (`Since`). A draft is right for the
untouched paths and `replayAndSwap` derives the others again, so the swap keeps the disk state of
every path, with a live entry exactly where it differs from the successor.
-/

namespace Aft.Views

open List SortedMap ComposedGeneration LiveDelta

variable {Path : Type} [LinearOrder Path]

/-! ## What happens between a cut and its swap -/

/-- How a delta can differ from an earlier one when no swap happened in between. -/
structure Since (before after : LiveDelta Path) : Prop where
  base : after.base = before.base
  version : before.version ≤ after.version
  entries : ∀ path, (∃ version ∈ after.observationJournal.find? path, before.version < version) ∨
    after.entries.find? path = before.entries.find? path
  readiness : ∀ path, (∃ version ∈ after.readinessJournal.find? path, before.version < version) ∨
    after.readiness.find? path = before.readiness.find? path

theorem Since.refl (delta : LiveDelta Path) : Since delta delta :=
  ⟨rfl, le_rfl, fun _ => .inr rfl, fun _ => .inr rfl⟩

variable {before : LiveDelta Path} {delta : LiveDelta Path} {after : LiveDelta Path}

section

variable (h : Since before delta)
include h

/-- A call that changes neither entries nor patches nor journals. -/
theorem Since.of_unchanged (hb : after.base = delta.base)
    (hv : delta.version ≤ after.version) (hen : after.entries = delta.entries)
    (hr : after.readiness = delta.readiness)
    (ho : after.observationJournal = delta.observationJournal)
    (hp : after.readinessJournal = delta.readinessJournal) : Since before after where
  base := hb.trans h.base
  version := h.version.trans hv
  entries := by rw [hen, ho]; exact h.entries
  readiness := by rw [hr, hp]; exact h.readiness

theorem Since.apply (path : Path) (entry : LiveEntry) : Since before (delta.apply path entry) where
  base := h.base
  version := h.version.trans (Nat.le_succ _)
  entries := by
    intro other
    by_cases ho : other = path
    · subst ho
      exact .inl ⟨_, find?_insert_self .., Nat.lt_succ_of_le h.version⟩
    · change (∃ version ∈ (delta.observationJournal.insert path _).find? other, _) ∨
        (delta.entries.put path _).find? other = _
      rw [find?_insert_of_ne _ _ ho, find?_put_of_ne _ _ ho]
      exact h.entries other
  readiness := h.readiness

theorem Since.setReadiness (path : Path) (patch : PlanePatch) :
    Since before (delta.setReadiness path patch) where
  base := h.base
  version := h.version.trans (Nat.le_succ _)
  entries := h.entries
  readiness := by
    intro other
    by_cases ho : other = path
    · subst ho
      exact .inl ⟨_, find?_insert_self .., Nat.lt_succ_of_le h.version⟩
    · change (∃ version ∈ (delta.readinessJournal.insert path _).find? other, _) ∨
        (delta.readiness.insert path patch).find? other = _
      rw [find?_insert_of_ne _ _ ho, find?_insert_of_ne _ _ ho]
      exact h.readiness other

theorem Since.perform (op : DeltaOp Path) : Since before (delta.perform op) := by
  cases op with
  | apply path entry => exact h.apply path entry
  | setReadiness path patch => exact h.setReadiness path patch
  | recordIntent path => exact h.of_unchanged rfl (Nat.le_succ _) rfl rfl rfl rfl
  | resolveIntent path intentVersion =>
    change Since before (delta.resolveIntent path intentVersion)
    unfold resolveIntent
    split
    · split_ifs
      · exact h.of_unchanged rfl le_rfl rfl rfl rfl rfl
      · exact h
    · exact h
  | setWatcher watcher =>
    change Since before (delta.setWatcher watcher)
    unfold setWatcher bumpEpoch
    split_ifs
    · exact h
    · exact h.of_unchanged rfl (Nat.le_succ _) rfl rfl rfl rfl
    · exact h.of_unchanged rfl (Nat.le_succ _) rfl rfl rfl rfl
  | bumpEpoch => exact h.of_unchanged rfl le_rfl rfl rfl rfl rfl

theorem Since.run (ops : List (DeltaOp Path)) : Since before (delta.run ops) :=
  foldlRecOn ops _ h fun _ hd op _ => hd.perform op

end

variable {path : Path}

/-- A path that is not replayed was neither observed nor patched since the cut. -/
theorem Since.unchanged (h : Since before after) (hp : path ∉ after.replayPaths before.version) :
    after.entries.find? path = before.entries.find? path ∧
      after.readiness.find? path = before.readiness.find? path := by
  simp only [replayPaths, mem_dedup, mem_append, mem_map, mem_filter,
    decide_eq_true_eq, not_or, not_exists, not_and, Prod.forall] at hp
  refine ⟨(h.entries path).resolve_left ?_, (h.readiness path).resolve_left ?_⟩
  · rintro ⟨version, hv, hlt⟩
    exact hp.1 path version ⟨find?_eq_some_iff.1 hv, hlt⟩ rfl
  · rintro ⟨version, hv, hlt⟩
    exact hp.2 path version ⟨find?_eq_some_iff.1 hv, hlt⟩ rfl

/-! ## Live entries of the successor -/

structure Tells (successor : ComposedGeneration Path) (path : Path) (seen : DiskState)
    (entry : Option LiveEntry) : Prop where
  disk : (entry.map LiveEntry.disk).getD (successor.diskState path) = seen
  live : entry.isSome ↔ seen ≠ successor.diskState path

variable {carry : Carry Path} {successor : ComposedGeneration Path}

section

variable (cut : DeltaCut Path) (successor : Shared (ComposedGeneration Path)) (carry : Carry Path)
  (path : Path)

theorem find?_entries_deriveSuccessor :
    (deriveSuccessor cut successor carry).entries.find? path =
      if path ∈ rebasePaths cut successor.value then
        let entry := (cut.entries.find? path).getD (carry path cut.base.value)
        if entry.disk = successor.value.diskState path then none else some entry
      else none :=
  find?_foldl_put _ _ _ _

theorem find?_readiness_deriveSuccessor :
    (deriveSuccessor cut successor carry).readiness.find? path =
      (cut.readiness.find? path).filter fun patch => patch.outlives path successor.value := by
  have hf : (deriveSuccessor cut successor carry).readiness.find? path =
      if path ∈ rebasePaths cut successor.value then
        (cut.readiness.find? path).filter fun patch => patch.outlives path successor.value
      else none := find?_foldl_put _ _ _ _
  rw [hf]
  split_ifs with hp
  · rfl
  · -- Every patched path of the cut is derived.
    simp only [rebasePaths, mem_dedup, mem_append, not_or, mem_keys_iff,
      Option.not_isSome_iff_eq_none] at hp
    simp [hp.1.2]

end

section

variable (hc : ∀ path generation, (carry path generation).disk = generation.diskState path)
include hc

/-- A re-derived path tells what the old delta shows. -/
theorem tells_rederived {old : Snapshot Path} (path : Path) :
    let entry := (old.entries.find? path).getD (carry path old.generation)
    Tells successor path (old.diskState path)
      (if entry.disk = successor.diskState path then none else some entry) := by
  intro entry
  have hs : entry.disk = old.diskState path := by
    simp only [entry, Snapshot.diskState]
    cases old.entries.find? path with
    | none => exact hc path _
    | some live => rfl
  split_ifs with hd
  · exact ⟨hd.symm.trans hs, by simp [← hs, hd]⟩
  · exact ⟨hs, by simp [← hs, hd]⟩

/-- The draft tells what the delta showed at the cut. -/
theorem tells_deriveSuccessor (delta : LiveDelta Path)
    (successor : Shared (ComposedGeneration Path)) (path : Path) :
    Tells successor.value path (delta.snapshot.diskState path)
      ((deriveSuccessor delta.cut successor carry).entries.find? path) := by
  rw [find?_entries_deriveSuccessor]
  split_ifs with hp
  · exact tells_rederived hc path
  · -- Neither live at the cut nor different between the generations.
    simp only [rebasePaths, mem_dedup, mem_append, not_or, mem_keys_iff,
      Option.not_isSome_iff_eq_none] at hp
    have hs : delta.snapshot.diskState path = successor.value.diskState path := by
      have hen : delta.snapshot.entries.find? path = none := hp.1.1
      simp only [Snapshot.diskState, hen]
      unfold diskState
      rw [← entry_eq_of_notMem_diffPaths hp.2]
      rfl
    exact ⟨hs.symm, by simp [hs]⟩

end

/-! ## The swap -/

theorem replayAndSwap_eq_ok {draft : SuccessorDraft Path}
    (h : delta.replayAndSwap draft carry = .ok after) :
    after.base = draft.successor ∧
    (∀ path, after.entries.find? path = if path ∈ delta.replayPaths draft.cutVersion then
        let entry := (delta.entries.find? path).getD (carry path delta.base.value)
        if entry.disk = draft.successor.value.diskState path then none else some entry
      else draft.entries.find? path) ∧
    ∀ path, after.readiness.find? path = if path ∈ delta.replayPaths draft.cutVersion then
        (delta.readiness.find? path).filter fun patch => patch.outlives path draft.successor.value
      else draft.readiness.find? path := by
  unfold replayAndSwap at h
  split_ifs at h
  cases h
  exact ⟨rfl, find?_foldl_put _ _ _, find?_foldl_put _ _ _⟩

section Swap

variable {delta after : LiveDelta Path} {ops : List (DeltaOp Path)}
  {successor : Shared (ComposedGeneration Path)} {carry carry' : Carry Path}

variable (h : (delta.run ops).replayAndSwap (deriveSuccessor delta.cut successor carry) carry' =
  .ok after)
include h

/-- After the swap the patches that say more than the successor remain. -/
theorem find?_readiness_swap (path : Path) :
    after.readiness.find? path = ((delta.run ops).readiness.find? path).filter
      fun patch => patch.outlives path successor.value := by
  have hs : Since delta (delta.run ops) := (Since.refl delta).run ops
  obtain ⟨-, -, hr⟩ := replayAndSwap_eq_ok h
  rw [hr]
  split_ifs with hp
  · rfl
  · rw [find?_readiness_deriveSuccessor, (hs.unchanged hp).2]
    rfl

variable (hc : ∀ path generation, (carry path generation).disk = generation.diskState path)
  (hc' : ∀ path generation, (carry' path generation).disk = generation.diskState path)
include hc hc'

/-- After the swap every path tells what the delta showed before it. -/
theorem tells_swap (path : Path) :
    Tells successor.value path ((delta.run ops).snapshot.diskState path)
      (after.entries.find? path) := by
  have hs : Since delta (delta.run ops) := (Since.refl delta).run ops
  obtain ⟨-, hen, -⟩ := replayAndSwap_eq_ok h
  rw [hen]
  split_ifs with hp
  · exact tells_rederived hc' path
  · have hse : (delta.run ops).snapshot.diskState path = delta.snapshot.diskState path := by
      simp only [Snapshot.diskState, snapshot, (hs.unchanged hp).1, hs.base]
    rw [hse]
    exact tells_deriveSuccessor hc delta successor path

theorem snapshot_diskState_swap (path : Path) :
    after.snapshot.diskState path = (delta.run ops).snapshot.diskState path := by
  rw [← (tells_swap h hc hc' path).disk]
  obtain ⟨hb, -, -⟩ := replayAndSwap_eq_ok h
  simp only [Snapshot.diskState, snapshot]
  cases after.entries.find? path with
  | none => exact congrArg (fun base => base.value.diskState path) hb
  | some entry => rfl

end Swap

/-! ## Membership -/

variable {snapshot : Snapshot Path}

namespace Snapshot

def member : DiskState → Option DiskState
  | .present content size => some (.present content size)
  | .absent => none

theorem find?_addMember (members : SortedMap Path DiskState) (row : Path × Entry) :
    (addMember members row).find? path = if path = row.1 then
      (member row.2.diskState).or (members.find? path) else members.find? path := by
  unfold addMember
  split_ifs with h
  · subst h
    cases row.2.diskState <;> simp [member]
  · cases row.2.diskState <;> simp [find?_insert_of_ne _ _ h]

theorem find?_generation_members (generation : ComposedGeneration Path) (path : Path) :
    (generation.entries.foldl addMember .empty).find? path = member (generation.diskState path) := by
  rw [find?_foldl Prod.fst (f := (member (generation.diskState path)).or)]
  · split_ifs with hmem
    · simp
    · unfold ComposedGeneration.diskState
      cases hen : generation.entry path with
      | none => rfl
      | some entry => exact absurd (mem_map_of_mem (mem_entries_iff.2 hen)) hmem
  · exact fun value => by rw [← Option.or_assoc, Option.or_self]
  · rintro ⟨other, entry⟩ hrow members
    rw [find?_addMember]
    split_ifs with h
    · subst h
      rw [ComposedGeneration.diskState, mem_entries_iff.1 hrow]
    · rfl

theorem overlayMember_eq_put (members : SortedMap Path DiskState) (row : Path × LiveEntry) :
    overlayMember members row = members.put row.1 (member row.2.disk) := by
  unfold overlayMember
  cases row.2.disk <;> rfl

theorem find?_membership (snapshot : Snapshot Path) (path : Path) :
    snapshot.membership.find? path = member (snapshot.diskState path) := by
  rw [membership, find?_foldl Prod.fst (f := fun _ => member (snapshot.diskState path))
    fun _ => rfl, find?_generation_members]
  · change (if path ∈ snapshot.entries.keys then _ else _) = _
    simp only [mem_keys_iff]
    unfold diskState
    cases snapshot.entries.find? path <;> simp
  · rintro ⟨other, entry⟩ hrow members
    rw [overlayMember_eq_put]
    split_ifs with h
    · subst h
      rw [find?_put_self, diskState, find?_eq_some_iff.2 hrow]
    · exact find?_put_of_ne _ _ h

end Snapshot

/-! ## Readiness -/

variable {plane : FamilyPlane} {state : PlaneState}

theorem patchState_eq_some_iff : snapshot.patchState path plane = some state ↔
      ∃ patch size, snapshot.readiness.find? path = some patch ∧
        snapshot.diskState path = .present patch.content size ∧
        patch.planes.get plane = some state := by
  unfold Snapshot.patchState
  cases hp : snapshot.readiness.find? path with
  | none => simp
  | some patch =>
    cases hd : snapshot.diskState path with
    | absent => simp
    | present content size =>
      dsimp only
      split_ifs with hc
      · simp [hc]
      · simp [hc]

theorem mem_all_of_get {planes : EntryPlanes} (h : planes.get plane = some state) :
    plane ∈ FamilyPlane.all := by
  cases plane <;> simp_all [FamilyPlane.all, EntryPlanes.get]

/-- A patch that the switch drops says what the successor says. -/
theorem planeReadiness_of_not_outlives {patch : PlanePatch}
    (h : patch.outlives path successor = false) (hs : patch.planes.get plane = some state) :
    (successor.entry path).bind Entry.content = some patch.content ∧
      successor.planeReadiness path plane = some state := by
  simp only [PlanePatch.outlives, Bool.or_eq_false_iff, decide_eq_false_iff_not, not_not,
    any_eq_false] at h
  refine ⟨h.1, ?_⟩
  have hp := h.2 plane (mem_all_of_get hs)
  simpa [hs] using hp

theorem diskState_of_content {generation : ComposedGeneration Path} {content : ContentHash}
    (h : (generation.entry path).bind Entry.content = some content) :
    ∃ size, generation.diskState path = .present content size := by
  obtain ⟨entry, hen, hc⟩ := Option.bind_eq_some_iff.1 h
  rw [diskState, hen]
  cases entry with
  | regular mode content' size =>
    obtain rfl := Option.some_inj.1 hc
    exact ⟨size, rfl⟩
  | symlink | gitlink | synthetic => cases hc

/-! ## The switch -/

/-- A successful switch keeps every disk state and the membership, leaves a live entry exactly where
the disk differs from the successor, and keeps the state that a patch gives to a plane, if equal
content hashes come with equal sizes. -/
theorem switch_keeps_answers (delta : LiveDelta Path) (ops : List (DeltaOp Path))
    (successor : Shared (ComposedGeneration Path)) (carry carry' : Carry Path)
    (hcarry : ∀ path generation, (carry path generation).disk = generation.diskState path)
    (hcarry' : ∀ path generation, (carry' path generation).disk = generation.diskState path)
    (after : LiveDelta Path)
    (h : (delta.run ops).replayAndSwap (deriveSuccessor delta.cut successor carry) carry' =
      .ok after) :
    (∀ path, after.snapshot.diskState path = (delta.run ops).snapshot.diskState path) ∧
    after.snapshot.membership = (delta.run ops).snapshot.membership ∧
    (∀ path, (after.entries.find? path).isSome ↔
      after.snapshot.diskState path ≠ successor.value.diskState path) ∧
    ∀ path plane state, (delta.run ops).snapshot.patchState path plane = some state →
      (∀ content size size', (delta.run ops).snapshot.diskState path = .present content size →
        successor.value.diskState path = .present content size' → size = size') →
      after.snapshot.planeReadiness path plane = some state := by
  have hdisk := snapshot_diskState_swap h hcarry hcarry'
  refine ⟨hdisk, SortedMap.ext_find? fun path => ?_, fun path => ?_,
    fun path plane state hstate hsize => ?_⟩
  · rw [Snapshot.find?_membership, Snapshot.find?_membership, hdisk]
  · rw [hdisk]
    exact (tells_swap h hcarry hcarry' path).live
  · obtain ⟨patch, size, hpatch, hseen, hget⟩ := patchState_eq_some_iff.1 hstate
    have hreadiness := find?_readiness_swap h path
    have hpatch' : (delta.run ops).readiness.find? path = some patch := hpatch
    rw [hpatch', Option.filter_some] at hreadiness
    cases houtlives : patch.outlives path successor.value with
    | true =>
      have hkept : after.snapshot.patchState path plane = some state :=
        patchState_eq_some_iff.2 ⟨patch, size, by simpa [houtlives, LiveDelta.snapshot] using hreadiness,
          (hdisk path).trans hseen, hget⟩
      simp [Snapshot.planeReadiness, hkept]
    | false =>
      obtain ⟨hcontent, hplane⟩ := planeReadiness_of_not_outlives houtlives hget
      obtain ⟨size', hsuccessor⟩ := diskState_of_content hcontent
      obtain rfl := hsize patch.content size size' hseen hsuccessor
      -- The successor has the content, so no live entry hides its state.
      have hdropped : after.snapshot.readiness.find? path = none := by
        simpa [houtlives, LiveDelta.snapshot] using hreadiness
      have hlive : after.snapshot.entries.find? path = none := by
        rw [← Option.not_isSome_iff_eq_none]
        exact fun hsome => (tells_swap h hcarry hcarry' path).live.1 hsome
          (hseen.trans hsuccessor.symm)
      have hbase : after.snapshot.generation = successor.value :=
        congrArg Shared.value (replayAndSwap_eq_ok h).1
      simp [Snapshot.planeReadiness, Snapshot.patchState, hdropped, hlive, hbase, hplane]

/-- A generation of one file, of content `7` and the given size, ready for the trigram plane. -/
def sizedGeneration (address size : ℕ) : Shared (ComposedGeneration ℕ) where
  address := address
  value := .new (.flat (SortedMap.empty.insert 0
    (.regular 33188 7 size none false { trigram := some (.ready "k") })))

/-- The file of `sizedGeneration` observed with content `7` and a size, after a patch for that
content. -/
def sizedDelta (size : ℕ) : LiveDelta ℕ :=
  (LiveDelta.setReadiness { base := sizedGeneration 0 1 } 0
    { content := 7, planes := { trigram := some (.ready "k") } }).apply 0
    { disk := .present 7 size, seq := 1 }

theorem switch_keeps_answers_sized :
    ∃ after : LiveDelta ℕ,
      ((sizedDelta 2).run []).replayAndSwap
        (deriveSuccessor (sizedDelta 2).cut (sizedGeneration 1 2) carryDiskStateOnly)
        carryDiskStateOnly = .ok after ∧
      after.snapshot.planeReadiness 0 .trigram = some (.ready "k") ∧
      after.snapshot.membership = (sizedDelta 2).snapshot.membership := by
  refine ⟨_, rfl, ?_, ?_⟩
  · exact (switch_keeps_answers (sizedDelta 2) [] (sizedGeneration 1 2) carryDiskStateOnly
      carryDiskStateOnly (fun _ _ => rfl) (fun _ _ => rfl) _ rfl).2.2.2 0 .trigram (.ready "k")
      (by decide +kernel) (by
        have hseen : ((sizedDelta 2).run []).snapshot.diskState 0 = .present 7 2 := by
          decide +kernel
        have hsuccessor : (sizedGeneration 1 2).value.diskState 0 = .present 7 2 := by
          decide +kernel
        rw [hseen, hsuccessor]
        simp +contextual)
  · exact (switch_keeps_answers (sizedDelta 2) [] (sizedGeneration 1 2) carryDiskStateOnly
      carryDiskStateOnly (fun _ _ => rfl) (fun _ _ => rfl) _ rfl).2.1

/-- With two sizes for one content hash a patch is dropped for a successor that a live entry still
hides. -/
theorem switch_drops_patch_of_other_size :
    ∃ after : LiveDelta ℕ,
      ((sizedDelta 2).run []).replayAndSwap
        (deriveSuccessor (sizedDelta 2).cut (sizedGeneration 1 1) carryDiskStateOnly)
        carryDiskStateOnly = .ok after ∧
      ((sizedDelta 2).run []).snapshot.patchState 0 .trigram = some (.ready "k") ∧
      after.snapshot.planeReadiness 0 .trigram = none :=
  ⟨_, rfl, by decide +kernel, by decide +kernel⟩

end Aft.Views
