import Aft.Lib.SortedMap

/-!
# Published generations

A manifest lists the entries of a generation. A worker manifest holds its difference from a base
manifest: its own entries, tombstones for inherited paths, and readiness overrides for inherited
regular files, three disjoint sections. `ComposedGeneration` is the projection that readers use;
`entry` and `entries` agree (`mem_entries_iff`).
-/

namespace Aft.Views

open SortedMap

/-! ## Entries -/

inductive FamilyPlane
  | trigram
  | semantic
  | callgraph
  | symbol
  deriving Repr, DecidableEq

/-- `FamilyPlane::ALL`: the planes with a state in the manifest. -/
def FamilyPlane.all : List FamilyPlane := [trigram, semantic, callgraph]

/-- `FamilyPlane::V3_STORES`: every plane that can have a store. -/
def FamilyPlane.stores : List FamilyPlane := [trigram, semantic, callgraph, symbol]

inductive PlaneState
  | ready (key : String)
  | pending (reason : String)
  | failed (reason producer : String)
  deriving Repr, DecidableEq

/-- The states of one regular entry; `none` means that the plane does not apply. -/
structure EntryPlanes where
  trigram : Option PlaneState := none
  semantic : Option PlaneState := none
  callgraph : Option PlaneState := none
  deriving Repr, DecidableEq

def EntryPlanes.get (planes : EntryPlanes) : FamilyPlane → Option PlaneState
  | .trigram => planes.trigram
  | .semantic => planes.semantic
  | .callgraph => planes.callgraph
  | .symbol => none

/-- A hash of the bytes of a file. -/
abbrev ContentHash := BitVec 256

/-- `EntryV2`. -/
inductive Entry
  | regular (mode : ℕ) (content : ContentHash) (size : ℕ) (gitOid : Option String)
      (resolutionInput : Bool) (planes : EntryPlanes)
  | symlink (targetBytes : List UInt8)
  | gitlink (oid : String)
  | synthetic (name : String) (callgraph : PlaneState)
  deriving Repr, DecidableEq

def Entry.content : Entry → Option ContentHash
  | regular _ content _ _ _ _ => some content
  | _ => none

def Entry.planeState : Entry → FamilyPlane → Option PlaneState
  | regular _ _ _ _ _ planes, plane => planes.get plane
  | synthetic _ callgraph, .callgraph => some callgraph
  | _, _ => none

/-- `DiskState`: the last observed bytes of one path, by hash and length. -/
inductive DiskState
  | present (content : ContentHash) (size : ℕ)
  | absent
  deriving Repr, DecidableEq

/-- What an entry says about the bytes of its path: only a regular file has content. -/
def Entry.diskState : Entry → DiskState
  | regular _ content size _ _ _ => .present content size
  | _ => .absent

/-! ## Manifests -/

section Manifest

variable (Path : Type) [LinearOrder Path]

/-- `ManifestV2`. `worker` says that it has a base header; the three sections are disjoint and
only a worker has tombstones or overrides. -/
structure Manifest where
  entries : SortedMap Path Entry
  worker : Bool
  tombstones : Finset Path
  readinessOverrides : SortedMap Path EntryPlanes
  tombstones_disjoint : ∀ path ∈ tombstones, entries.find? path = none
  overrides_disjoint : ∀ path, (readinessOverrides.find? path).isSome →
    entries.find? path = none ∧ path ∉ tombstones
  sections_of_flat : worker = false → tombstones = ∅ ∧ readinessOverrides = .empty

end Manifest

variable {Path : Type} [LinearOrder Path]

namespace Manifest

/-- A manifest without a base that holds the given entries. -/
def flat (entries : SortedMap Path Entry) : Manifest Path where
  entries := entries
  worker := false
  tombstones := ∅
  readinessOverrides := .empty
  tombstones_disjoint := by simp
  overrides_disjoint := by simp
  sections_of_flat := fun _ => ⟨rfl, rfl⟩

/-- `ManifestV2::set`: insert or replace an entry, or remove the path, which leaves a tombstone in a
worker. -/
def set (manifest : Manifest Path) (path : Path) (entry : Option Entry) : Manifest Path where
  entries := manifest.entries.put path entry
  worker := manifest.worker
  tombstones := if entry.isNone && manifest.worker then insert path manifest.tombstones
    else manifest.tombstones.erase path
  readinessOverrides := manifest.readinessOverrides.erase path
  tombstones_disjoint := by
    intro other hother
    by_cases hpath : other = path
    · subst hpath
      cases entry <;> simp_all
    · rw [manifest.entries.find?_put_of_ne _ hpath]
      refine manifest.tombstones_disjoint other ?_
      split_ifs at hother <;> simp_all
  overrides_disjoint := by
    intro other hother
    by_cases hpath : other = path
    · subst hpath
      simp at hother
    · rw [manifest.readinessOverrides.find?_erase_of_ne hpath] at hother
      obtain ⟨hentry, htombstone⟩ := manifest.overrides_disjoint other hother
      refine ⟨(manifest.entries.find?_put_of_ne _ hpath).trans hentry, ?_⟩
      split_ifs <;> simp [hpath, htombstone]
  sections_of_flat := by
    intro hflat
    obtain ⟨htombstones, hoverrides⟩ := manifest.sections_of_flat hflat
    exact ⟨by simp [hflat, htombstones], by rw [hoverrides]; rfl⟩

end Manifest

/-! ## Composition -/

section Composed

variable (Path)

/-- `ComposedGeneration`: a flat manifest, or a worker manifest over a flat base, with the entries
that its readiness overrides change. -/
structure ComposedGeneration where
  delta : Manifest Path
  base : Option (Manifest Path)
  overrides : SortedMap Path Entry
  overrides_inherited : ∀ path, (overrides.find? path).isSome →
    (delta.readinessOverrides.find? path).isSome ∧ ∃ manifest ∈ base,
      (manifest.entries.find? path).isSome

end Composed

/-- The entry of a base with the states of an override in place of its own. -/
def Entry.withPlanes (entry : Entry) (patch : EntryPlanes) : Entry :=
  match entry with
  | .regular mode content size gitOid resolutionInput planes =>
    .regular mode content size gitOid resolutionInput {
      trigram := patch.trigram.or planes.trigram
      semantic := patch.semantic.or planes.semantic
      callgraph := patch.callgraph.or planes.callgraph }
  | other => other

def Entry.isRegular : Entry → Bool
  | .regular .. => true
  | _ => false

namespace ComposedGeneration

/-- `ComposedGeneration::new`, for a manifest without a base. -/
def new (manifest : Manifest Path) : ComposedGeneration Path where
  delta := manifest
  base := none
  overrides := .empty
  overrides_inherited := by simp

/-- The loop of `compose` over the readiness overrides. -/
def composeOverrides (base : Manifest Path) :
    List (Path × EntryPlanes) → Except String (SortedMap Path Entry)
  | [] => .ok .empty
  | (path, patch) :: rest =>
    match base.entries.find? path with
    | some entry =>
      if entry.isRegular then
        (composeOverrides base rest).map fun overrides =>
          overrides.insert path (entry.withPlanes patch)
      else .error "readiness override must name an inherited regular file"
    | none => .error "readiness override must name an inherited regular file"

variable {path : Path} {base : Manifest Path} {rows : List (Path × EntryPlanes)}
  {overrides : SortedMap Path Entry}

theorem find?_composeOverrides (h : composeOverrides base rows = .ok overrides) :
    overrides.find? path = ((rows.find? (·.1 = path)).map Prod.snd).bind fun patch =>
        (base.entries.find? path).map (·.withPlanes patch) := by
  induction rows generalizing overrides with
  | nil =>
    cases h
    rfl
  | cons row rest ih =>
    unfold composeOverrides at h
    split at h
    · rename_i entry hen
      split_ifs at h with hr
      cases hre : composeOverrides base rest with
      | error message => simp [hre, Except.map] at h
      | ok next =>
        simp only [hre, Except.map, Except.ok.injEq] at h
        subst h
        by_cases hrow : path = row.1
        · simp [hrow, hen]
        · simp [next.find?_insert_of_ne _ hrow, ih hre, Ne.symm hrow]
    · cases h

theorem inherited_of_composeOverrides (h : composeOverrides base rows = .ok overrides)
    (hp : (overrides.find? path).isSome) :
    path ∈ rows.map Prod.fst ∧ (base.entries.find? path).isSome := by
  rw [find?_composeOverrides h] at hp
  have hfound : (rows.find? (·.1 = path)).isSome ∧ (base.entries.find? path).isSome := by
    cases hrow : rows.find? (·.1 = path) <;> simp_all
  simpa using hfound

theorem composeOverrides_ok_iff : (∃ overrides, composeOverrides base rows = .ok overrides) ↔
    ∀ row ∈ rows, (base.entries.find? row.1).any Entry.isRegular = true := by
  induction rows with
  | nil => simp [composeOverrides]
  | cons row rest ih =>
    rw [List.forall_mem_cons, ← ih, composeOverrides]
    cases base.entries.find? row.1 with
    | none => simp
    | some entry =>
      cases hr : entry.isRegular <;> cases composeOverrides base rest <;> simp [hr, Except.map]

def compose (delta base : Manifest Path) : Except String (ComposedGeneration Path) :=
  if !delta.worker || base.worker then
    .error "composition requires a worker and a depth-one base"
  else if ∃ path ∈ delta.tombstones, base.entries.find? path = none then
    .error "a worker tombstone must name an inherited base entry"
  else
    match h : composeOverrides base delta.readinessOverrides.entries with
    | .error message => .error message
    | .ok overrides => .ok {
        delta := delta
        base := some base
        overrides := overrides
        overrides_inherited := fun _ hpath =>
          have ⟨hrow, hbase⟩ := inherited_of_composeOverrides h hpath
          ⟨SortedMap.mem_keys_iff.1 hrow, base, rfl, hbase⟩ }

section

variable (generation : ComposedGeneration Path)

def entry (path : Path) : Option Entry :=
  if path ∈ generation.delta.tombstones then none
  else (generation.delta.entries.find? path).or
    ((generation.overrides.find? path).or (generation.base.bind (·.entries.find? path)))

/-- `ComposedGeneration::entries`: one sorted walk of delta and base, without tombstoned paths and
with overrides. -/
def entries : List (Path × Entry) :=
  let inherited := (generation.base.map (·.entries.entries)).getD []
  ((SortedMap.overlayEntries generation.delta.entries.entries inherited).filter
      fun row => row.1 ∉ generation.delta.tombstones).map
    fun row => (row.1, (generation.overrides.find? row.1).getD row.2)

def planeReadiness (path : Path) (plane : FamilyPlane) : Option PlaneState :=
  (generation.entry path).bind (·.planeState plane)

def diskState (path : Path) : DiskState :=
  match generation.entry path with
  | some entry => entry.diskState
  | none => .absent

end

def diffPaths (generation other : ComposedGeneration Path) : List Path :=
  (generation.entries.filter fun row =>
      decide (other.entry row.1 ≠ some row.2) || FamilyPlane.all.any fun plane =>
        generation.planeReadiness row.1 plane ≠ other.planeReadiness row.1 plane).map Prod.fst ++
    (other.entries.filter fun row => (generation.entry row.1).isNone).map Prod.fst

/-! ## The walk and the lookup agree -/

variable {generation : ComposedGeneration Path}

/-- An entry of the walk before overrides: the delta's own, else the inherited one. -/
theorem mem_overlay {entry : Entry} :
    (path, entry) ∈ overlayEntries generation.delta.entries.entries
        ((generation.base.map (·.entries.entries)).getD []) ↔
      (generation.delta.entries.find? path).or (generation.base.bind (·.entries.find? path)) =
        some entry := by
  have hin : (generation.base.map (·.entries.entries)).getD [] =
      ((generation.base.map Manifest.entries).getD empty).entries := by cases generation.base <;> rfl
  rw [hin, mem_overlayEntries generation.delta.entries.sorted (sorted _), ← find?_eq_some_iff,
    ← find?_eq_some_iff, ← find?_eq_none_iff]
  cases generation.base <;> cases generation.delta.entries.find? path <;> simp

/-- Overridden paths are inherited and not tombstoned. -/
theorem overrides_spec (generation : ComposedGeneration Path)
    (h : (generation.overrides.find? path).isSome) :
    generation.delta.entries.find? path = none ∧ path ∉ generation.delta.tombstones ∧
      (generation.base.bind (·.entries.find? path)).isSome := by
  obtain ⟨hrow, manifest, hb, hen⟩ := generation.overrides_inherited path h
  obtain ⟨hd, ht⟩ := generation.delta.overrides_disjoint path hrow
  exact ⟨hd, ht, by rw [Option.mem_def.1 hb]; exact hen⟩

/-- Walking the generation visits exactly the entries that a lookup finds. -/
theorem mem_entries_iff {entry : Entry} :
    (path, entry) ∈ generation.entries ↔ generation.entry path = some entry := by
  have hw : (path, entry) ∈ generation.entries ↔ path ∉ generation.delta.tombstones ∧
      ∃ row, (generation.delta.entries.find? path).or
        (generation.base.bind (·.entries.find? path)) = some row ∧
        (generation.overrides.find? path).getD row = entry := by
    simp only [entries, List.mem_map, List.mem_filter, Prod.exists, mem_overlay, Prod.mk.injEq,
      decide_not, Bool.not_eq_true', decide_eq_false_iff_not]
    constructor
    · rintro ⟨path', row, ⟨hrow, ht⟩, rfl, hen⟩
      exact ⟨ht, row, hrow, hen⟩
    · rintro ⟨ht, row, hrow, hen⟩
      exact ⟨path, row, ⟨hrow, ht⟩, rfl, hen⟩
  rw [hw, ComposedGeneration.entry]
  by_cases ht : path ∈ generation.delta.tombstones
  · simp [ht]
  · cases ho : generation.overrides.find? path with
    | none => simp
    | some override =>
      obtain ⟨hd, -, hb⟩ :=
        generation.overrides_spec (Option.isSome_iff_exists.2 ⟨override, ho⟩)
      obtain ⟨inherited, hin⟩ := Option.isSome_iff_exists.1 hb
      simp [hd, hin]

variable {other : ComposedGeneration Path}

/-- A path outside the difference has the same entry in both generations. -/
theorem entry_eq_of_notMem_diffPaths (h : path ∉ generation.diffPaths other) :
    generation.entry path = other.entry path := by
  simp only [diffPaths, List.mem_append, List.mem_map, List.mem_filter, not_or, not_exists,
    not_and, Prod.forall] at h
  cases hen : generation.entry path with
  | some entry =>
    have hk := fun ho => h.1 path entry ⟨mem_entries_iff.2 hen, ho⟩ rfl
    by_contra hne
    exact hk (by simp [Ne.symm hne])
  | none =>
    cases ho : other.entry path with
    | none => rfl
    | some entry => exact absurd rfl (h.2 path entry ⟨mem_entries_iff.2 ho, by simp [hen]⟩)

/-! ## Changes of a worker -/

variable {delta : Manifest Path}

theorem compose_ok_iff : (∃ generation, compose delta base = .ok generation) ↔
    (∀ path ∈ delta.tombstones, base.entries.find? path ≠ none) ∧
      (delta.worker = true ∧ base.worker = false) ∧
      ∀ row ∈ delta.readinessOverrides.entries,
        (base.entries.find? row.1).any Entry.isRegular = true := by
  rw [← composeOverrides_ok_iff, compose]
  split_ifs with hw ht
  · grind
  · simp [ht]
  · split <;> grind

theorem entry_of_compose (h : compose delta base = .ok generation) (path : Path) :
    generation.entry path = if path ∈ delta.tombstones then none else
      (delta.entries.find? path).or (((delta.readinessOverrides.find? path).bind fun patch =>
        (base.entries.find? path).map (·.withPlanes patch)).or (base.entries.find? path)) := by
  unfold compose at h
  split_ifs at h
  split at h
  · cases h
  · rename_i overrides ho
    cases h
    rw [entry, find?_composeOverrides ho]
    rfl

end ComposedGeneration

end Aft.Views
