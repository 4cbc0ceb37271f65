import Aft.Views.Generation

/-!
# The live delta and the generation switch

`LiveDelta` holds the difference between a checkout's disk and its generation: an entry per path
whose observed state differs, readiness patches, and the version at which each path was last
observed or patched. A builder takes a `cut`, derives the delta of a successor from it
(`deriveSuccessor`), and `replayAndSwap` corrects that draft by the paths touched since the cut.
-/

namespace Aft.Views

/-! ## State -/

inductive ReconciledDelta
  | unreconciled
  | reconciled
  | pending
  deriving Repr, DecidableEq

/-- `LiveEntry`. An attachment is shared data of a plane, given by its address. -/
structure LiveEntry where
  disk : DiskState
  seq : ℕ
  attachments : FamilyPlane → Option ℕ := fun _ => none
  reconciliation : ReconciledDelta := .unreconciled

/-- `PlanePatch`: readiness of a checkout for the recorded content. -/
structure PlanePatch where
  content : ContentHash
  planes : EntryPlanes
  deriving Repr, DecidableEq

inductive WatcherState
  | healthy
  | overflowed
  | stopped
  | reconciling
  deriving Repr, DecidableEq

/-- A value behind a shared pointer. -/
structure Shared (α : Type) where
  address : ℕ
  value : α

def Shared.ptrEq {α : Type} (a b : Shared α) : Bool := a.address = b.address

section Types

variable (Path : Type) [LinearOrder Path]

structure JournalRecord where
  version : ℕ
  relPath : Path
  disk : DiskState

/-- `LiveDelta`. -/
structure LiveDelta where
  base : Shared (ComposedGeneration Path)
  epoch : ℕ := 0
  version : ℕ := 0
  entries : SortedMap Path LiveEntry := .empty
  readiness : SortedMap Path PlanePatch := .empty
  journal : List (JournalRecord Path) := []
  observationJournal : SortedMap Path ℕ := .empty
  readinessJournal : SortedMap Path ℕ := .empty
  intent : SortedMap Path ℕ := .empty
  intentVersion : ℕ := 0
  watcher : WatcherState := .healthy

/-- `DeltaCut`: the delta as a builder read it. -/
structure DeltaCut where
  base : Shared (ComposedGeneration Path)
  epoch : ℕ
  version : ℕ
  entries : SortedMap Path LiveEntry
  readiness : SortedMap Path PlanePatch

/-- `SuccessorDraft`: a delta derived against a new generation, before its swap. -/
structure SuccessorDraft where
  expectedBase : Shared (ComposedGeneration Path)
  successor : Shared (ComposedGeneration Path)
  epoch : ℕ
  cutVersion : ℕ
  entries : SortedMap Path LiveEntry
  readiness : SortedMap Path PlanePatch

/-- `CarryFromGeneration`: the entry for a path whose disk went back to the old generation. -/
abbrev Carry := Path → ComposedGeneration Path → LiveEntry

/-- `Snapshot`, as far as its answers go. -/
structure Snapshot where
  generation : ComposedGeneration Path
  entries : SortedMap Path LiveEntry
  readiness : SortedMap Path PlanePatch

end Types

inductive SwitchError
  | epochChanged (cut current : ℕ)
  | baseChanged
  deriving Repr, DecidableEq

variable {Path : Type} [LinearOrder Path]

/-! ## Queries -/

namespace Snapshot

section

variable (snapshot : Snapshot Path) (path : Path)

/-- `Snapshot::disk_state`: the live entry if there is one, else the generation. -/
def diskState : DiskState :=
  match snapshot.entries.find? path with
  | some entry => entry.disk
  | none => snapshot.generation.diskState path

/-- The state that a readiness patch for the path's current content gives to a plane. -/
def patchState (plane : FamilyPlane) : Option PlaneState :=
  match snapshot.readiness.find? path, snapshot.diskState path with
  | some patch, .present content _ => if content = patch.content then patch.planes.get plane else none
  | _, _ => none

def planeReadiness (plane : FamilyPlane) : Option PlaneState :=
  match snapshot.patchState path plane with
  | some state => some state
  | none =>
    if (snapshot.entries.find? path).isSome then none
    else snapshot.generation.planeReadiness path plane

end

/-- The loop of `membership` over the generation. -/
def addMember (members : SortedMap Path DiskState) (row : Path × Entry) :
    SortedMap Path DiskState :=
  match row.2.diskState with
  | .present content size => members.insert row.1 (.present content size)
  | .absent => members

/-- The loop of `membership` over the live entries. -/
def overlayMember (members : SortedMap Path DiskState) (row : Path × LiveEntry) :
    SortedMap Path DiskState :=
  match row.2.disk with
  | .present content size => members.insert row.1 (.present content size)
  | .absent => members.erase row.1

/-- `Snapshot::membership`: every path that is present, with its content. -/
def membership (snapshot : Snapshot Path) : SortedMap Path DiskState :=
  snapshot.entries.entries.foldl overlayMember
    (snapshot.generation.entries.foldl addMember .empty)

end Snapshot

/-! ## Deriving a successor -/

def rederivePath (path : Path) (observed : Option LiveEntry) (old successor : ComposedGeneration Path)
    (carry : Carry Path) (entries : SortedMap Path LiveEntry) : SortedMap Path LiveEntry :=
  -- No live entry means that the disk equalled the old generation.
  let entry := observed.getD (carry path old)
  entries.put path (if entry.disk = successor.diskState path then none else some entry)

/-- Whether the successor does not already say what the patch says. -/
def PlanePatch.outlives (patch : PlanePatch) (path : Path) (successor : ComposedGeneration Path) :
    Bool :=
  decide ((successor.entry path).bind Entry.content ≠ some patch.content) ||
    FamilyPlane.all.any fun plane =>
      match patch.planes.get plane with
      | some state => decide (successor.planeReadiness path plane ≠ some state)
      | none => false

def rederiveReadiness (path : Path) (patch : Option PlanePatch)
    (successor : ComposedGeneration Path) (readiness : SortedMap Path PlanePatch) :
    SortedMap Path PlanePatch :=
  readiness.put path (patch.filter fun patch => patch.outlives path successor)

/-- `carry_disk_state_only`: the entry records only the old generation's disk state. -/
def carryDiskStateOnly : Carry Path := fun path generation =>
  { disk := generation.diskState path, seq := 0 }

def rebasePaths (cut : DeltaCut Path) (successor : ComposedGeneration Path) : List Path :=
  (cut.entries.keys ++ cut.readiness.keys ++ cut.base.value.diffPaths successor).dedup

def deriveSuccessor (cut : DeltaCut Path) (successor : Shared (ComposedGeneration Path))
    (carry : Carry Path) : SuccessorDraft Path where
  expectedBase := cut.base
  successor := successor
  epoch := cut.epoch
  cutVersion := cut.version
  entries := (rebasePaths cut successor.value).foldl (fun entries path =>
    rederivePath path (cut.entries.find? path) cut.base.value successor.value carry entries) .empty
  readiness := (rebasePaths cut successor.value).foldl (fun readiness path =>
    rederiveReadiness path (cut.readiness.find? path) successor.value readiness) .empty

namespace LiveDelta

variable (delta : LiveDelta Path)

def snapshot : Snapshot Path where
  generation := delta.base.value
  entries := delta.entries
  readiness := delta.readiness

def cut : DeltaCut Path where
  base := delta.base
  epoch := delta.epoch
  version := delta.version
  entries := delta.entries
  readiness := delta.readiness

/-! ## Operations -/

/-- `LiveDelta::apply`: record an observed disk state, which is kept while it differs from the
base. -/
def apply (path : Path) (entry : LiveEntry) : LiveDelta Path :=
  let previous := delta.snapshot.diskState path
  let version := delta.version + 1
  let attachmentsChanged := match delta.entries.find? path with
    | some previous => FamilyPlane.stores.any fun plane =>
      previous.attachments plane ≠ entry.attachments plane
    | none => false
  { delta with
    version := version
    observationJournal := delta.observationJournal.insert path version
    journal := if previous ≠ entry.disk || attachmentsChanged then
        delta.journal.filter (fun record => record.relPath ≠ path) ++ [⟨version, path, entry.disk⟩]
      else delta.journal
    entries := delta.entries.put path
      (if entry.disk = delta.base.value.diskState path then none else some entry) }

def setReadiness (path : Path) (patch : PlanePatch) : LiveDelta Path :=
  { delta with
    version := delta.version + 1
    readinessJournal := delta.readinessJournal.insert path (delta.version + 1)
    readiness := delta.readiness.insert path patch }

def recordIntent (path : Path) : LiveDelta Path :=
  { delta with
    intentVersion := delta.intentVersion + 1
    version := delta.version + 1
    intent := delta.intent.insert path (delta.intentVersion + 1) }

def resolveIntent (path : Path) (intentVersion : ℕ) : LiveDelta Path :=
  match delta.intent.find? path with
  | some recorded =>
    if recorded ≤ intentVersion then
      { delta with intent := delta.intent.erase path, intentVersion := delta.intentVersion + 1 }
    else delta
  | none => delta

def bumpEpoch : LiveDelta Path := { delta with epoch := delta.epoch + 1 }

def setWatcher (watcher : WatcherState) : LiveDelta Path :=
  if delta.watcher = watcher then delta
  else
    let delta := { delta with version := delta.version + 1 }
    let delta := if watcher = .healthy then delta else delta.bumpEpoch
    { delta with watcher := watcher }

/-- The paths that `replay_and_swap` derives again: observed or patched after the cut. -/
def replayPaths (cutVersion : ℕ) : List Path :=
  ((delta.observationJournal.entries.filter fun row => cutVersion < row.2).map Prod.fst ++
    (delta.readinessJournal.entries.filter fun row => cutVersion < row.2).map Prod.fst).dedup

def replayAndSwap (draft : SuccessorDraft Path) (carry : Carry Path) :
    Except SwitchError (LiveDelta Path) :=
  if draft.epoch ≠ delta.epoch then .error (.epochChanged draft.epoch delta.epoch)
  else if !draft.expectedBase.ptrEq delta.base then .error .baseChanged
  else
    let replay := delta.replayPaths draft.cutVersion
    .ok { delta with
      base := draft.successor
      entries := replay.foldl (fun entries path => rederivePath path (delta.entries.find? path)
        delta.base.value draft.successor.value carry entries) draft.entries
      readiness := replay.foldl (fun readiness path => rederiveReadiness path
        (delta.readiness.find? path) draft.successor.value readiness) draft.readiness
      journal := []
      observationJournal := .empty
      readinessJournal := .empty }

end LiveDelta

/-- One call on the delta between a cut and its swap. -/
inductive DeltaOp (Path : Type)
  | apply (path : Path) (entry : LiveEntry)
  | setReadiness (path : Path) (patch : PlanePatch)
  | recordIntent (path : Path)
  | resolveIntent (path : Path) (intentVersion : ℕ)
  | setWatcher (watcher : WatcherState)
  | bumpEpoch

def LiveDelta.perform (delta : LiveDelta Path) : DeltaOp Path → LiveDelta Path
  | .apply path entry => delta.apply path entry
  | .setReadiness path patch => delta.setReadiness path patch
  | .recordIntent path => delta.recordIntent path
  | .resolveIntent path intentVersion => delta.resolveIntent path intentVersion
  | .setWatcher watcher => delta.setWatcher watcher
  | .bumpEpoch => delta.bumpEpoch

def LiveDelta.run (delta : LiveDelta Path) (ops : List (DeltaOp Path)) : LiveDelta Path :=
  ops.foldl LiveDelta.perform delta

end Aft.Views
