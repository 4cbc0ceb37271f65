import Aft.Lib.SortedMap

/-!
# The family store, its publishers and the sweep

A family of checkouts shares one store of payload rows per plane. A publisher lists the keys of its
next generation in a pin, puts or touches every key, creates a read marker, writes its manifest and
swaps the pointer of its member; then it releases the pin, and later the marker. The sweep raises
the epoch of the registry and of every store, reads for each member the pointer, the pins and the
markers, one after the other and without a lock, and deletes the rows that none of them named and
that no touch has stamped with the new epoch.
-/

namespace Aft.Gc

/-! ## State -/

/-- How far a publisher has come. -/
inductive PublishStage
  | touching
  | marked
  | written
  | swapped
  deriving Repr, DecidableEq

/-- What the sweep reads next of the member it is at. -/
inductive MemberStage
  | pointer
  | pins
  | markers
  deriving Repr, DecidableEq

section Types

variable (Member Gen Key Plane : Type)

/-- One publication: its pin, keys and read marker; `touched` are the keys put or found under the
pin. -/
structure Publisher where
  member : Member
  generation : Gen
  keys : List Key
  touched : List Key := []
  pinHeld : Bool := true
  markerHeld : Bool := false
  stage : PublishStage := .touching
  deriving DecidableEq

/-- Where `sweep_pass` is. -/
inductive SweepState
  | idle
  | raising (epoch : ℕ) (todo : List Plane)
  | marking (epoch : ℕ) (marked : List Key) (todo : List Member) (next : MemberStage)
  | deleting (epoch : ℕ) (marked : List Key)
  deriving DecidableEq

/-- The plane of every key and the planes whose stores exist. -/
structure Layout where
  planeOf : Key → Plane
  stores : List Plane

/-- The shared state of a family, with the publishers and the sweep at work; `rows` gives the
`ref_epoch` of every stored payload. -/
structure Family where
  registryEpoch : ℕ := 0
  storeEpoch : Plane → ℕ := fun _ => 0
  rows : Key → Option ℕ := fun _ => none
  members : List Member := []
  pointer : Member → Option Gen := fun _ => none
  manifest : Gen → Option (List Key) := fun _ => none
  publishers : SortedMap ℕ (Publisher Member Gen Key) := .empty
  sweep : SweepState Member Key Plane := .idle

/-- One step of a publisher or of the sweep. -/
inductive Event
  | register (member : Member)
  | pin (id : ℕ) (member : Member) (generation : Gen) (keys : List Key)
  | touch (id : ℕ) (key : Key)
  | put (id : ℕ) (key : Key)
  | createMarker (id : ℕ)
  | writeManifest (id : ℕ)
  | swapPointer (id : ℕ)
  | releasePins (id : ℕ)
  | releaseMarker (id : ℕ)
  | abandon (id : ℕ)
  | startSweep
  | raiseStore
  | beginMarking
  | readPointer
  | listPins
  | listMarkers
  | beginDeleting
  | delete (key : Key)
  | finishSweep

end Types

variable {Member Gen Key Plane : Type} [DecidableEq Member] [DecidableEq Gen] [DecidableEq Key]
  [DecidableEq Plane]

namespace Family

/-! ## The store -/

section

variable (layout : Layout Key Plane) (family : Family Member Gen Key Plane) (key : Key)

/-- The row of a key after a put or a touch at the store's epoch. -/
def stamped : ℕ :=
  max ((family.rows key).getD 0) (family.storeEpoch (layout.planeOf key))

/-- `put_or_touch`: insert the payload, or stamp the current epoch on its row. -/
def putOrTouch : Family Member Gen Key Plane :=
  { family with rows := Function.update family.rows key (some (family.stamped layout key)) }

/-- `delete_if_unreferenced_since`, for a key of an open store. -/
def deleteIfUnreferencedSince (epoch : ℕ) : Family Member Gen Key Plane :=
  if layout.planeOf key ∈ layout.stores ∧ (family.rows key).any (· < epoch) then
    { family with rows := Function.update family.rows key none }
  else family

end

/-! ## Marks -/

variable (family : Family Member Gen Key Plane) (member : Member)

/-- `mark_current`: the keys of a member's current generation. -/
def currentKeys : List Key :=
  ((family.pointer member).bind family.manifest).getD []

/-- `mark_pins`: the keys of the pins held in a member's view. -/
def pinnedKeys : List Key :=
  (family.publishers.values.filter fun publisher =>
    publisher.pinHeld && decide (publisher.member = member)).flatMap Publisher.keys

/-- `mark_readers`: the keys of the generations that a read marker of the member protects. -/
def markedKeys : List Key :=
  (family.publishers.values.filter fun publisher =>
    publisher.markerHeld && decide (publisher.member = member)).flatMap fun publisher =>
      (family.manifest publisher.generation).getD []

/-! ## Steps -/

def setPublisher (id : ℕ) (publisher : Publisher Member Gen Key) : Family Member Gen Key Plane :=
  { family with publishers := family.publishers.insert id publisher }

/-- A step of a publisher at the given stage. -/
def atStage (id : ℕ) (stage : PublishStage)
    (next : Publisher Member Gen Key → Family Member Gen Key Plane) :
    Option (Family Member Gen Key Plane) :=
  match family.publishers.find? id with
  | some publisher => if publisher.stage = stage then some (next publisher) else none
  | none => none

/-- One step; `none` where the event is not enabled. -/
def step (layout : Layout Key Plane) (family : Family Member Gen Key Plane) :
    Event Member Gen Key → Option (Family Member Gen Key Plane)
  | .register member =>
    if member ∈ family.members then none
    else some { family with members := family.members ++ [member] }
  | .pin id member generation keys =>
    -- Generation names are private to their publisher.
    if member ∈ family.members ∧ family.publishers.find? id = none ∧
        family.manifest generation = none ∧
        ∀ publisher ∈ family.publishers.values, publisher.generation ≠ generation then
      some (family.setPublisher id { member, generation, keys })
    else none
  | .touch id key => family.atStage id .touching fun publisher =>
    -- A missing key is only reported.
    if key ∈ publisher.keys ∧ (family.rows key).isSome then
      (family.putOrTouch layout key).setPublisher id
        { publisher with touched := key :: publisher.touched }
    else family
  | .put id key => family.atStage id .touching fun publisher =>
    if key ∈ publisher.keys then
      (family.putOrTouch layout key).setPublisher id
        { publisher with touched := key :: publisher.touched }
    else family
  | .createMarker id => family.atStage id .touching fun publisher =>
    if ∀ key ∈ publisher.keys, key ∈ publisher.touched then
      family.setPublisher id { publisher with markerHeld := true, stage := .marked }
    else family
  | .writeManifest id => family.atStage id .marked fun publisher =>
    { family.setPublisher id { publisher with stage := .written } with
      manifest := Function.update family.manifest publisher.generation (some publisher.keys) }
  | .swapPointer id => family.atStage id .written fun publisher =>
    { family.setPublisher id { publisher with stage := .swapped } with
      pointer := Function.update family.pointer publisher.member (some publisher.generation) }
  | .releasePins id => family.atStage id .swapped fun publisher =>
    family.setPublisher id { publisher with pinHeld := false }
  | .releaseMarker id => family.atStage id .swapped fun publisher =>
    family.setPublisher id { publisher with markerHeld := false }
  | .abandon id =>
    match family.publishers.find? id with
    | some publisher => if publisher.stage = .swapped then none
      else some { family with publishers := family.publishers.erase id }
    | none => none
  | .startSweep =>
    match family.sweep with
    | .idle => some { family with
        registryEpoch := family.registryEpoch + 1
        sweep := .raising (family.registryEpoch + 1) layout.stores }
    | _ => none
  | .raiseStore =>
    match family.sweep with
    | .raising epoch (plane :: todo) => some { family with
        storeEpoch := Function.update family.storeEpoch plane (max (family.storeEpoch plane) epoch)
        sweep := .raising epoch todo }
    | _ => none
  | .beginMarking =>
    match family.sweep with
    | .raising epoch [] => some { family with sweep := .marking epoch [] family.members .pointer }
    | _ => none
  | .readPointer =>
    match family.sweep with
    | .marking epoch marked (member :: todo) .pointer => some { family with
        sweep := .marking epoch (marked ++ family.currentKeys member) (member :: todo) .pins }
    | _ => none
  | .listPins =>
    match family.sweep with
    | .marking epoch marked (member :: todo) .pins => some { family with
        sweep := .marking epoch (marked ++ family.pinnedKeys member) (member :: todo) .markers }
    | _ => none
  | .listMarkers =>
    match family.sweep with
    | .marking epoch marked (member :: todo) .markers => some { family with
        sweep := .marking epoch (marked ++ family.markedKeys member) todo .pointer }
    | _ => none
  | .beginDeleting =>
    match family.sweep with
    | .marking epoch marked [] _ => some { family with sweep := .deleting epoch marked }
    | _ => none
  | .delete key =>
    match family.sweep with
    | .deleting epoch marked =>
      if key ∈ marked then none else some (family.deleteIfUnreferencedSince layout key epoch)
    | _ => none
  | .finishSweep =>
    match family.sweep with
    | .deleting _ _ => some { family with sweep := .idle }
    | _ => none

def run (layout : Layout Key Plane) (family : Family Member Gen Key Plane) :
    List (Event Member Gen Key) → Option (Family Member Gen Key Plane)
  | [] => some family
  | event :: rest => (family.step layout event).bind fun next => next.run layout rest

/-! ## Live data -/

/-- A key touched under a pin of the member that is still held. -/
def Held (key : Key) : Prop :=
  ∃ id publisher, family.publishers.find? id = some publisher ∧ publisher.pinHeld = true ∧
    publisher.member = member ∧ key ∈ publisher.touched

def Current (key : Key) : Prop :=
  member ∈ family.members ∧ ∃ generation keys, family.pointer member = some generation ∧
    family.manifest generation = some keys ∧ key ∈ keys

/-- Every key that a registered member's current generation names or a held pin touched is
stored. -/
def LiveDataPresent : Prop :=
  ∀ member key, family.Held member key ∨ family.Current member key → (family.rows key).isSome

/-- Whether the sweep has read the member's pointer and not yet listed its read markers. -/
def Between : Prop :=
  match family.sweep with
  | .marking _ _ (first :: _) next => first = member ∧ next ≠ .pointer
  | _ => False

/-- A publisher keeps the marker of a generation that is still current while the sweep is between
the pointer and the markers of its member. -/
def KeepsMarker : Event Member Gen Key → Prop
  | .releaseMarker id => ∀ publisher, family.publishers.find? id = some publisher →
      family.pointer publisher.member = some publisher.generation →
      ¬ family.Between publisher.member
  | _ => True

/-- Every step of the run keeps the markers that the sweep still needs. -/
def KeepsMarkers (layout : Layout Key Plane) (family : Family Member Gen Key Plane) :
    List (Event Member Gen Key) → Prop
  | [] => True
  | event :: rest => family.KeepsMarker event ∧
      ∀ next, family.step layout event = some next → next.KeepsMarkers layout rest

end Family

end Aft.Gc
