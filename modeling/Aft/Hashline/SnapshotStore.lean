import Aft.Hashline.Scan

/-!
# The session's snapshot store

A bounded, session-owned cache of snapshots keyed by canonical path, with the history of the handles
that residency eviction removed. `publish` is the only way in; `lookup` resolves a four-digit tag,
which is lossy, to one content or to none.

The content fingerprint is the parameter `fp`, and what the file system answers when a call
canonicalizes its path the argument `canonicalize`. A function whose source would panic returns
`none` there.
-/

namespace Aft.Hashline

def maxFileReadBytes : ℕ := 64 * 1024 * 1024
def maxSnapshotPaths : ℕ := 30
def maxVersionsPerPath : ℕ := 4
def maxSnapshotTotalBytes : ℕ := 64 * 1024 * 1024
def maxEvictionRecords : ℕ := 256

/-- The largest 64-bit machine integer. -/
def maxU64 : ℕ := 2 ^ 64 - 1

/-- Saturating addition of 64-bit machine integers. -/
def satAdd (a b : ℕ) : ℕ := min (a + b) maxU64

def foldTag (tag : String) : String := String.ofList (tag.toList.map Char.toLower)

def canonicalKey (canonicalize : PathBuf → Option PathBuf) (path : PathBuf) : PathBuf :=
  (canonicalize path).getD path

/-! ## Records -/

/-- A handle removed from snapshot residency. -/
structure EvictionRecord where
  canonicalPath : PathBuf
  tag : String
deriving DecidableEq

def EvictionRecord.new (path : PathBuf) (tag : String) : EvictionRecord := ⟨path, foldTag tag⟩

structure EvictionHistoryEntry (Fp : Type) where
  record : EvictionRecord
  contentFingerprint : Fp
deriving DecidableEq

structure StoredSnapshot where
  snapshot : Snapshot
  normalizedBytes : Bytes
  publishedAt : ℕ
  lastUsed : ℕ
deriving DecidableEq

def StoredSnapshot.residencyBytes (version : StoredSnapshot) : ℕ :=
  satAdd version.snapshot.residencyBytes version.normalizedBytes.length

def StoredSnapshot.hasSameNormalizedContent (version : StoredSnapshot) (tag : String)
    (normalizedBytes : Bytes) : Bool :=
  foldTag version.snapshot.tag = foldTag tag ∧ version.normalizedBytes = normalizedBytes

inductive PublishStatus where
  | stored
  | oversize (retainedBytes limit : ℕ)
deriving DecidableEq

structure PublishOutcome where
  status : PublishStatus
  snapshot : Option Snapshot
  evicted : List EvictionRecord
deriving DecidableEq

inductive SnapshotLookupError where
  | unknownTag
  | evictedTag
  | ambiguousTag
deriving DecidableEq, Repr

inductive SnapshotLookup where
  | found (snapshot : Snapshot)
  | unknown
  | evicted
  | ambiguous
deriving DecidableEq

/-- Evidence of two reads of the same content, as one snapshot. -/
def mergeSnapshotEvidence (existing incoming : Snapshot) : Snapshot :=
  let seenLines := existing.coverage.seenLines ∪ incoming.coverage.seenLines
  { existing with
    records := existing.records.extend incoming.records
    retainedLines := existing.retainedLines.extend incoming.retainedLines
    coverage :=
      { requestedLines := existing.coverage.requestedLines ∪ incoming.coverage.requestedLines
        retainAll := existing.coverage.retainAll || incoming.coverage.retainAll
        retainedLines := existing.coverage.retainedLines ∪ incoming.coverage.retainedLines
        seenLines := seenLines
        scannedLineCount :=
          max existing.coverage.scannedLineCount incoming.coverage.scannedLineCount
        totalLines := max existing.coverage.totalLines incoming.coverage.totalLines
        byteCount := max existing.coverage.byteCount incoming.coverage.byteCount
        eofObserved := existing.coverage.eofObserved || incoming.coverage.eofObserved }
    boundary :=
      { emptyFile := existing.boundary.emptyFile || incoming.boundary.emptyFile
        bofObserved := existing.boundary.bofObserved || incoming.boundary.bofObserved
        eofObserved := existing.boundary.eofObserved || incoming.boundary.eofObserved
        firstSeen := firstLine seenLines
        lastSeen := lastLine seenLines }
    totalLines := max existing.totalLines incoming.totalLines
    byteCount := max existing.byteCount incoming.byteCount
    provenance := incoming.provenance
    captureProvenance := incoming.captureProvenance }

/-! ## The store -/

/-- Resident versions by path, their byte total, the clock and the eviction history. -/
structure SnapshotStore (Fp : Type) where
  paths : SortedMap PathBuf (List StoredSnapshot)
  totalBytes : ℕ
  clock : ℕ
  evictionHistory : List (EvictionHistoryEntry Fp)
deriving DecidableEq

namespace SnapshotStore

variable {Fp : Type}

def new : SnapshotStore Fp := ⟨.empty, 0, 0, []⟩

def snapshotCount (store : SnapshotStore Fp) : ℕ := store.paths.sumValues List.length

def clear (store : SnapshotStore Fp) : SnapshotStore Fp :=
  { store with paths := .empty, totalBytes := 0, evictionHistory := [] }

def bumpClock (store : SnapshotStore Fp) : SnapshotStore Fp :=
  { store with clock := satAdd store.clock 1 }

/-- The order in which paths are evicted: by latest use, earliest publication, then path. -/
def pathAge (e : PathBuf × List StoredSnapshot) : ℕ ×ₗ ℕ ×ₗ PathBuf :=
  toLex (((e.2.map StoredSnapshot.lastUsed).max?).getD 0,
    toLex (((e.2.map StoredSnapshot.publishedAt).min?).getD 0, e.1))

def leastRecentPath (store : SnapshotStore Fp) : Option PathBuf :=
  (store.paths.entries.argmin pathAge).map Prod.fst

/-- Every resident version with its path and index. -/
def versionEntries (store : SnapshotStore Fp) : List (PathBuf × StoredSnapshot × ℕ) :=
  store.paths.entries.flatMap fun e => e.2.zipIdx.map fun c => (e.1, c)

/-- The order in which versions are evicted: by use, publication, path, tag, then index. -/
def versionAge (c : PathBuf × StoredSnapshot × ℕ) : ℕ ×ₗ ℕ ×ₗ PathBuf ×ₗ String ×ₗ ℕ :=
  toLex (c.2.1.lastUsed, toLex (c.2.1.publishedAt, toLex (c.1,
    toLex (foldTag c.2.1.snapshot.tag, c.2.2))))

def leastRecentVersion (store : SnapshotStore Fp) : Option (PathBuf × ℕ) :=
  (store.versionEntries.argmin versionAge).map fun c => (c.1, c.2.2)

/-- The index the per-path version cap evicts: oldest publication, then oldest use. -/
def oldestVersion (versions : List StoredSnapshot) : Option ℕ :=
  (versions.zipIdx.argmin fun c => toLex (c.1.publishedAt, c.1.lastUsed)).map Prod.snd

section History

variable [DecidableEq Fp] (store : SnapshotStore Fp)

def removeHistory (record : EvictionRecord) (fingerprint : Fp) : SnapshotStore Fp :=
  { store with
    evictionHistory := store.evictionHistory.filter fun entry =>
      entry.record ≠ record ∨ entry.contentFingerprint ≠ fingerprint }

/-- Pop the oldest entries while there are more than the bound. -/
def truncateHistory : List (EvictionHistoryEntry Fp) → List (EvictionHistoryEntry Fp)
  | [] => []
  | entry :: rest =>
    if (entry :: rest).length > maxEvictionRecords then truncateHistory rest else entry :: rest

def recordEviction (record : EvictionRecord) (fingerprint : Fp) : SnapshotStore Fp :=
  let removed := store.removeHistory record fingerprint
  { removed with
    evictionHistory := truncateHistory (removed.evictionHistory ++ [⟨record, fingerprint⟩]) }

def historyContains (path : PathBuf) (tag : String) : Bool :=
  store.evictionHistory.any fun entry =>
    decide (entry.record.canonicalPath = path ∧ entry.record.tag = tag)

variable (fp : Bytes → Fp)

def historyContainsDifferentContent (path : PathBuf) (tag : String) (normalizedBytes : Bytes) :
    Bool :=
  store.evictionHistory.any fun entry =>
    decide (entry.record.canonicalPath = path ∧ entry.record.tag = tag ∧
      entry.contentFingerprint ≠ fp normalizedBytes)

/-! ## Eviction -/

/-- Remove one version and record its handle; `none` when there is no such version. -/
def removeVersionForEviction (path : PathBuf) (index : ℕ) :
    Option (SnapshotStore Fp × EvictionRecord) := do
  let versions ← store.paths.find? path
  let removed ← versions[index]?
  let rest := versions.eraseIdx index
  let record := EvictionRecord.new path removed.snapshot.tag
  let dropped := { store with
    paths := if rest = [] then store.paths.erase path else store.paths.insert path rest
    totalBytes := store.totalBytes - removed.residencyBytes }
  return (dropped.recordEviction record (fp removed.normalizedBytes), record)

def removePathForEviction (path : PathBuf) : SnapshotStore Fp × List EvictionRecord :=
  match store.paths.find? path with
  | none => (store, [])
  | some versions =>
    (versions.foldl (fun st version =>
        { st with totalBytes := st.totalBytes - version.residencyBytes }.recordEviction
          (.new path version.snapshot.tag) (fp version.normalizedBytes))
      { store with paths := store.paths.erase path },
    versions.map fun version => .new path version.snapshot.tag)

/-- Evict least recent versions over the byte budget; each round removes one, so `snapshotCount`
rounds are enough. -/
def evictOverBudget : ℕ → SnapshotStore Fp → List EvictionRecord →
    Option (SnapshotStore Fp × List EvictionRecord)
  | rounds, store, evicted =>
    if store.totalBytes > maxSnapshotTotalBytes then
      match store.leastRecentVersion with
      | none => some (store, evicted)
      | some (path, index) =>
        match rounds with
        | 0 => none
        | rounds + 1 => do
          let (next, record) ← store.removeVersionForEviction fp path index
          evictOverBudget rounds next (evicted ++ [record])
    else some (store, evicted)

/-! ## Publication -/

def coalescedVersion (versions : List StoredSnapshot) (published : Snapshot)
    (normalizedBytes : Bytes) : Option (ℕ × Snapshot) := do
  let index ← versions.findIdx? (·.hasSameNormalizedContent published.tag normalizedBytes)
  let version ← versions[index]?
  return (index, mergeSnapshotEvidence version.snapshot published)

section

variable (path : PathBuf)

/-- Replace the evidence of a resident version and refresh both its clocks. -/
def refreshVersion (index : ℕ) (merged : Snapshot) : Option (SnapshotStore Fp) := do
  let versions ← store.paths.find? path
  let version ← versions[index]?
  let refreshed := { version with
    snapshot := merged, publishedAt := store.clock, lastUsed := store.clock }
  return { store with
    paths := store.paths.insert path (versions.set index refreshed)
    totalBytes := satAdd (store.totalBytes - version.residencyBytes) refreshed.residencyBytes }

/-- Evict the least recent path when a new path would exceed the path cap. -/
def makeRoomForPath : SnapshotStore Fp × List EvictionRecord :=
  if store.paths.find? path = none ∧ store.paths.size ≥ maxSnapshotPaths then
    match store.leastRecentPath with
    | none => (store, [])
    | some oldest => store.removePathForEviction fp oldest
  else (store, [])

/-- Evict the oldest version when a new version would exceed the version cap. -/
def makeRoomForVersion : Option (SnapshotStore Fp × List EvictionRecord) :=
  match store.paths.find? path with
  | none => some (store, [])
  | some versions =>
    if versions.length ≥ maxVersionsPerPath then
      match oldestVersion versions with
      | none => some (store, [])
      | some index => do
        let (next, record) ← store.removeVersionForEviction fp path index
        return (next, [record])
    else some (store, [])

def pushVersion (version : StoredSnapshot) (retainedBytes : ℕ) : SnapshotStore Fp :=
  { store with
    totalBytes := satAdd store.totalBytes retainedBytes
    paths := store.paths.insert path ((store.paths.find? path).getD [] ++ [version]) }

/-- The branch of `publish` for content that is already resident. -/
def publishCoalesced (index : ℕ) (merged published : Snapshot)
    (normalizedBytes : Bytes) : Option (SnapshotStore Fp × PublishOutcome) := do
  let removed := store.removeHistory (.new path published.tag) (fp normalizedBytes)
  let refreshed ← removed.refreshVersion path index merged
  let (final, evicted) ← refreshed.evictOverBudget fp refreshed.snapshotCount []
  return (final, ⟨.stored, some published, evicted⟩)

/-- The branch of `publish` for content that is not resident. -/
def publishFresh (published : Snapshot) (normalizedBytes : Bytes)
    (retainedBytes : ℕ) : Option (SnapshotStore Fp × PublishOutcome) := do
  let (roomForPath, evictedPath) := store.makeRoomForPath fp path
  let (roomForVersion, evictedVersion) ← roomForPath.makeRoomForVersion fp path
  let removed := roomForVersion.removeHistory (.new path published.tag) (fp normalizedBytes)
  let pushed := removed.pushVersion path ⟨published, normalizedBytes, store.clock, store.clock⟩
    retainedBytes
  let (final, evicted) ← pushed.evictOverBudget fp pushed.snapshotCount
    (evictedPath ++ evictedVersion)
  return (final, ⟨.stored, some published, evicted⟩)

end

/-- A snapshot whose normalized bytes were taken out. -/
def stripped (snapshot : Snapshot) : Snapshot := { snapshot with normalizedBytes := [] }

def publish (canonicalize : PathBuf → Option PathBuf) (path : PathBuf) (snapshot : Snapshot) :
    Option (SnapshotStore Fp × PublishOutcome) :=
  let key := canonicalKey canonicalize path
  let normalizedBytes := snapshot.normalizedBytes
  let published := stripped snapshot
  let coalesced := (store.paths.find? key).bind fun versions =>
    coalescedVersion versions published normalizedBytes
  let retainedBytes := satAdd
    (coalesced.elim published.residencyBytes fun c => c.2.residencyBytes) normalizedBytes.length
  if published.byteCount > maxFileReadBytes ∨ retainedBytes > maxSnapshotTotalBytes then
    some (store, ⟨.oversize retainedBytes maxSnapshotTotalBytes, none, []⟩)
  else
    match coalesced with
    | some (index, merged) =>
      store.bumpClock.publishCoalesced fp key index merged published normalizedBytes
    | none => store.bumpClock.publishFresh fp key published normalizedBytes retainedBytes

/-! ## Lookup -/

def missingTag (key : PathBuf) (folded : String) : SnapshotLookupError :=
  if store.historyContains key folded then .evictedTag else .unknownTag

/-- Set the use of the versions at `indices`. -/
def touchVersions (versions : List StoredSnapshot) (indices : List ℕ) (now : ℕ) :
    List StoredSnapshot :=
  versions.mapIdx fun index version =>
    if index ∈ indices then { version with lastUsed := now } else version

section

variable (canonicalize : PathBuf → Option PathBuf) (path : PathBuf) (tag : String)

/-- Resolve a tag, refreshing the use of the versions that carry it. -/
def lookup : Except SnapshotLookupError Snapshot × SnapshotStore Fp :=
  let key := canonicalKey canonicalize path
  let folded := foldTag tag
  match store.paths.find? key with
  | none => (.error (store.missingTag key folded), store)
  | some versions =>
    match versions.zipIdx.filter fun c => foldTag c.1.snapshot.tag = folded with
    | [] => (.error (store.missingTag key folded), store)
    | first :: others =>
      if others.any fun c => decide (c.1.normalizedBytes ≠ first.1.normalizedBytes) then
        (.error .ambiguousTag, store)
      else if store.historyContainsDifferentContent fp key folded first.1.normalizedBytes then
        (.error .evictedTag, store)
      else
        let bumped := store.bumpClock
        let indices := (first :: others).map Prod.snd
        (.ok first.1.snapshot, { bumped with
          paths := bumped.paths.insert key (touchVersions versions indices bumped.clock) })

/-- Resolve a tag without touching the store. -/
def lookupState : SnapshotLookup :=
  let key := canonicalKey canonicalize path
  let folded := foldTag tag
  match store.paths.find? key with
  | none => if store.historyContains key folded then .evicted else .unknown
  | some versions =>
    match versions.filter fun version => foldTag version.snapshot.tag = folded with
    | [] => if store.historyContains key folded then .evicted else .unknown
    | first :: others =>
      if others.any fun version => decide (version.normalizedBytes ≠ first.normalizedBytes) then
        .ambiguous
      else if store.historyContainsDifferentContent fp key folded first.normalizedBytes then
        .evicted
      else .found first.snapshot

end

end History

/-- Remove a path because its lifecycle ended; the history is not touched. -/
def invalidatePath (store : SnapshotStore Fp) (canonicalize : PathBuf → Option PathBuf)
    (path : PathBuf) : SnapshotStore Fp × Bool :=
  let key := canonicalKey canonicalize path
  match store.paths.find? key with
  | none => (store, false)
  | some versions =>
    ({ store with
      paths := store.paths.erase key
      totalBytes := store.totalBytes - (versions.map StoredSnapshot.residencyBytes).sum }, true)

end SnapshotStore

end Aft.Hashline
