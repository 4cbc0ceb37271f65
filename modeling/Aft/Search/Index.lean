import Aft.Search.Regex

/-!
# The search index

The state of a `SearchIndex`: an immutable base and a delta of postings, the file table with its emptied
slots, and the ids that are superseded, free or not indexed; and the candidate files of a query. The
base is what the cache file holds, as a map from trigrams to postings. Updates touch the delta only;
`write_to_disk` numbers the active files anew and merges base and delta into a new base.
-/

namespace Aft.Search

/-- A path; the empty path marks an emptied slot of the file table. -/
abbrev Path := String

structure Posting where
  fileId : ℕ
  nextMask : ℕ
  locMask : ℕ
deriving DecidableEq, Repr

structure FileMetadata where
  size : ℕ
  modified : ℕ
deriving DecidableEq, Repr

structure FileEntry where
  path : Path
  metadata : FileMetadata
  contentHash : ℕ
deriving DecidableEq, Repr

def FileEntry.empty : FileEntry := ⟨"", ⟨0, 0⟩, 0⟩

structure SearchIndex where
  base : SortedMap ℕ (List Posting)
  baseFileCount : ℕ
  deltaPostings : SortedMap ℕ (List Posting)
  superseded : List ℕ
  deltaFileTrigrams : SortedMap ℕ (List ℕ)
  /-- The newest first. -/
  freeDeltaFileIds : List ℕ
  files : List FileEntry
  pathToId : SortedMap Path ℕ
  unindexedFiles : List ℕ

namespace SearchIndex

def new : SearchIndex where
  base := .empty
  baseFileCount := 0
  deltaPostings := .empty
  superseded := []
  deltaFileTrigrams := .empty
  freeDeltaFileIds := []
  files := []
  pathToId := .empty
  unindexedFiles := []

/-! ## Queries -/

def isActiveFile (index : SearchIndex) (fileId : ℕ) : Bool :=
  fileId ∉ index.superseded && (index.files[fileId]?).any (·.path ≠ "")

def sortIds (ids : List ℕ) : List ℕ := ids.toFinset.sort (· ≤ ·)

def activeFileIds (index : SearchIndex) : List ℕ :=
  sortIds (index.pathToId.values.filter index.isActiveFile)

end SearchIndex

def postingMatchesFilter (posting : Posting) (filter : Option PostingFilter) : Bool :=
  filter.all fun filter => filter.nextMask = 0 ∨ Meets posting.nextMask filter.nextMask

def intersectSortedIds : List ℕ → List ℕ → List ℕ
  | a :: left, b :: right =>
    if a < b then intersectSortedIds left (b :: right)
    else if b < a then intersectSortedIds (a :: left) right
    else a :: intersectSortedIds left right
  | _, _ => []
termination_by left right => left.length + right.length

def unionSortedIds : List ℕ → List ℕ → List ℕ
  | [], right => right
  | a :: left, [] => a :: left
  | a :: left, b :: right =>
    if a < b then a :: unionSortedIds left (b :: right)
    else if b < a then b :: unionSortedIds (a :: left) right
    else a :: unionSortedIds left right
termination_by left right => left.length + right.length

namespace SearchIndex

section

variable (index : SearchIndex)

def storedPostings (trigram : ℕ) : List Posting :=
  (index.base.find? trigram).getD [] ++ (index.deltaPostings.find? trigram).getD []

def postingsForTrigram (trigram : ℕ) (filter : Option PostingFilter) : List ℕ :=
  sortIds (((index.storedPostings trigram).filter fun posting =>
    postingMatchesFilter posting filter && index.isActiveFile posting.fileId).map (·.fileId))

def postingCount (trigram : ℕ) : ℕ := (index.storedPostings trigram).length

/-- Intersect the postings of the required trigrams, until nothing is left. -/
def requireTrigrams (query : RegexQuery) : List ℕ → Option (List ℕ) → Option (List ℕ)
  | [], current => current
  | trigram :: trigrams, current =>
    let found := index.postingsForTrigram trigram (query.andFilters.find? trigram)
    let current := current.elim found (intersectSortedIds · found)
    if current = [] then some [] else requireTrigrams query trigrams (some current)

/-- The ids with a posting of one of the trigrams of a group. -/
def groupMatches (filters : Option (SortedMap ℕ PostingFilter)) (group : List ℕ) : List ℕ :=
  group.foldl (fun found trigram =>
    let here := index.postingsForTrigram trigram (filters.bind (·.find? trigram))
    if found = [] then here else unionSortedIds found here) []

/-- Intersect with the groups, until nothing is left. -/
def requireGroups (filters : List (SortedMap ℕ PostingFilter)) : ℕ → List (List ℕ) → List ℕ → List ℕ
  | _, [], current => current
  | position, group :: groups, current =>
    let current := intersectSortedIds current (index.groupMatches filters[position]? group)
    if current = [] then [] else requireGroups filters (position + 1) groups current

def candidates (query : RegexQuery) : List ℕ :=
  if query.andTrigrams = [] ∧ query.orGroups = [] then index.activeFileIds
  else
    let trigrams := query.andTrigrams.mergeSort fun t u => index.postingCount t ≤ index.postingCount u
    let current := (index.requireTrigrams query trigrams none).getD index.activeFileIds
    let current := index.requireGroups query.orFilters 0 query.orGroups current
    let unindexed := index.unindexedFiles.filter index.isActiveFile
    if unindexed = [] then current else unionSortedIds current (sortIds unindexed)

end

end SearchIndex

/-! ## Prepared files -/

structure PreparedIndexedFile where
  metadata : FileMetadata
  contentHash : ℕ
  trigramMap : SortedMap ℕ PostingFilter

inductive PreparedSearchPath where
  | indexed (file : PreparedIndexedFile)
  | unindexed (metadata : FileMetadata)
  | skipped

/-- What the reader of the corpus makes of a path. -/
inductive SearchCorpusEligibility where
  | eligible (bytes : List UInt8) (metadata : FileMetadata)
  | unindexed (metadata : FileMetadata)
  | skipped

def prepareContent (hashBytes : List UInt8 → ℕ) (content : List UInt8) (metadata : FileMetadata) :
    PreparedIndexedFile :=
  ⟨metadata, hashBytes content, trigramFilterMap content true⟩

def prepareSearchPath (hashBytes : List UInt8 → ℕ) : SearchCorpusEligibility → PreparedSearchPath
  | .eligible bytes metadata => .indexed (prepareContent hashBytes bytes metadata)
  | .unindexed metadata => .unindexed metadata
  | .skipped => .skipped

def insertDeltaPosting (postings : List Posting) (posting : Posting) : List Posting :=
  if postings.getLast?.all (·.fileId < posting.fileId) then postings ++ [posting]
  else
    postings.takeWhile (·.fileId < posting.fileId) ++
      posting :: postings.dropWhile (·.fileId < posting.fileId)

def PostingFilter.posting (filter : PostingFilter) (fileId : ℕ) : Posting :=
  ⟨fileId, filter.nextMask, filter.locMask⟩

def addDeltaPostings (fileId : ℕ) (entries : List (ℕ × PostingFilter))
    (postings : SortedMap ℕ (List Posting)) : SortedMap ℕ (List Posting) :=
  entries.foldl (fun postings entry => postings.insert entry.1
    (insertDeltaPosting ((postings.find? entry.1).getD []) (entry.2.posting fileId))) postings

def dropDeltaPosting (fileId : ℕ) (postings : SortedMap ℕ (List Posting)) (trigram : ℕ) :
    SortedMap ℕ (List Posting) :=
  match postings.find? trigram with
  | none => postings
  | some stored =>
    let kept := stored.filter (·.fileId ≠ fileId)
    if kept = [] then postings.erase trigram else postings.insert trigram kept

namespace SearchIndex

/-! ## Adding files -/

variable (index : SearchIndex)

def allocateFileId (path : Path) (metadata : FileMetadata) : Option (ℕ × SearchIndex) :=
  let allocated := match index.freeDeltaFileIds with
    | fileId :: free => some (fileId, free)
    | [] => if index.files.length < 2 ^ 32 then some (index.files.length, []) else none
  allocated.map fun (fileId, free) =>
    let file : FileEntry := ⟨path, metadata, 0⟩
    (fileId, { index with
      freeDeltaFileIds := free
      files := if fileId < index.files.length then index.files.set fileId file
        else index.files ++ [file]
      pathToId := index.pathToId.insert path fileId })

/-- `none` when no id is left, and then nothing is changed. -/
def indexPreparedNewFile (path : Path) (file : PreparedIndexedFile) : Option SearchIndex :=
  (index.allocateFileId path file.metadata).map fun (fileId, index) =>
    { index with
      files := index.files.modify fileId ({ · with contentHash := file.contentHash })
      deltaPostings := addDeltaPostings fileId file.trigramMap.entries index.deltaPostings
      deltaFileTrigrams := index.deltaFileTrigrams.insert fileId file.trigramMap.keys
      unindexedFiles := index.unindexedFiles.filter (· ≠ fileId) }

def trackUnindexedFile (path : Path) (metadata : FileMetadata) : Option SearchIndex :=
  (index.allocateFileId path metadata).map fun (fileId, index) =>
    { index with unindexedFiles := fileId :: index.unindexedFiles }

/-! ## Removing files -/

/-- Take a path out of the table of paths, or else its canonical spelling. -/
def takeFileId (path canonicalPath : Path) : Option (ℕ × SortedMap Path ℕ) :=
  match index.pathToId.find? path with
  | some fileId => some (fileId, index.pathToId.erase path)
  | none =>
    if canonicalPath ≠ path then
      (index.pathToId.find? canonicalPath).map (·, index.pathToId.erase canonicalPath)
    else none

/-- Empty the slot of a file whose path is already taken out. -/
def releaseFileId (fileId : ℕ) : SearchIndex :=
  { index with
    superseded := if fileId < index.baseFileCount then fileId :: index.superseded
      else index.superseded
    deltaFileTrigrams := index.deltaFileTrigrams.erase fileId
    deltaPostings := ((index.deltaFileTrigrams.find? fileId).getD []).foldl (dropDeltaPosting fileId)
      index.deltaPostings
    unindexedFiles := index.unindexedFiles.filter (· ≠ fileId)
    files := index.files.set fileId .empty
    freeDeltaFileIds := if index.baseFileCount ≤ fileId then fileId :: index.freeDeltaFileIds
      else index.freeDeltaFileIds }

def removeResolvedFile (path canonicalPath : Path) : SearchIndex :=
  match index.takeFileId path canonicalPath with
  | none => index
  | some (fileId, pathToId) => releaseFileId { index with pathToId := pathToId } fileId

/-! ## Entry points -/

/-- `canonicalPath` is what the file system makes of the path. -/
def removeFile (path canonicalPath : Path) : SearchIndex :=
  index.removeResolvedFile path canonicalPath

def indexFile (hashBytes : List UInt8 → ℕ) (index : SearchIndex) (path canonicalPath : Path)
    (content : List UInt8) (metadata : FileMetadata) : SearchIndex :=
  let index := index.removeFile path canonicalPath
  (index.indexPreparedNewFile path (prepareContent hashBytes content metadata)).getD index

/-- `admits` tells the paths of the corpus. -/
def applySearchUpdate (admits : Path → Bool) (index : SearchIndex) (path : Path)
    (file : PreparedSearchPath) : SearchIndex :=
  if admits path then
    let index := index.removeResolvedFile path path
    match file with
    | .indexed file => (index.indexPreparedNewFile path file).getD index
    | .unindexed metadata => (index.trackUnindexedFile path metadata).getD index
    | .skipped => index
  else index

end SearchIndex

/-! ## Compaction -/

structure SpillRecord where
  trigram : ℕ
  fileId : ℕ
  nextMask : ℕ
  locMask : ℕ
deriving DecidableEq, Repr

namespace SpillRecord

/-- The order of the merge. -/
def le (left right : SpillRecord) : Bool :=
  left.trigram < right.trigram ∨ left.trigram = right.trigram ∧ left.fileId ≤ right.fileId

def posting (record : SpillRecord) : Posting := ⟨record.fileId, record.nextMask, record.locMask⟩

end SpillRecord

/-- The new id of an active file: its place among the active files. -/
def idMap (activeIds : List ℕ) (fileId : ℕ) : Option ℕ :=
  if fileId ∈ activeIds then some (activeIds.idxOf fileId) else none

/-- A posting under the new id of its file. -/
def spill (activeIds : List ℕ) (trigram : ℕ) (posting : Posting) : Option SpillRecord :=
  (idMap activeIds posting.fileId).map (⟨trigram, ·, posting.nextMask, posting.locMask⟩)

/-- The postings of the cache file, by trigram, as the merge writes them one after another. -/
def basePostings (records : List SpillRecord) : SortedMap ℕ (List Posting) :=
  records.foldl (fun base record =>
    base.insert record.trigram ((base.find? record.trigram).getD [] ++ [record.posting])) .empty

structure CacheWritePlan where
  files : List FileEntry
  pathToId : SortedMap Path ℕ
  unindexedFiles : List ℕ

/-- Add a file under its new id. -/
def CacheWritePlan.push (plan : CacheWritePlan) (file : FileEntry) (newId : ℕ) (unindexed : Bool) :
    CacheWritePlan where
  files := plan.files ++ [file]
  pathToId := plan.pathToId.insert file.path newId
  unindexedFiles := if unindexed then newId :: plan.unindexedFiles else plan.unindexedFiles

namespace SearchIndex

section

variable (index : SearchIndex)

/-- The tables of the new base, file by file. -/
def planFiles (activeIds : List ℕ) : List ℕ → CacheWritePlan → Option CacheWritePlan
  | [], plan => some plan
  | oldId :: oldIds, plan => do
    let newId ← idMap activeIds oldId
    let file ← index.files[oldId]?
    planFiles activeIds oldIds
      (if file.path = "" then plan else plan.push file newId (oldId ∈ index.unindexedFiles))

def cacheWritePlan : Option CacheWritePlan :=
  if index.activeFileIds.length ≤ 2 ^ 32 then
    index.planFiles index.activeFileIds index.activeFileIds ⟨[], .empty, []⟩
  else none

def baseRecords : List SpillRecord :=
  index.base.entries.flatMap fun entry => entry.2.filterMap fun posting =>
    if posting.fileId ∈ index.superseded then none
    else spill index.activeFileIds entry.1 posting

def deltaRecords : List SpillRecord :=
  (index.deltaPostings.entries.flatMap fun entry =>
    entry.2.filterMap (spill index.activeFileIds entry.1)).mergeSort SpillRecord.le

/-- `none` when the plan is refused, and then nothing is changed. -/
def writeToDisk : Option SearchIndex :=
  index.cacheWritePlan.map fun plan =>
    { base := basePostings (index.baseRecords.merge index.deltaRecords SpillRecord.le)
      baseFileCount := if plan.files.length < 2 ^ 32 then plan.files.length else 2 ^ 32 - 1
      deltaPostings := .empty
      superseded := []
      deltaFileTrigrams := .empty
      freeDeltaFileIds := []
      files := plan.files
      pathToId := plan.pathToId
      unindexedFiles := plan.unindexedFiles }

end

end SearchIndex

end Aft.Search
