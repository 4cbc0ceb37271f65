import Aft.Search.Prefilter

/-!
# The search index as a map of paths

A `Corpus` gives each path its latest state. An index that went through updates and compactions
represents the corpus of the same updates (`SearchIndex.Represents`): its postings are those of the
latest contents, and an id that is free or not used yet is named by no posting.
-/

namespace Aft.Search

open List Function SortedMap

/-! ## The corpus -/

inductive FileState where
  | indexed (content : List UInt8)
  | unindexed
deriving DecidableEq, Repr

/-- The trigrams of a file with their masks. -/
def FileState.filters : FileState → SortedMap ℕ PostingFilter
  | .indexed content => trigramFilterMap content true
  | .unindexed => .empty

abbrev Corpus := Path → Option FileState

/-- Without a path, or else without its canonical spelling. -/
def Corpus.remove (corpus : Corpus) (path canonicalPath : Path) : Corpus :=
  if (corpus path).isSome then update corpus path none
  else update corpus canonicalPath none

def IsPosting (filters : SortedMap ℕ PostingFilter) (fileId trigram : ℕ) (posting : Posting) : Prop :=
  ∃ filter, filters.find? trigram = some filter ∧ posting = filter.posting fileId

/-! ## Postings in the delta -/

def postingsIn (postings : SortedMap ℕ (List Posting)) (trigram : ℕ) : List Posting :=
  (postings.find? trigram).getD []

theorem postingsIn_insert (postings : SortedMap ℕ (List Posting)) (trigram other : ℕ)
    (stored : List Posting) : postingsIn (postings.insert trigram stored) other =
      if other = trigram then stored else postingsIn postings other := by
  unfold postingsIn
  split <;> rename_i h
  · rw [h, find?_insert_self]
    rfl
  · rw [find?_insert_of_ne _ _ h]

variable {posting : Posting}

theorem mem_insertDeltaPosting {postings : List Posting} {other : Posting} :
    other ∈ insertDeltaPosting postings posting ↔ other = posting ∨ other ∈ postings := by
  unfold insertDeltaPosting
  split
  · rw [mem_append, mem_singleton, or_comm]
  · rw [mem_append, mem_cons, or_left_comm, ← mem_append, takeWhile_append_dropWhile]

theorem mem_addDeltaPostings (fileId : ℕ) (entries : List (ℕ × PostingFilter))
    (postings : SortedMap ℕ (List Posting)) (t : ℕ) (posting : Posting) :
    posting ∈ postingsIn (addDeltaPostings fileId entries postings) t ↔
      (∃ filter, (t, filter) ∈ entries ∧ posting = filter.posting fileId) ∨
        posting ∈ postingsIn postings t := by
  induction entries generalizing postings with
  | nil => simp [addDeltaPostings]
  | cons entry entries ih =>
    rw [addDeltaPostings, foldl_cons, ← addDeltaPostings, ih, postingsIn_insert]
    split <;> rename_i h
    · obtain ⟨trigram, filter⟩ := entry
      obtain rfl : t = trigram := h
      rw [mem_insertDeltaPosting]
      simp only [mem_cons, Prod.mk.injEq, true_and, or_and_right, exists_or, exists_eq_left]
      rw [or_left_comm, or_assoc]
      rfl
    · have hne : ∀ filter, (t, filter) ≠ entry := fun filter heq => h (heq ▸ rfl)
      simp [hne]

theorem postingsIn_erase (postings : SortedMap ℕ (List Posting)) (trigram other : ℕ) :
    postingsIn (postings.erase trigram) other =
      if other = trigram then [] else postingsIn postings other := by
  unfold postingsIn
  split <;> rename_i h
  · rw [h, find?_erase_self]
    rfl
  · rw [find?_erase_of_ne _ h]

theorem postingsIn_dropDeltaPosting (fileId : ℕ) (postings : SortedMap ℕ (List Posting))
    (trigram t : ℕ) : postingsIn (dropDeltaPosting fileId postings trigram) t =
      if t = trigram then (postingsIn postings t).filter (·.fileId ≠ fileId)
      else postingsIn postings t := by
  unfold dropDeltaPosting
  split <;> rename_i hs
  · split <;> rename_i h
    · rw [h, postingsIn, hs]
      rfl
    · rfl
  · rename_i stored
    have hin : postingsIn postings trigram = stored := by
      rw [postingsIn, hs]
      rfl
    have hc : postingsIn (if stored.filter (·.fileId ≠ fileId) = [] then postings.erase trigram
        else postings.insert trigram (stored.filter (·.fileId ≠ fileId))) t =
        if t = trigram then stored.filter (·.fileId ≠ fileId) else postingsIn postings t := by
      split <;> rename_i hk
      · rw [postingsIn_erase, hk]
      · rw [postingsIn_insert]
    refine hc.trans ?_
    split <;> rename_i h
    · rw [h, hin]
    · rfl

theorem mem_foldl_dropDeltaPosting (fileId : ℕ) (trigrams : List ℕ)
    (postings : SortedMap ℕ (List Posting)) (t : ℕ) (posting : Posting) :
    posting ∈ postingsIn (trigrams.foldl (dropDeltaPosting fileId) postings) t ↔
      posting ∈ postingsIn postings t ∧ (t ∈ trigrams → posting.fileId ≠ fileId) := by
  induction trigrams generalizing postings with
  | nil => simp
  | cons trigram trigrams ih =>
    rw [foldl_cons, ih, postingsIn_dropDeltaPosting]
    split <;> rename_i h
    · simp only [mem_filter, decide_eq_true_eq, h, mem_cons, true_or]
      tauto
    · simp only [mem_cons, h, false_or]

/-! ## The tables of ids -/

namespace SearchIndex

theorem mem_storedPostings {index : SearchIndex} {t : ℕ} :
    posting ∈ index.storedPostings t ↔
      posting ∈ postingsIn index.base t ∨ posting ∈ postingsIn index.deltaPostings t :=
  mem_append

/-- The path in the slot of an id; it is empty in an emptied slot. -/
def pathOf (index : SearchIndex) (fileId : ℕ) : Option Path := (index.files[fileId]?).map (·.path)

/-- The tables of paths and ids agree. -/
structure IdTables (index : SearchIndex) : Prop where
  files : ∀ path fileId,
    index.pathToId.find? path = some fileId ↔ path ≠ "" ∧ index.pathOf fileId = some path
  base_le : index.baseFileCount ≤ index.files.length
  superseded : ∀ fileId ∈ index.superseded,
    fileId < index.baseFileCount ∧ index.pathOf fileId = some ""
  free : ∀ fileId ∈ index.freeDeltaFileIds,
    index.baseFileCount ≤ fileId ∧ index.pathOf fileId = some ""
  free_nodup : index.freeDeltaFileIds.Nodup

/-- The postings are those of the corpus, and no stale posting of the delta is left. -/
structure Represents (index : SearchIndex) (corpus : Corpus) : Prop where
  tables : index.IdTables
  tracked : ∀ path, (index.pathToId.find? path).isSome ↔ (corpus path).isSome
  base_lt : ∀ t, ∀ posting ∈ postingsIn index.base t, posting.fileId < index.baseFileCount
  delta_live : ∀ t, ∀ posting ∈ postingsIn index.deltaPostings t,
    (∃ path, index.pathToId.find? path = some posting.fileId) ∧
      ∃ trigrams, index.deltaFileTrigrams.find? posting.fileId = some trigrams ∧ t ∈ trigrams
  postings : ∀ path fileId state, index.pathToId.find? path = some fileId →
    corpus path = some state → ∀ t posting, posting.fileId = fileId →
      (posting ∈ index.storedPostings t ↔ IsPosting state.filters fileId t posting)
  unindexed : ∀ path fileId state, index.pathToId.find? path = some fileId →
    corpus path = some state → (fileId ∈ index.unindexedFiles ↔ state = .unindexed)

theorem represents_new : new.Represents fun _ => none where
  tables := ⟨by simp [new, pathOf], by simp [new], by simp [new], by simp [new], nodup_nil⟩
  tracked := by simp [new]
  base_lt := by simp [new, postingsIn]
  delta_live := by simp [new, postingsIn]
  postings := by simp
  unindexed := by simp

/-! ## Adding a file -/

structure Added (index : SearchIndex) (path : Path) (state : FileState) (fileId : ℕ)
    (index' : SearchIndex) : Prop where
  fresh : index.baseFileCount ≤ fileId
  vacant : ∀ other, index.pathOf fileId = some other → other = ""
  base : index'.base = index.base
  baseFileCount : index'.baseFileCount = index.baseFileCount
  superseded : index'.superseded = index.superseded
  free : ∀ other ∈ index'.freeDeltaFileIds, other ∈ index.freeDeltaFileIds ∧ other ≠ fileId
  free_nodup : index'.freeDeltaFileIds.Nodup
  pathOf : ∀ other, index'.pathOf other = if other = fileId then some path else index.pathOf other
  length_le : index.files.length ≤ index'.files.length
  pathToId : index'.pathToId = index.pathToId.insert path fileId
  delta : ∀ t posting, posting ∈ postingsIn index'.deltaPostings t ↔
    IsPosting state.filters fileId t posting ∨ posting ∈ postingsIn index.deltaPostings t
  trigrams_self : ∀ t, (state.filters.find? t).isSome →
    ∃ trigrams, index'.deltaFileTrigrams.find? fileId = some trigrams ∧ t ∈ trigrams
  trigrams_other : ∀ other, other ≠ fileId →
    index'.deltaFileTrigrams.find? other = index.deltaFileTrigrams.find? other
  unindexed_self : fileId ∈ index'.unindexedFiles ↔ state = .unindexed
  unindexed_other : ∀ other, other ≠ fileId →
    (other ∈ index'.unindexedFiles ↔ other ∈ index.unindexedFiles)

variable {index : SearchIndex} {corpus : Corpus}

variable {fileId : ℕ} {path : Path}

theorem lt_length_of_pathOf (h : index.pathOf fileId = some path) :
    fileId < index.files.length := by
  by_contra hge
  rw [pathOf, getElem?_eq_none (Nat.not_lt.1 hge)] at h
  cases h

theorem map_path_set (index : SearchIndex) (hlt : fileId < index.files.length) (file : FileEntry)
    (other : ℕ) : ((index.files.set fileId file)[other]?).map (·.path) =
      if other = fileId then some file.path else index.pathOf other := by
  rw [getElem?_set]
  by_cases ho : fileId = other
  · subst ho
    simp [hlt]
  · rw [if_neg ho, if_neg (Ne.symm ho), pathOf]

theorem IdTables.ne_of_vacant (h : index.IdTables)
    (hv : ∀ other, index.pathOf fileId = some other → other = "") {other : ℕ}
    (ho : index.pathToId.find? path = some other) : other ≠ fileId := by
  rintro rfl
  obtain ⟨hne, hp⟩ := (h.files path other).1 ho
  exact hne (hv path hp)

variable {state : FileState} {index' : SearchIndex}

theorem IdTables.added (h : index.IdTables) (hadd : index.Added path state fileId index')
    (hp : path ≠ "") (hab : index.pathToId.find? path = none) : index'.IdTables where
  files other id := by
    rw [hadd.pathToId, hadd.pathOf]
    by_cases ho : other = path
    · subst ho
      rw [find?_insert_self, Option.some_inj]
      split <;> rename_i hid
      · exact iff_of_true hid.symm ⟨hp, rfl⟩
      · refine iff_of_false (Ne.symm hid) fun hs => ?_
        rw [(h.files other id).2 hs] at hab
        cases hab
    · rw [find?_insert_of_ne _ _ ho, h.files]
      split <;> rename_i hid
      · refine and_congr_right fun hne => iff_of_false (fun hs => ?_) fun heq => ?_
        · exact hne (hadd.vacant other (hid ▸ hs))
        · exact ho (Option.some_inj.1 heq).symm
      · rfl
  base_le := by
    rw [hadd.baseFileCount]
    exact h.base_le.trans hadd.length_le
  superseded id hid := by
    rw [hadd.superseded] at hid
    obtain ⟨hlt, hem⟩ := h.superseded id hid
    have hne : id ≠ fileId := (hlt.trans_le hadd.fresh).ne
    rw [hadd.baseFileCount, hadd.pathOf, if_neg hne]
    exact ⟨hlt, hem⟩
  free id hid := by
    obtain ⟨hold, hne⟩ := hadd.free id hid
    rw [hadd.baseFileCount, hadd.pathOf, if_neg hne]
    exact h.free id hold
  free_nodup := hadd.free_nodup

theorem Represents.added (h : index.Represents corpus) (hadd : index.Added path state fileId index')
    (hp : path ≠ "") (hab : corpus path = none) :
    index'.Represents (update corpus path (some state)) := by
  have hn : index.pathToId.find? path = none := by
    rw [← Option.not_isSome_iff_eq_none, h.tracked, hab]
    simp
  -- A path that was tracked before keeps its id and its state.
  have hold : ∀ {other id state'}, other ≠ path → index'.pathToId.find? other = some id →
      update corpus path (some state) other = some state' →
      index.pathToId.find? other = some id ∧ corpus other = some state' ∧ id ≠ fileId := by
    intro other id state' ho hid hs
    rw [hadd.pathToId, find?_insert_of_ne _ _ ho] at hid
    rw [update_of_ne ho] at hs
    exact ⟨hid, hs, h.tables.ne_of_vacant hadd.vacant hid⟩
  have hnew : ∀ {id state'}, index'.pathToId.find? path = some id →
      update corpus path (some state) path = some state' → id = fileId ∧ state' = state := by
    intro id state' hid hs
    rw [hadd.pathToId, find?_insert_self] at hid
    rw [update_self] at hs
    exact ⟨(Option.some_inj.1 hid).symm, (Option.some_inj.1 hs).symm⟩
  have hst : ∀ t posting, posting ∈ index'.storedPostings t ↔
      IsPosting state.filters fileId t posting ∨ posting ∈ index.storedPostings t := by
    intro t posting
    rw [mem_storedPostings, mem_storedPostings, hadd.base, hadd.delta, or_left_comm]
  refine ⟨h.tables.added hadd hp hn, fun other => ?_, fun t posting hmem => ?_,
    fun t posting hmem => ?_, fun other id state' hid hs t posting hpo => ?_,
    fun other id state' hid hs => ?_⟩
  · rw [hadd.pathToId]
    by_cases ho : other = path
    · subst ho
      simp
    · rw [find?_insert_of_ne _ _ ho, update_of_ne ho]
      exact h.tracked other
  · rw [hadd.baseFileCount]
    rw [hadd.base] at hmem
    exact h.base_lt t posting hmem
  · rcases (hadd.delta t posting).1 hmem with ⟨filter, hf, rfl⟩ | hmem
    · refine ⟨⟨path, ?_⟩, hadd.trigrams_self t (by rw [hf]; rfl)⟩
      rw [hadd.pathToId, find?_insert_self]
      rfl
    · obtain ⟨⟨other, ho⟩, ht⟩ := h.delta_live t posting hmem
      have hne := h.tables.ne_of_vacant hadd.vacant ho
      rw [hadd.trigrams_other _ hne]
      refine ⟨⟨other, ?_⟩, ht⟩
      rwa [hadd.pathToId, find?_insert_of_ne]
      rintro rfl
      rw [ho] at hn
      cases hn
  · rw [hst]
    by_cases ho : other = path
    · subst ho
      obtain ⟨rfl, rfl⟩ := hnew hid hs
      refine or_iff_left fun hmem => ?_
      rcases mem_storedPostings.1 hmem with hb | hd
      · exact ((h.base_lt t posting hb).trans_le hadd.fresh).ne hpo
      · obtain ⟨⟨other, ho⟩, -⟩ := h.delta_live t posting hd
        exact h.tables.ne_of_vacant hadd.vacant ho hpo
    · obtain ⟨hid, hs, hne⟩ := hold ho hid hs
      rw [h.postings other id state' hid hs t posting hpo]
      refine or_iff_right fun ⟨filter, _, heq⟩ => hne ?_
      rw [← hpo, heq]
      rfl
  · by_cases ho : other = path
    · subst ho
      obtain ⟨rfl, rfl⟩ := hnew hid hs
      exact hadd.unindexed_self
    · obtain ⟨hid, hs, hne⟩ := hold ho hid hs
      rw [hadd.unindexed_other id hne]
      exact h.unindexed other id state' hid hs

/-- What an allocation takes and where it puts the path. -/
theorem IdTables.allocateFileId_spec (h : index.IdTables) (hfew : index.files.length < 2 ^ 32)
    (path : Path) (metadata : FileMetadata) :
    ∃ fileId free files, index.allocateFileId path metadata = some (fileId, { index with
        freeDeltaFileIds := free
        files := files
        pathToId := index.pathToId.insert path fileId }) ∧
      index.baseFileCount ≤ fileId ∧ (∀ other, index.pathOf fileId = some other → other = "") ∧
      (∀ other ∈ free, other ∈ index.freeDeltaFileIds ∧ other ≠ fileId) ∧ free.Nodup ∧
      (∀ other, ((files[other]?).map (·.path) : Option Path) =
        if other = fileId then some path else index.pathOf other) ∧
      index.files.length ≤ files.length := by
  unfold allocateFileId
  cases hf : index.freeDeltaFileIds with
  | cons fileId free =>
    have hmem : fileId ∈ index.freeDeltaFileIds := hf ▸ mem_cons_self
    obtain ⟨hb, hem⟩ := h.free fileId hmem
    have hlt := lt_length_of_pathOf hem
    have hn := h.free_nodup
    rw [hf, nodup_cons] at hn
    refine ⟨fileId, free, index.files.set fileId ⟨path, metadata, 0⟩, ?_, hb, ?_, ?_, hn.2,
      index.map_path_set hlt _, (length_set).ge⟩
    · dsimp only [Option.map_some]
      rw [if_pos hlt]
    · intro other ho
      rw [hem] at ho
      exact (Option.some_inj.1 ho).symm
    · exact fun other ho => ⟨mem_cons_of_mem _ ho, fun heq => hn.1 (heq ▸ ho)⟩
  | nil =>
    refine ⟨index.files.length, [], index.files ++ [⟨path, metadata, 0⟩], ?_, h.base_le, ?_, ?_,
      nodup_nil, ?_, ?_⟩
    · dsimp only
      rw [if_pos hfew]
      dsimp only [Option.map_some]
      rw [if_neg (Nat.lt_irrefl _)]
    · intro other ho
      rw [pathOf, getElem?_eq_none le_rfl] at ho
      cases ho
    · exact fun other ho => absurd ho not_mem_nil
    · intro other
      rcases lt_trichotomy other index.files.length with hlt | rfl | hgt
      · rw [getElem?_append_left hlt, if_neg hlt.ne, pathOf]
      · simp
      · rw [if_neg hgt.ne', pathOf, getElem?_eq_none (by simpa using hgt),
          getElem?_eq_none hgt.le]
    · simp

section

variable (h : index.Represents corpus) (hfew : index.files.length < 2 ^ 32) (hp : path ≠ "")
  (hab : corpus path = none)
include h hfew hp hab

theorem Represents.indexPreparedNewFile
    (content : List UInt8) (metadata : FileMetadata) (contentHash : ℕ) :
    ∃ index', index.indexPreparedNewFile path ⟨metadata, contentHash, trigramFilterMap content true⟩ =
        some index' ∧ index'.Represents (update corpus path (some (.indexed content))) := by
  obtain ⟨fileId, free, files, hal, hb, hv, hf, hn, hfi, hl⟩ :=
    h.tables.allocateFileId_spec hfew path metadata
  refine ⟨_, by rw [SearchIndex.indexPreparedNewFile, hal]; rfl,
    h.added (?_ : index.Added path _ fileId _) hp hab⟩
  exact {
    fresh := hb
    vacant := hv
    base := rfl
    baseFileCount := rfl
    superseded := rfl
    free := hf
    free_nodup := hn
    pathOf := fun other => by
      rw [← hfi, SearchIndex.pathOf, getElem?_modify]
      cases files[other]? with
      | none => rfl
      | some file => by_cases ho : fileId = other <;> simp [ho]
    length_le := hl.trans (length_modify ..).ge
    pathToId := rfl
    delta := fun t posting => by
      rw [mem_addDeltaPostings]
      simp only [IsPosting, FileState.filters, find?_eq_some_iff]
    trigrams_self := fun t ht => ⟨_, find?_insert_self _ _ _, mem_keys_iff.2 ht⟩
    trigrams_other := fun other ho => find?_insert_of_ne _ _ ho
    unindexed_self := by simp
    unindexed_other := fun other ho => by simp [ho] }

theorem Represents.trackUnindexedFile (metadata : FileMetadata) :
    ∃ index', index.trackUnindexedFile path metadata = some index' ∧
      index'.Represents (update corpus path (some .unindexed)) := by
  obtain ⟨fileId, free, files, hal, hb, hv, hf, hn, hfi, hl⟩ :=
    h.tables.allocateFileId_spec hfew path metadata
  refine ⟨_, by rw [SearchIndex.trackUnindexedFile, hal]; rfl,
    h.added (?_ : index.Added path _ fileId _) hp hab⟩
  exact {
    fresh := hb
    vacant := hv
    base := rfl
    baseFileCount := rfl
    superseded := rfl
    free := hf
    free_nodup := hn
    pathOf := hfi
    length_le := hl
    pathToId := rfl
    delta := fun t posting => by simp [IsPosting, FileState.filters]
    trigrams_self := fun t ht => by simp [FileState.filters] at ht
    trigrams_other := fun other ho => rfl
    unindexed_self := by simp
    unindexed_other := fun other ho => by simp [ho] }

end

/-! ## Removing a file -/

/-- An id that is marked once a file is released has an empty slot then. -/
theorem mem_marked {marks : ℕ → Prop} [Decidable (marks fileId)] {marked : List ℕ}
    (hm : ∀ id ∈ marked, marks id ∧ index.pathOf id = some "") {id : ℕ}
    (hid : id ∈ if marks fileId then fileId :: marked else marked) :
    marks id ∧ (if id = fileId then some "" else index.pathOf id) = some "" := by
  have hmem : id = fileId ∧ marks fileId ∨ id ∈ marked := by
    split at hid
    · rename_i hb
      exact (mem_cons.1 hid).imp_left (⟨·, hb⟩)
    · exact .inr hid
  rcases hmem with ⟨rfl, hb⟩ | hold
  · exact ⟨hb, if_pos rfl⟩
  · obtain ⟨hb, hem⟩ := hm id hold
    refine ⟨hb, ?_⟩
    split
    · rfl
    · exact hem

section

variable (h : index.IdTables) (hp : index.pathToId.find? path = some fileId)
include h hp

theorem IdTables.path_inj {other : Path}
    (ho : index.pathToId.find? other = some fileId) : path = other := by
  have heq := ((h.files path fileId).1 hp).2
  rw [((h.files other fileId).1 ho).2] at heq
  exact (Option.some_inj.1 heq).symm

theorem IdTables.releaseFileId :
    (SearchIndex.releaseFileId { index with pathToId := index.pathToId.erase path } fileId).IdTables := by
  obtain ⟨hne, hs⟩ := (h.files path fileId).1 hp
  have hpa : ∀ id, (SearchIndex.releaseFileId
      { index with pathToId := index.pathToId.erase path } fileId).pathOf id =
        if id = fileId then some "" else index.pathOf id :=
    index.map_path_set (lt_length_of_pathOf hs) .empty
  refine ⟨fun other id => ?_, h.base_le.trans (length_set).ge, fun id hid => ?_,
    fun id hid => ?_, ?_⟩
  · rw [hpa]
    change (index.pathToId.erase path).find? other = some id ↔ _
    by_cases ho : other = path
    · subst ho
      refine iff_of_false (by simp) fun ⟨_, hid⟩ => ?_
      split at hid
      · exact hne (Option.some_inj.1 hid).symm
      · rename_i hid'
        have hpa' := (h.files other id).2 ⟨hne, hid⟩
        rw [hp] at hpa'
        exact hid' (Option.some_inj.1 hpa').symm
    · rw [find?_erase_of_ne _ ho, h.files]
      split <;> rename_i hid
      · refine and_congr_right fun hne' => iff_of_false (fun hs' => ?_) fun heq => ?_
        · rw [hid, hs] at hs'
          exact ho (Option.some_inj.1 hs').symm
        · exact hne' (Option.some_inj.1 heq).symm
      · rfl
  · rw [hpa]
    exact mem_marked h.superseded hid
  · rw [hpa]
    exact mem_marked h.free hid
  · change (if index.baseFileCount ≤ fileId then fileId :: index.freeDeltaFileIds
      else index.freeDeltaFileIds).Nodup
    split
    · refine nodup_cons.2 ⟨fun hmem => ?_, h.free_nodup⟩
      have hem := (h.free fileId hmem).2
      rw [hs] at hem
      exact hne (Option.some_inj.1 hem)
    · exact h.free_nodup

end

theorem Represents.releaseFileId (h : index.Represents corpus)
    (hp : index.pathToId.find? path = some fileId) :
    (SearchIndex.releaseFileId { index with pathToId := index.pathToId.erase path } fileId).Represents
      (update corpus path none) := by
  have hd : ∀ t posting, posting ∈ postingsIn (SearchIndex.releaseFileId
      { index with pathToId := index.pathToId.erase path } fileId).deltaPostings t ↔
        posting ∈ postingsIn index.deltaPostings t ∧ posting.fileId ≠ fileId := by
    intro t posting
    refine (mem_foldl_dropDeltaPosting fileId _ _ t posting).trans (and_congr_right fun hmem => ?_)
    refine ⟨fun hne heq => hne ?_ heq, fun hne _ => hne⟩
    obtain ⟨-, trigrams, htr, ht⟩ := h.delta_live t posting hmem
    rw [heq] at htr
    rwa [htr]
  have hold : ∀ {other id state'}, (index.pathToId.erase path).find? other = some id →
      update corpus path none other = some state' →
      index.pathToId.find? other = some id ∧ corpus other = some state' ∧ id ≠ fileId := by
    intro other id state' hid hs
    have ho : other ≠ path := by
      rintro rfl
      rw [update_self] at hs
      cases hs
    rw [find?_erase_of_ne _ ho] at hid
    rw [update_of_ne ho] at hs
    refine ⟨hid, hs, ?_⟩
    rintro rfl
    exact ho (h.tables.path_inj hid hp)
  refine ⟨h.tables.releaseFileId hp, fun other => ?_, h.base_lt, fun t posting hmem => ?_,
    fun other id state' hid hs t posting hpo => ?_, fun other id state' hid hs => ?_⟩
  · change ((index.pathToId.erase path).find? other).isSome ↔ _
    by_cases ho : other = path
    · subst ho
      simp
    · rw [find?_erase_of_ne _ ho, update_of_ne ho]
      exact h.tracked other
  · obtain ⟨hmem, hne⟩ := (hd t posting).1 hmem
    obtain ⟨⟨other, ho⟩, htr⟩ := h.delta_live t posting hmem
    change (∃ path', (index.pathToId.erase path).find? path' = some posting.fileId) ∧
      ∃ trigrams, (index.deltaFileTrigrams.erase fileId).find? posting.fileId = some trigrams ∧ _
    rw [find?_erase_of_ne _ hne]
    refine ⟨⟨other, ?_⟩, htr⟩
    rwa [find?_erase_of_ne]
    rintro rfl
    rw [hp] at ho
    exact hne (Option.some_inj.1 ho).symm
  · obtain ⟨hid, hs, hne⟩ := hold hid hs
    rw [← h.postings other id state' hid hs t posting hpo, mem_storedPostings,
      mem_storedPostings, hd, and_iff_left (hpo ▸ hne)]
    rfl
  · obtain ⟨hid, hs, hne⟩ := hold hid hs
    rw [← h.unindexed other id state' hid hs]
    change id ∈ index.unindexedFiles.filter (· ≠ fileId) ↔ _
    simp [hne]

theorem Represents.removeResolvedFile (h : index.Represents corpus) (path canonicalPath : Path) :
    (index.removeResolvedFile path canonicalPath).Represents (corpus.remove path canonicalPath) := by
  have hk : ∀ {other}, index.pathToId.find? other = none →
      update corpus other none = corpus := by
    intro other ho
    have hab : corpus other = none := by
      rw [← Option.not_isSome_iff_eq_none, ← h.tracked, ho]
      simp
    rw [← hab, update_eq_self]
  have ht := h.tracked path
  unfold SearchIndex.removeResolvedFile takeFileId
  cases hf : index.pathToId.find? path with
  | some fileId =>
    rw [hf] at ht
    rw [Corpus.remove, if_pos (ht.1 rfl)]
    exact h.releaseFileId hf
  | none =>
    have hr : corpus.remove path canonicalPath = update corpus canonicalPath none :=
      if_neg fun hs => by simpa [hf] using ht.2 hs
    rw [hr]
    by_cases hc : canonicalPath = path
    · rw [hc, hk hf]
      simpa using h
    · cases hf' : index.pathToId.find? canonicalPath with
      | none =>
        rw [hk hf']
        simpa using h
      | some fileId => simpa [hc] using h.releaseFileId hf'

end SearchIndex

end Aft.Search
