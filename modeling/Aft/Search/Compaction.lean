import Aft.Search.Corpus

/-!
# Compaction keeps the corpus

`write_to_disk` gives the active files new ids, in the order of the old ones, and merges the
postings of base and delta. The new index represents the same corpus, so an index after any updates
and compactions answers for the latest state of each path (`SearchIndex.reached_represents`).
-/

namespace Aft.Search

open List Function

/-! ## Records -/

variable {t : ℕ} {posting : Posting}

theorem mem_basePostings {records : List SpillRecord} :
    posting ∈ postingsIn (basePostings records) t ↔
      ∃ record ∈ records, record.trigram = t ∧ record.posting = posting := by
  induction records using reverseRecOn with
  | nil => simp [basePostings, postingsIn]
  | append_singleton records record ih =>
    rw [basePostings, foldl_append, ← basePostings, foldl_cons, foldl_nil, postingsIn_insert]
    simp only [mem_append, mem_singleton, or_and_right, exists_or, ← ih]
    split <;> rename_i h
    · subst h
      rw [← postingsIn]
      simp [eq_comm]
    · simp [Ne.symm h]

theorem mem_postingsIn_iff {postings : SortedMap ℕ (List Posting)} :
    posting ∈ postingsIn postings t ↔ ∃ stored, (t, stored) ∈ postings.entries ∧ posting ∈ stored := by
  rw [postingsIn]
  simp only [← SortedMap.find?_eq_some_iff]
  cases postings.find? t <;> simp

variable {path : Path} {fileId : ℕ}

namespace SearchIndex

variable {record : SpillRecord}

theorem mem_baseRecords {index : SearchIndex} :
    record ∈ index.baseRecords ↔ ∃ t, ∃ posting ∈ postingsIn index.base t,
      posting.fileId ∉ index.superseded ∧ spill index.activeFileIds t posting = some record := by
  simp only [baseRecords, mem_flatMap, mem_filterMap, Prod.exists, mem_postingsIn_iff]
  constructor
  · rintro ⟨t, stored, hs, posting, hmem, hr⟩
    split at hr
    · cases hr
    · rename_i hk
      exact ⟨t, posting, ⟨stored, hs, hmem⟩, hk, hr⟩
  · rintro ⟨t, posting, ⟨stored, hs, hmem⟩, hk, hr⟩
    exact ⟨t, stored, hs, posting, hmem, by rw [if_neg hk, hr]⟩

theorem mem_deltaRecords {index : SearchIndex} :
    record ∈ index.deltaRecords ↔ ∃ t, ∃ posting ∈ postingsIn index.deltaPostings t,
      spill index.activeFileIds t posting = some record := by
  rw [deltaRecords, mem_mergeSort]
  simp only [mem_flatMap, mem_filterMap, Prod.exists, mem_postingsIn_iff]
  constructor
  · rintro ⟨t, stored, hs, posting, hmem, hr⟩
    exact ⟨t, posting, ⟨stored, hs, hmem⟩, hr⟩
  · rintro ⟨t, posting, ⟨stored, hs, hmem⟩, hr⟩
    exact ⟨t, stored, hs, posting, hmem, hr⟩

/-! ## New ids -/

variable {index : SearchIndex} {corpus : Corpus}

section

variable (h : index.IdTables)
include h

section

variable (hp : index.pathToId.find? path = some fileId)
include hp

theorem IdTables.pathOf_ne : index.pathOf fileId ≠ some "" := by
  obtain ⟨hne, hs⟩ := (h.files path fileId).1 hp
  rw [hs]
  exact fun heq => hne (Option.some_inj.1 heq)

theorem IdTables.not_superseded : fileId ∉ index.superseded :=
  fun hmem => h.pathOf_ne hp (h.superseded fileId hmem).2

theorem IdTables.not_free : fileId ∉ index.freeDeltaFileIds :=
  fun hmem => h.pathOf_ne hp (h.free fileId hmem).2

theorem IdTables.isActiveFile : index.isActiveFile fileId = true := by
  obtain ⟨hne, hs⟩ := (h.files path fileId).1 hp
  obtain ⟨file, hf, rfl⟩ := Option.map_eq_some_iff.1 hs
  simp [SearchIndex.isActiveFile, h.not_superseded hp, hf, hne]

end

theorem IdTables.exists_path (hac : index.isActiveFile fileId = true) :
    ∃ path, index.pathToId.find? path = some fileId := by
  rw [SearchIndex.isActiveFile, Bool.and_eq_true, Option.any_eq_true] at hac
  obtain ⟨-, file, hf, hne⟩ := hac
  exact ⟨file.path, (h.files _ _).2 ⟨of_decide_eq_true hne, by rw [pathOf, hf]; rfl⟩⟩

theorem IdTables.lt_length (hp : index.pathToId.find? path = some fileId) :
    fileId < index.files.length :=
  lt_length_of_pathOf ((h.files path fileId).1 hp).2

end

theorem mem_values_iff :
    fileId ∈ index.pathToId.values ↔ ∃ path, index.pathToId.find? path = some fileId := by
  simp [SortedMap.values, SortedMap.find?_eq_some_iff]

theorem IdTables.mem_activeFileIds (h : index.IdTables) :
    fileId ∈ index.activeFileIds ↔ ∃ path, index.pathToId.find? path = some fileId := by
  rw [activeFileIds, mem_sortIds, mem_filter, mem_values_iff]
  exact and_iff_left_of_imp fun ⟨path, hp⟩ => h.isActiveFile hp

end SearchIndex

theorem idMap_eq_some_iff {ids : List ℕ} (hids : ids.Nodup) {old new : ℕ} :
    idMap ids old = some new ↔ ids[new]? = some old := by
  unfold idMap
  constructor
  · intro h
    split at h
    · rename_i hmem
      cases h
      exact getElem?_idxOf hmem
    · cases h
  · intro h
    obtain ⟨hlt, hget⟩ := List.getElem?_eq_some_iff.1 h
    rw [if_pos (mem_of_getElem? h), ← hget, hids.idxOf_getElem]

namespace SearchIndex

variable {index : SearchIndex} {corpus : Corpus}

theorem nodup_activeFileIds (index : SearchIndex) : index.activeFileIds.Nodup :=
  (increasing_sortIds _).imp fun h => h.ne

structure Plans (index : SearchIndex) (activeIds oldIds : List ℕ) (plan : CacheWritePlan) : Prop where
  files : plan.files.map some = oldIds.map (index.files[·]?)
  paths : ∀ path newId, plan.pathToId.find? path = some newId ↔
    ∃ oldId ∈ oldIds, idMap activeIds oldId = some newId ∧ index.pathToId.find? path = some oldId
  unindexed : ∀ newId, newId ∈ plan.unindexedFiles ↔
    ∃ oldId ∈ oldIds, idMap activeIds oldId = some newId ∧ oldId ∈ index.unindexedFiles

theorem planFiles_append (activeIds oldIds oldIds' : List ℕ) (plan : CacheWritePlan) :
    index.planFiles activeIds (oldIds ++ oldIds') plan =
      (index.planFiles activeIds oldIds plan).bind (index.planFiles activeIds oldIds') := by
  induction oldIds generalizing plan with
  | nil => rfl
  | cons oldId oldIds ih =>
    rw [cons_append, planFiles, planFiles]
    simp [ih, Option.bind_assoc]

variable {activeIds oldIds : List ℕ} {plan : CacheWritePlan}

theorem Plans.push (h : index.IdTables) (hp : index.Plans activeIds oldIds plan)
    {oldId newId : ℕ} {file : FileEntry} (hpa : index.pathToId.find? path = some oldId)
    (hf : index.files[oldId]? = some file) (hnew : idMap activeIds oldId = some newId) :
    index.Plans activeIds (oldIds ++ [oldId])
      (plan.push file newId (oldId ∈ index.unindexedFiles)) := by
  have hs : file.path = path := by
    have hs := ((h.files path oldId).1 hpa).2
    rw [pathOf, hf] at hs
    exact Option.some_inj.1 hs
  refine ⟨by simp [CacheWritePlan.push, hp.files, hf], fun other id => ?_, fun id => ?_⟩
  · simp only [CacheWritePlan.push, mem_append, mem_singleton, or_and_right, exists_or,
      exists_eq_left, hs, hnew]
    by_cases ho : other = path
    · subst ho
      rw [SortedMap.find?_insert_self, hpa, and_iff_left rfl]
      refine ⟨.inr, ?_⟩
      rintro (⟨oldId', -, hid, hp'⟩ | hid)
      · obtain rfl := Option.some_inj.1 hp'
        rw [← hnew, hid]
      · exact hid
    · rw [SortedMap.find?_insert_of_ne _ _ ho, hp.paths]
      refine (or_iff_left fun hw => ho ?_).symm
      exact h.path_inj hw.2 hpa
  · have hpu : id ∈ (plan.push file newId (oldId ∈ index.unindexedFiles)).unindexedFiles ↔
        id ∈ plan.unindexedFiles ∨ newId = id ∧ oldId ∈ index.unindexedFiles := by
      rw [CacheWritePlan.push]
      split <;> rename_i hu
      · have := of_decide_eq_true hu
        simp [this, or_comm, eq_comm]
      · have : oldId ∉ index.unindexedFiles := fun hmem => hu (decide_eq_true hmem)
        simp [this]
    rw [hpu, hp.unindexed]
    simp [hnew]

theorem IdTables.plans (h : index.IdTables) (oldIds : List ℕ)
    (hs : ∀ oldId ∈ oldIds, oldId ∈ index.activeFileIds) :
    ∃ plan, index.planFiles index.activeFileIds oldIds ⟨[], .empty, []⟩ = some plan ∧
      index.Plans index.activeFileIds oldIds plan := by
  induction oldIds using reverseRecOn with
  | nil => exact ⟨_, rfl, rfl, by simp, by simp⟩
  | append_singleton oldIds oldId ih =>
    obtain ⟨plan, hp, hpl⟩ := ih fun id hid => hs id (mem_append_left _ hid)
    have hac := hs oldId (mem_append_right _ (mem_singleton_self _))
    obtain ⟨path, hpa⟩ := h.mem_activeFileIds.1 hac
    obtain ⟨hne, hsl⟩ := (h.files path oldId).1 hpa
    obtain ⟨file, hf, rfl⟩ := Option.map_eq_some_iff.1 hsl
    have hnew : idMap index.activeFileIds oldId = some (index.activeFileIds.idxOf oldId) :=
      if_pos hac
    refine ⟨_, ?_, hpl.push h hpa hf hnew⟩
    rw [planFiles_append, hp]
    simp [planFiles, hnew, hf, hne]

/-! ## The new index -/

theorem Plans.length_files (hp : index.Plans activeIds oldIds plan) :
    plan.files.length = oldIds.length := by
  have hl := congrArg length hp.files
  rwa [length_map, length_map] at hl

theorem Plans.pathOf_iff (hp : index.Plans activeIds activeIds plan) (newId : ℕ) (path : Path) :
    (plan.files[newId]?).map (·.path) = some path ↔
      ∃ oldId, activeIds[newId]? = some oldId ∧ index.pathOf oldId = some path := by
  have hs := congrArg (·[newId]?) hp.files
  simp only [getElem?_map] at hs
  constructor
  · intro h
    obtain ⟨file, hf, rfl⟩ := Option.map_eq_some_iff.1 h
    rw [hf, Option.map_some, eq_comm, Option.map_eq_some_iff] at hs
    obtain ⟨oldId, hold, hf'⟩ := hs
    exact ⟨oldId, hold, by rw [pathOf, hf']; rfl⟩
  · rintro ⟨oldId, hold, hpa⟩
    obtain ⟨file, hf, rfl⟩ := Option.map_eq_some_iff.1 hpa
    rw [hold, Option.map_some, hf, Option.map_eq_some_iff] at hs
    obtain ⟨file', hf', heq⟩ := hs
    rw [hf', Option.map_some, Option.some_inj.1 heq]

theorem IdTables.length_activeFileIds_le (h : index.IdTables) :
    index.activeFileIds.length ≤ index.files.length := by
  have hs : index.activeFileIds ⊆ range index.files.length := by
    intro fileId hmem
    obtain ⟨path, hp⟩ := h.mem_activeFileIds.1 hmem
    exact mem_range.2 (h.lt_length hp)
  have hle := (index.nodup_activeFileIds.subperm hs).length_le
  rwa [length_range] at hle

/-- The postings of the new base: those of active files, under their new ids. -/
theorem IdTables.mem_basePostings_iff (h : index.IdTables) :
    posting ∈ postingsIn (basePostings
        (index.baseRecords.merge index.deltaRecords SpillRecord.le)) t ↔
      ∃ stored ∈ index.storedPostings t, idMap index.activeFileIds stored.fileId = some posting.fileId ∧
        posting = ⟨posting.fileId, stored.nextMask, stored.locMask⟩ := by
  have hs : ∀ {t' stored}, (∃ record, spill index.activeFileIds t' stored = some record ∧
      record.trigram = t ∧ record.posting = posting) ↔
        t' = t ∧ idMap index.activeFileIds stored.fileId = some posting.fileId ∧
          posting = ⟨posting.fileId, stored.nextMask, stored.locMask⟩ := by
    intro t' stored
    constructor
    · rintro ⟨record, hr, rfl, rfl⟩
      obtain ⟨newId, hnew, rfl⟩ := Option.map_eq_some_iff.1 hr
      exact ⟨rfl, hnew, rfl⟩
    · rintro ⟨rfl, hnew, hp⟩
      exact ⟨⟨t', posting.fileId, stored.nextMask, stored.locMask⟩, by rw [spill, hnew]; rfl, rfl,
        hp.symm⟩
  rw [mem_basePostings]
  simp only [mem_merge, mem_baseRecords, mem_deltaRecords]
  constructor
  · rintro ⟨record, ⟨t', stored, hmem, -, hr⟩ | ⟨t', stored, hmem, hr⟩, hp⟩
    · obtain ⟨rfl, hnew⟩ := hs.1 ⟨record, hr, hp⟩
      exact ⟨stored, mem_storedPostings.2 (.inl hmem), hnew⟩
    · obtain ⟨rfl, hnew⟩ := hs.1 ⟨record, hr, hp⟩
      exact ⟨stored, mem_storedPostings.2 (.inr hmem), hnew⟩
  · rintro ⟨stored, hmem, hnew⟩
    obtain ⟨record, hr, hp⟩ := hs.2 ⟨rfl, hnew⟩
    refine ⟨record, ?_, hp⟩
    rcases mem_storedPostings.1 hmem with hmem | hmem
    · refine .inl ⟨t, stored, hmem, fun hsu => ?_, hr⟩
      have hac : stored.fileId ∈ index.activeFileIds := by
        by_contra hnot
        rw [idMap, if_neg hnot] at hnew
        cases hnew.1
      obtain ⟨path, hpa⟩ := h.mem_activeFileIds.1 hac
      exact h.not_superseded hpa hsu
    · exact .inr ⟨t, stored, hmem, hr⟩

def compacted (index : SearchIndex) (plan : CacheWritePlan) : SearchIndex where
  base := basePostings (index.baseRecords.merge index.deltaRecords SpillRecord.le)
  baseFileCount := plan.files.length
  deltaPostings := .empty
  superseded := []
  deltaFileTrigrams := .empty
  freeDeltaFileIds := []
  files := plan.files
  pathToId := plan.pathToId
  unindexedFiles := plan.unindexedFiles

theorem IdTables.compacted (h : index.IdTables)
    (hp : index.Plans index.activeFileIds index.activeFileIds plan) :
    (index.compacted plan).IdTables where
  files path newId := by
    refine (hp.paths path newId).trans ?_
    refine Iff.trans ?_ (and_congr_right fun _ => hp.pathOf_iff newId path).symm
    simp only [idMap_eq_some_iff index.nodup_activeFileIds]
    constructor
    · rintro ⟨oldId, -, hnew, hpa⟩
      obtain ⟨hne, hs⟩ := (h.files path oldId).1 hpa
      exact ⟨hne, oldId, hnew, hs⟩
    · rintro ⟨hne, oldId, hnew, hs⟩
      exact ⟨oldId, mem_of_getElem? hnew, hnew, (h.files path oldId).2 ⟨hne, hs⟩⟩
  base_le := le_rfl
  superseded _ hid := absurd hid not_mem_nil
  free _ hid := absurd hid not_mem_nil
  free_nodup := nodup_nil

theorem Represents.compacted (h : index.Represents corpus)
    (hp : index.Plans index.activeFileIds index.activeFileIds plan) :
    (index.compacted plan).Represents corpus := by
  have hmap := @idMap_eq_some_iff index.activeFileIds index.nodup_activeFileIds
  refine ⟨h.tables.compacted hp, fun path => ?_, fun t posting hmem => ?_,
    fun t posting hmem => by simp [SearchIndex.compacted, postingsIn] at hmem,
    fun path newId state hpa hs t posting hpo => ?_,
    fun path newId state hpa hs => ?_⟩
  · rw [← h.tracked path, Option.isSome_iff_exists, Option.isSome_iff_exists]
    constructor
    · rintro ⟨newId, hnew⟩
      obtain ⟨oldId, -, -, hold⟩ := (hp.paths path newId).1 hnew
      exact ⟨oldId, hold⟩
    · rintro ⟨oldId, hold⟩
      have hac := h.tables.mem_activeFileIds.2 ⟨path, hold⟩
      exact ⟨_, (hp.paths path _).2 ⟨oldId, hac, if_pos hac, hold⟩⟩
  · obtain ⟨stored, -, hnew, -⟩ := h.tables.mem_basePostings_iff.1 hmem
    obtain ⟨hlt, -⟩ := List.getElem?_eq_some_iff.1 (hmap.1 hnew)
    exact hlt.trans_le hp.length_files.ge
  · obtain ⟨oldId, hac, hnew, hold⟩ := (hp.paths path newId).1 hpa
    have hpos := h.postings path oldId state hold hs t
    rw [mem_storedPostings]
    refine (or_iff_left (by simp [SearchIndex.compacted, postingsIn])).trans ?_
    refine h.tables.mem_basePostings_iff.trans ?_
    rw [hpo]
    constructor
    · rintro ⟨stored, hmem, hnew', heq⟩
      have hid := Option.mem_unique (hmap.1 hnew') (hmap.1 hnew)
      obtain ⟨filter, hf, rfl⟩ := (hpos stored hid).1 hmem
      exact ⟨filter, hf, heq⟩
    · rintro ⟨filter, hf, rfl⟩
      exact ⟨filter.posting oldId, (hpos _ rfl).2 ⟨filter, hf, rfl⟩, hnew, rfl⟩
  · obtain ⟨oldId, hac, hnew, hold⟩ := (hp.paths path newId).1 hpa
    rw [← h.unindexed path oldId state hold hs]
    refine (hp.unindexed newId).trans ⟨?_, fun hmem => ⟨oldId, hac, hnew, hmem⟩⟩
    rintro ⟨oldId', -, hnew', hmem⟩
    exact Option.mem_unique (hmap.1 hnew') (hmap.1 hnew) ▸ hmem

theorem Represents.writeToDisk (h : index.Represents corpus) (hfew : index.files.length < 2 ^ 32) :
    ∃ index', index.writeToDisk = some index' ∧ index'.Represents corpus := by
  obtain ⟨plan, hp, hpl⟩ := h.tables.plans index.activeFileIds fun _ hid => hid
  have hl := hpl.length_files
  have hs : plan.files.length < 2 ^ 32 :=
    hl ▸ h.tables.length_activeFileIds_le.trans_lt hfew
  refine ⟨index.compacted plan, ?_, h.compacted hpl⟩
  rw [SearchIndex.writeToDisk, cacheWritePlan, if_pos (hl ▸ hs.le), hp, Option.map_some, if_pos hs]
  rfl

end SearchIndex

/-! ## Runs -/

/-- A call on the index. -/
inductive Update where
  | indexFile (path canonicalPath : Path) (content : List UInt8) (metadata : FileMetadata)
  | applySearchUpdate (path : Path) (file : SearchCorpusEligibility)
  | removeFile (path canonicalPath : Path)
  | writeToDisk

namespace Update

variable (admits : Path → Bool) (hashBytes : List UInt8 → ℕ)

def added : Update → Option Path
  | indexFile path _ _ _ | applySearchUpdate path _ => some path
  | removeFile _ _ | writeToDisk => none

def apply (index : SearchIndex) : Update → SearchIndex
  | indexFile path canonicalPath content metadata =>
    index.indexFile hashBytes path canonicalPath content metadata
  | applySearchUpdate path file => index.applySearchUpdate admits path (prepareSearchPath hashBytes file)
  | removeFile path canonicalPath => index.removeFile path canonicalPath
  | writeToDisk => index.writeToDisk.getD index

/-- What a call does to the corpus. -/
def applyTo (corpus : Corpus) : Update → Corpus
  | indexFile path canonicalPath content _ =>
    update (corpus.remove path canonicalPath) path (some (.indexed content))
  | applySearchUpdate path file =>
    if admits path then
      match file with
      | .eligible content _ => update corpus path (some (.indexed content))
      | .unindexed _ => update corpus path (some .unindexed)
      | .skipped => update corpus path none
    else corpus
  | removeFile path canonicalPath => corpus.remove path canonicalPath
  | writeToDisk => corpus

end Update

theorem Corpus.remove_apply (corpus : Corpus) (path canonicalPath : Path) :
    corpus.remove path canonicalPath path = none := by
  unfold Corpus.remove
  split <;> rename_i h
  · rw [update_self]
  · by_cases heq : path = canonicalPath
    · rw [heq, update_self]
    · rw [update_of_ne heq, Option.not_isSome_iff_eq_none.1 h]

namespace SearchIndex

variable {index : SearchIndex} {corpus : Corpus}

theorem length_removeResolvedFile (path canonicalPath : Path) :
    (index.removeResolvedFile path canonicalPath).files.length = index.files.length := by
  unfold SearchIndex.removeResolvedFile
  split
  · rfl
  · exact length_set

section

variable (h : index.Represents corpus) (hfew : index.files.length < 2 ^ 32) (hp : path ≠ "")
include h hfew hp

theorem Represents.indexFile (hashBytes : List UInt8 → ℕ) (canonicalPath : Path) (content : List UInt8)
    (metadata : FileMetadata) :
    (index.indexFile hashBytes path canonicalPath content metadata).Represents
      (update (corpus.remove path canonicalPath) path (some (.indexed content))) := by
  have hr := h.removeResolvedFile path canonicalPath
  obtain ⟨index', hin, hre⟩ := hr.indexPreparedNewFile
    ((length_removeResolvedFile path canonicalPath).trans_lt hfew) hp
    (corpus.remove_apply path canonicalPath) content metadata (hashBytes content)
  unfold SearchIndex.indexFile SearchIndex.removeFile prepareContent
  dsimp only
  rwa [hin]

theorem Represents.applySearchUpdate (admits : Path → Bool)
    (hashBytes : List UInt8 → ℕ) (file : SearchCorpusEligibility) :
    (index.applySearchUpdate admits path (prepareSearchPath hashBytes file)).Represents
      ((Update.applySearchUpdate path file).applyTo admits corpus) := by
  have hr := h.removeResolvedFile path path
  have hfew' := (index.length_removeResolvedFile path path).trans_lt hfew
  have hab := corpus.remove_apply path path
  rw [Corpus.remove, ite_self] at hr hab
  by_cases had : admits path = true
  · rw [SearchIndex.applySearchUpdate]
    cases file with
    | eligible content metadata =>
      obtain ⟨index', hin, hre⟩ := hr.indexPreparedNewFile hfew' hp hab
        content metadata (hashBytes content)
      rw [update_idem] at hre
      simpa [prepareSearchPath, prepareContent, hin, Update.applyTo, if_pos had] using hre
    | unindexed metadata =>
      obtain ⟨index', hin, hre⟩ :=
        hr.trackUnindexedFile hfew' hp hab metadata
      rw [update_idem] at hre
      simpa only [prepareSearchPath, hin, Update.applyTo, if_pos had]
    | skipped => simpa only [prepareSearchPath, Update.applyTo, if_pos had] using hr
  · simpa only [SearchIndex.applySearchUpdate, Update.applyTo, if_neg had] using h

end

/-- The states of an index and of its corpus after any calls, with fewer than `2 ^ 32` files. -/
inductive Reached (admits : Path → Bool) (hashBytes : List UInt8 → ℕ) : SearchIndex → Corpus → Prop
  | start : Reached admits hashBytes new fun _ => none
  | step {index : SearchIndex} {corpus : Corpus} (update : Update)
      (h : Reached admits hashBytes index corpus) (hfew : index.files.length < 2 ^ 32)
      (hpath : update.added ≠ some "") :
      Reached admits hashBytes (update.apply admits hashBytes index) (update.applyTo admits corpus)

theorem Reached.represents {admits : Path → Bool} {hashBytes : List UInt8 → ℕ}
    (h : Reached admits hashBytes index corpus) : index.Represents corpus := by
  induction h with
  | start => exact represents_new
  | step update _ hfew hp ih =>
    cases update with
    | indexFile path canonicalPath content metadata =>
      exact ih.indexFile hfew (fun heq => hp (congrArg some heq)) hashBytes canonicalPath content
        metadata
    | applySearchUpdate path file =>
      exact ih.applySearchUpdate hfew (fun heq => hp (congrArg some heq)) admits hashBytes file
    | removeFile path canonicalPath => exact ih.removeResolvedFile path canonicalPath
    | writeToDisk =>
      obtain ⟨index', hin, hr⟩ := ih.writeToDisk hfew
      unfold Update.apply
      rwa [hin]

theorem Represents.holdsFile (h : index.Represents corpus) {content : List UInt8}
    (hp : index.pathToId.find? path = some fileId)
    (hs : corpus path = some (.indexed content)) : index.HoldsFile fileId content where
  active := h.tables.isActiveFile hp
  listed := mem_values_iff.2 ⟨path, hp⟩
  indexed := by
    rw [h.unindexed path fileId _ hp hs]
    exact FileState.noConfusion
  postings := h.postings path fileId _ hp hs

/-- The answer for a trigram: the ids of the indexed files that contain it. -/
theorem Represents.mem_postingsForTrigram (h : index.Represents corpus) (t fileId : ℕ) :
    fileId ∈ index.postingsForTrigram t none ↔ ∃ path content,
      index.pathToId.find? path = some fileId ∧ corpus path = some (.indexed content) ∧
        ∃ occurrence ∈ scanTrigrams content, occurrence.trigram = t := by
  constructor
  · rw [postingsForTrigram, mem_sortIds]
    simp only [mem_map, mem_filter, Bool.and_eq_true]
    rintro ⟨posting, ⟨hmem, -, hac⟩, rfl⟩
    obtain ⟨path, hp⟩ := h.tables.exists_path hac
    obtain ⟨state, hs⟩ := Option.isSome_iff_exists.1
      ((h.tracked path).1 (Option.isSome_iff_exists.2 ⟨_, hp⟩))
    obtain ⟨filter, hf, -⟩ := (h.postings path _ state hp hs t posting rfl).1 hmem
    cases state with
    | indexed content =>
      exact ⟨path, content, hp, hs, (trigramFilterMap_eq_some_iff content true t).1 ⟨filter, hf⟩⟩
    | unindexed => cases hf
  · rintro ⟨path, content, hp, hs, ho⟩
    obtain ⟨filter, hf⟩ := (trigramFilterMap_eq_some_iff content true t).2 ho
    exact ((h.holdsFile hp hs).mem_postingsForTrigram t none).2 ⟨filter, hf, .inl rfl⟩

/-- An index answers like a map from each path to its latest state, and no posting names an id that
a later file could get. -/
theorem reached_represents {admits : Path → Bool} {hashBytes : List UInt8 → ℕ}
    (h : Reached admits hashBytes index corpus) :
    (∀ t, Increasing (index.postingsForTrigram t none) ∧
      ∀ fileId, fileId ∈ index.postingsForTrigram t none ↔ ∃ path content,
        index.pathToId.find? path = some fileId ∧ corpus path = some (.indexed content) ∧
          ∃ occurrence ∈ scanTrigrams content, occurrence.trigram = t) ∧
    (∀ path fileId content, index.pathToId.find? path = some fileId →
      corpus path = some (.indexed content) → index.HoldsFile fileId content) ∧
    (∀ path, (index.pathToId.find? path).isSome ↔ (corpus path).isSome) ∧
    (∀ path fileId,
      index.pathToId.find? path = some fileId ↔ path ≠ "" ∧ index.pathOf fileId = some path) ∧
    (∀ path fileId, index.pathToId.find? path = some fileId →
      fileId ∉ index.superseded ∧ fileId ∉ index.freeDeltaFileIds) ∧
    ∀ t, ∀ posting ∈ index.storedPostings t,
      posting.fileId ∉ index.freeDeltaFileIds ∧ posting.fileId < index.files.length := by
  have hrepresents := h.represents
  refine ⟨fun t => ⟨index.increasing_postingsForTrigram t none, hrepresents.mem_postingsForTrigram t⟩,
    fun path fileId content hpath hstate => hrepresents.holdsFile hpath hstate, hrepresents.tracked,
    hrepresents.tables.files, fun path fileId hpath => ⟨hrepresents.tables.not_superseded hpath,
      hrepresents.tables.not_free hpath⟩, fun t posting hmem => ?_⟩
  rcases mem_storedPostings.1 hmem with hmem | hmem
  · have hbase := hrepresents.base_lt t posting hmem
    refine ⟨fun hfree => ?_, hbase.trans_le hrepresents.tables.base_le⟩
    exact absurd (hrepresents.tables.free _ hfree).1 (Nat.not_le.2 hbase)
  · obtain ⟨⟨path, hpath⟩, -⟩ := hrepresents.delta_live t posting hmem
    exact ⟨hrepresents.tables.not_free hpath, hrepresents.tables.lt_length hpath⟩

/-- A file is indexed, removed and indexed again with a new content, and the index is written. -/
theorem reached_represents_rewritten :
    ∃ index corpus fileId, Reached (fun _ => true) List.length index corpus ∧
      index.pathToId.find? "notes" = some fileId ∧ index.HoldsFile fileId overlooked := by
  have hstart : Reached (fun _ => true) length new fun _ => none := .start
  have hindexed := hstart.step (.indexFile "notes" "notes" [97, 98, 99] ⟨3, 0⟩) (by decide) (by decide)
  have hremoved := hindexed.step (.removeFile "notes" "notes") (by decide +kernel) (by decide)
  have hagain := hremoved.step (.indexFile "notes" "notes" overlooked ⟨4, 0⟩) (by decide +kernel)
    (by decide)
  have hwritten := hagain.step .writeToDisk (by decide +kernel) (by decide)
  obtain ⟨-, hholds, htracked, -⟩ := reached_represents hwritten
  obtain ⟨fileId, hfileId⟩ := Option.isSome_iff_exists.1
    ((htracked "notes").2 (by simp [Update.applyTo]))
  exact ⟨_, _, fileId, hwritten, hfileId,
    hholds "notes" fileId overlooked hfileId (by simp [Update.applyTo])⟩

/-- After any updates the candidates are sorted, and they are the files of the corpus whose content
satisfies the query or is not indexed: no id of a removed or replaced file is among them. -/
theorem reached_candidates {admits : Path → Bool} {hashBytes : List UInt8 → ℕ}
    (h : Reached admits hashBytes index corpus) (query : RegexQuery) :
    Increasing (index.candidates query) ∧ ∀ fileId, fileId ∈ index.candidates query ↔
      ∃ path, index.pathToId.find? path = some fileId ∧ (corpus path = some .unindexed ∨
        ∃ content, corpus path = some (.indexed content) ∧
          query.SatisfiedBy (trigramFilterMap content true)) := by
  have hrepresents := h.represents
  have hspec := fun fileId => candidates_spec query fileId fun hactive =>
    mem_values_iff.2 (hrepresents.tables.exists_path hactive)
  refine ⟨(hspec 0).1, fun fileId => ⟨fun hmem => ?_, ?_⟩⟩
  · obtain ⟨path, hpath⟩ := hrepresents.tables.exists_path ((hspec fileId).2.1 hmem).1
    obtain ⟨state, hstate⟩ := Option.isSome_iff_exists.1
      ((hrepresents.tracked path).1 (Option.isSome_iff_exists.2 ⟨_, hpath⟩))
    refine ⟨path, hpath, ?_⟩
    cases state with
    | indexed content =>
      have hholds := hrepresents.holdsFile hpath hstate
      exact .inr ⟨content, hstate, (hholds.mem_candidates_iff query).1 hmem⟩
    | unindexed => exact .inl hstate
  · rintro ⟨path, hpath, hstate | ⟨content, hstate, hsatisfied⟩⟩
    · have hunindexed := (hrepresents.unindexed path fileId _ hpath hstate).2 rfl
      exact (hspec fileId).2.2 ⟨hrepresents.tables.isActiveFile hpath, .inl hunindexed⟩
    · exact ((hrepresents.holdsFile hpath hstate).mem_candidates_iff query).2 hsatisfied

/-- Once the only file is removed, nothing is a candidate. -/
theorem reached_candidates_removed :
    ∃ index corpus, Reached (fun _ => true) List.length index corpus ∧
      ∀ query, index.candidates query = [] := by
  have hstart : Reached (fun _ => true) length new fun _ => none := .start
  have hindexed := hstart.step (.indexFile "notes" "notes" overlooked ⟨4, 0⟩) (by decide) (by decide)
  have hremoved := hindexed.step (.removeFile "notes" "notes") (by decide +kernel) (by decide)
  refine ⟨_, _, hremoved, fun query => eq_nil_iff_forall_not_mem.2 fun fileId hmem => ?_⟩
  obtain ⟨path, -, hstate⟩ := ((reached_candidates hremoved query).2 fileId).1 hmem
  simp [Update.applyTo, Corpus.remove] at hstate

end SearchIndex

end Aft.Search
