import Aft.Search.Index

/-!
# The trigram prefilter

When the candidates of a query contain every file with a match. A required trigram carries the
masks of all runs that contain it, all of which are in the file. In a group only one run need be in
the file, and its filters also carry the masks of the other runs: a run that ends with a trigram
which another run continues can be refused (`candidates_miss_match`).
-/

namespace Aft.Search

open List List.Pairwise SortedMap Occurrence

/-! ## Sorted ids -/

abbrev Increasing (ids : List ℕ) : Prop := ids.Pairwise (· < ·)

variable {ids : List ℕ} {fileId : ℕ}

namespace SearchIndex

theorem mem_sortIds : fileId ∈ sortIds ids ↔ fileId ∈ ids := by
  simp [sortIds]

theorem increasing_sortIds (ids : List ℕ) : Increasing (sortIds ids) :=
  (Finset.sortedLT_sort _).pairwise

end SearchIndex

theorem Increasing.le_of_mem {a : ℕ} (h : Increasing (a :: ids)) (hmem : fileId ∈ a :: ids) :
    a ≤ fileId := by
  rcases mem_cons.1 hmem with rfl | hmem
  · exact le_rfl
  · exact (rel_of_pairwise_cons h hmem).le

variable {left right : List ℕ}

theorem mem_unionSortedIds :
    fileId ∈ unionSortedIds left right ↔ fileId ∈ left ∨ fileId ∈ right := by
  fun_induction unionSortedIds left right with
  | case1 | case2 => simp
  | case3 a left b right hlt ih => rw [mem_cons, ih, mem_cons (b := a), or_assoc]
  | case4 a left b right hle hlt ih =>
    rw [mem_cons, ih, mem_cons (b := b), or_left_comm]
  | case5 a left b right hle hge ih =>
    obtain rfl : a = b := by omega
    rw [mem_cons, mem_cons, mem_cons]
    tauto

section

variable (hl : Increasing left) (hr : Increasing right)
include hl hr

theorem mem_intersectSortedIds :
    fileId ∈ intersectSortedIds left right ↔ fileId ∈ left ∧ fileId ∈ right := by
  fun_induction intersectSortedIds left right with
  | case1 a left b right hlt ih =>
    rw [ih hl.of_cons hr, mem_cons (b := a)]
    refine and_congr_left fun hmem => ⟨.inr, fun h => h.resolve_left ?_⟩
    rintro rfl
    exact absurd (hr.le_of_mem hmem) (Nat.not_le.2 hlt)
  | case2 a left b right hle hlt ih =>
    rw [ih hl hr.of_cons, mem_cons (b := b)]
    refine and_congr_right fun hmem => ⟨.inr, fun h => h.resolve_left ?_⟩
    rintro rfl
    exact absurd (hl.le_of_mem hmem) (Nat.not_le.2 hlt)
  | case3 a left b right hle hge ih =>
    obtain rfl : a = b := by omega
    rw [mem_cons, ih hl.of_cons hr.of_cons, mem_cons, mem_cons]
    tauto
  | case4 left right hn =>
    refine ⟨nofun, fun ⟨hl', hr'⟩ => ?_⟩
    obtain ⟨a, left, rfl⟩ := exists_cons_of_ne_nil (ne_nil_of_mem hl')
    obtain ⟨b, right, rfl⟩ := exists_cons_of_ne_nil (ne_nil_of_mem hr')
    exact absurd rfl (hn a left b right rfl)

theorem increasing_intersectSortedIds : Increasing (intersectSortedIds left right) := by
  fun_induction intersectSortedIds left right with
  | case1 a left b right hlt ih => exact ih hl.of_cons hr
  | case2 a left b right hle hlt ih => exact ih hl hr.of_cons
  | case3 a left b right hle hge ih =>
    refine cons (fun fileId hmem => ?_) (ih hl.of_cons hr.of_cons)
    exact rel_of_pairwise_cons hl ((mem_intersectSortedIds hl.of_cons hr.of_cons).1 hmem).1
  | case4 => exact nil

theorem increasing_unionSortedIds : Increasing (unionSortedIds left right) := by
  fun_induction unionSortedIds left right with
  | case1 => exact hr
  | case2 => exact hl
  | case3 a left b right hlt ih =>
    refine cons (fun fileId hmem => ?_) (ih hl.of_cons hr)
    rcases mem_unionSortedIds.1 hmem with hmem | hmem
    · exact rel_of_pairwise_cons hl hmem
    · exact hlt.trans_le (hr.le_of_mem hmem)
  | case4 a left b right hle hlt ih =>
    refine cons (fun fileId hmem => ?_) (ih hl hr.of_cons)
    rcases mem_unionSortedIds.1 hmem with hmem | hmem
    · exact hlt.trans_le (hl.le_of_mem hmem)
    · exact rel_of_pairwise_cons hr hmem
  | case5 a left b right hle hge ih =>
    obtain rfl : a = b := by omega
    refine cons (fun fileId hmem => ?_) (ih hl.of_cons hr.of_cons)
    rcases mem_unionSortedIds.1 hmem with hmem | hmem
    · exact rel_of_pairwise_cons hl hmem
    · exact rel_of_pairwise_cons hr hmem

end

/-! ## Filters of runs -/

def runTrigrams (runs : List (List UInt8)) : List Occurrence := runs.flatMap scanTrigrams

section

variable {P : PostingFilter → Prop} (content : List UInt8) (includeEofNextChar : Bool)
  (runs : List (List UInt8)) (t : ℕ)

theorem Joins.trigramFilterMap (h : Joins P) :
    (∃ filter, (trigramFilterMap content includeEofNextChar).find? t = some filter ∧ P filter) ↔
      ∃ occurrence ∈ scanTrigrams content, occurrence.trigram = t ∧
        P (occurrence.filter includeEofNextChar) :=
  h.mergeAll.trans (or_iff_left (by simp [SortedMap.find?, SortedMap.empty]))

theorem trigramFilterMap_eq_some_iff :
    (∃ filter, (trigramFilterMap content includeEofNextChar).find? t = some filter) ↔
      ∃ occurrence ∈ scanTrigrams content, occurrence.trigram = t := by
  simpa using joins_true.trigramFilterMap content includeEofNextChar t

theorem Joins.groupFilters (h : Joins P) :
    (∃ filter, (groupFilters runs).find? t = some filter ∧ P filter) ↔
      ∃ occurrence ∈ runTrigrams runs, occurrence.trigram = t ∧ P (occurrence.filter false) := by
  rw [Search.groupFilters, h.mergeAll, or_iff_left (by simp [SortedMap.find?, SortedMap.empty])]
  constructor
  · rintro ⟨entry, hen, rfl, hm⟩
    obtain ⟨run, hrun, hen⟩ := mem_flatMap.1 hen
    obtain ⟨occurrence, hmem, hr⟩ :=
      (h.trigramFilterMap run false _).1 ⟨_, mem_trigramFilters.1 hen, hm⟩
    exact ⟨occurrence, mem_flatMap.2 ⟨run, hrun, hmem⟩, hr⟩
  · rintro ⟨occurrence, hmem, rfl, hm⟩
    obtain ⟨run, hrun, hmem⟩ := mem_flatMap.1 hmem
    obtain ⟨filter, hf, hp⟩ := (h.trigramFilterMap run false _).2 ⟨occurrence, hmem, rfl, hm⟩
    exact ⟨(_, filter), mem_flatMap.2 ⟨run, hrun, mem_trigramFilters.2 hf⟩, rfl, hp⟩

theorem isSome_groupFilters : ((groupFilters runs).find? t).isSome ↔
    ∃ occurrence ∈ runTrigrams runs, occurrence.trigram = t := by
  simpa [Option.isSome_iff_exists] using joins_true.groupFilters runs t

end

variable {occurrence : Occurrence} {mask : ℕ}

theorem Occurrence.meets_filter_false :
    Meets (occurrence.filter false).nextMask mask ↔
      occurrence.nextChar ≠ eofSentinel ∧ Meets (maskForNextChar occurrence.nextChar) mask := by
  unfold filter
  by_cases h : occurrence.nextChar = eofSentinel
  · simp [h, not_meets_zero]
  · simp [h]

section

variable (runs : List (List UInt8))

/-- The filter of a trigram is empty if no run continues the trigram. -/
theorem groupFilters_nextMask_eq_zero_iff (t : ℕ) :
    (filterOf (groupFilters runs) t).nextMask = 0 ↔
      ∀ occurrence ∈ runTrigrams runs, occurrence.trigram = t →
        occurrence.nextChar = eofSentinel := by
  constructor
  · intro hz occurrence hmem ht
    by_contra hn
    have hm := meets_filterOf.2 <| ((joins_meets (maskForNextChar occurrence.nextChar)).groupFilters runs t).2
      ⟨occurrence, hmem, ht, meets_filter_false.2 ⟨hn, meets_self (maskForNextChar_ne_zero _)⟩⟩
    rw [hz] at hm
    exact not_meets_zero _ hm
  · intro hall
    by_contra hne
    obtain ⟨occurrence, hmem, ht, hm⟩ :=
      ((joins_meets _).groupFilters runs t).1 (meets_filterOf.1 (meets_self hne))
    exact (meets_filter_false.1 hm).1 (hall occurrence hmem ht)

end

/-! ## Files that satisfy a query -/

def PostingFilter.Passes (stored filter : PostingFilter) : Prop :=
  filter.nextMask = 0 ∨ Meets stored.nextMask filter.nextMask

def RegexQuery.groupFilter (query : RegexQuery) (position t : ℕ) : PostingFilter :=
  (query.orFilters[position]?).elim .default (filterOf · t)

/-- Each required trigram, and some trigram of each group, has a posting that passes its filter. -/
structure RegexQuery.SatisfiedBy (query : RegexQuery) (stored : SortedMap ℕ PostingFilter) :
    Prop where
  required : ∀ t ∈ query.andTrigrams, ∃ filter, stored.find? t = some filter ∧
    filter.Passes (filterOf query.andFilters t)
  groups : ∀ (position : ℕ) (group : List ℕ), query.orGroups[position]? = some group →
    ∃ t ∈ group, ∃ filter, stored.find? t = some filter ∧ filter.Passes (query.groupFilter position t)

/-- One of the trigrams of a group occurs in a text, and no run of the group continues it, or one
does with a character that the mask does not tell from the one in the text. -/
def SeenIn (group : List (List UInt8)) (content : List UInt8) : Prop :=
  ∃ here ∈ scanTrigrams content, ∃ occurrence ∈ runTrigrams group,
    occurrence.trigram = here.trigram ∧
      ((occurrence.nextChar ≠ eofSentinel ∧
          maskForNextChar occurrence.nextChar = maskForNextChar here.nextChar) ∨
        ∀ other ∈ runTrigrams group, other.trigram = here.trigram → other.nextChar = eofSentinel)

/-- Two masks of one character meet only if they are the same. -/
theorem meets_maskForNextChar {c d : UInt8} :
    Meets (maskForNextChar c) (maskForNextChar d) ↔ maskForNextChar c = maskForNextChar d := by
  refine ⟨fun h => ?_, fun h => h ▸ meets_self (maskForNextChar_ne_zero c)⟩
  unfold maskForNextChar at h ⊢
  rw [Nat.one_shiftLeft, Nat.one_shiftLeft] at *
  by_contra hne
  have hbit : (normalizeChar d * 31 &&& 7).toNat ≠ (normalizeChar c * 31 &&& 7).toNat :=
    fun heq => hne (by rw [heq])
  exact h (by rw [Nat.two_pow_and, Nat.testBit_two_pow_of_ne hbit, Bool.toNat_false, mul_zero])

section

variable (group : List (List UInt8)) (content : List UInt8)

/-- The masks of a text and of runs meet where the text continues a trigram as a run does, up to the
mask. -/
theorem meets_masks_iff (t : ℕ) :
    Meets (filterOf (trigramFilterMap content true) t).nextMask
        (filterOf (groupFilters group) t).nextMask ↔
      ∃ here ∈ scanTrigrams content, here.trigram = t ∧
        ∃ occurrence ∈ runTrigrams group, occurrence.trigram = t ∧
          occurrence.nextChar ≠ eofSentinel ∧
            maskForNextChar occurrence.nextChar = maskForNextChar here.nextChar := by
  rw [meets_filterOf, (joins_meets _).trigramFilterMap]
  refine exists_congr fun here => and_congr_right fun _ => and_congr_right fun _ => ?_
  simp only [Occurrence.filter, true_or, if_true]
  rw [Meets.comm, meets_filterOf, (joins_meets _).groupFilters]
  refine exists_congr fun occurrence => and_congr_right fun _ => and_congr_right fun _ => ?_
  rw [meets_filter_false, meets_maskForNextChar]

/-- A stored trigram that passes the filter of a group, in terms of the characters of the text. -/
theorem seenIn_iff_passes :
    SeenIn group content ↔ ∃ t ∈ (groupFilters group).keys, ∃ filter,
      (trigramFilterMap content true).find? t = some filter ∧
        filter.Passes (filterOf (groupFilters group) t) := by
  constructor
  · rintro ⟨here, hh, occurrence, hmem, ht, hn⟩
    have hkey := (isSome_groupFilters group here.trigram).2 ⟨occurrence, hmem, ht⟩
    obtain ⟨filter, hf⟩ := (trigramFilterMap_eq_some_iff content true _).2 ⟨here, hh, rfl⟩
    refine ⟨here.trigram, mem_keys_iff.2 hkey, filter, hf, ?_⟩
    rcases hn with hc | hall
    · have hm := (meets_masks_iff group content here.trigram).2
        ⟨here, hh, rfl, occurrence, hmem, ht, hc⟩
      rw [filterOf, hf] at hm
      exact .inr hm
    · exact .inl ((groupFilters_nextMask_eq_zero_iff group _).2 hall)
  · rintro ⟨t, hkey, filter, hf, hz | hm⟩
    · obtain ⟨occurrence, hmem, ht⟩ :=
        (isSome_groupFilters group t).1 (mem_keys_iff.1 hkey)
      obtain ⟨here, hh, rfl⟩ := (trigramFilterMap_eq_some_iff content true t).1 ⟨filter, hf⟩
      exact ⟨here, hh, occurrence, hmem, ht,
        .inr ((groupFilters_nextMask_eq_zero_iff group _).1 hz)⟩
    · have hst : filterOf (trigramFilterMap content true) t = filter := by
        rw [filterOf, hf]
        rfl
      rw [← hst, meets_masks_iff] at hm
      obtain ⟨here, hh, rfl, occurrence, hmem, ht, hc⟩ := hm
      exact ⟨here, hh, occurrence, hmem, ht, .inl hc⟩

end

variable {content : List UInt8}

/-- The runs that a text contains have their trigrams there, with filters that pass. -/
theorem passes_of_infix {runs : List (List UInt8)} (hr : ∀ run ∈ runs, run <:+: content) {t : ℕ}
    (hkey : ((groupFilters runs).find? t).isSome) :
    ∃ filter, (trigramFilterMap content true).find? t = some filter ∧
      filter.Passes (filterOf (groupFilters runs) t) := by
  have hf : ∀ occurrence ∈ runTrigrams runs, occurrence.FoundIn (scanTrigrams content) := by
    intro occurrence hmem
    obtain ⟨run, hrun, hmem⟩ := mem_flatMap.1 hmem
    exact foundIn_of_infix (hr run hrun) occurrence hmem
  obtain ⟨occurrence, hmem, rfl⟩ := (isSome_groupFilters runs t).1 hkey
  obtain ⟨here, hh, ht, -⟩ := hf occurrence hmem
  obtain ⟨filter, hfi⟩ := (trigramFilterMap_eq_some_iff content true _).2 ⟨here, hh, ht⟩
  refine ⟨filter, hfi, ?_⟩
  by_cases hall : ∀ other ∈ runTrigrams runs, other.trigram = occurrence.trigram →
      other.nextChar = eofSentinel
  · exact .inl ((groupFilters_nextMask_eq_zero_iff runs _).2 hall)
  · push Not at hall
    obtain ⟨other, ho, hsa, hn⟩ := hall
    obtain ⟨there, hth, ht, hc⟩ := hf other ho
    have hm := (meets_masks_iff runs content occurrence.trigram).2
      ⟨there, hth, ht.trans hsa, other, ho, hsa, hn, by rw [hc hn]⟩
    rw [filterOf, hfi] at hm
    exact .inr hm

def Hir.SeenIn (hir : Hir) (content : List UInt8) : Prop :=
  ∀ group ∈ (buildQuery hir).orGroups, Search.SeenIn group content

/-- In each group, each run continues one of its trigrams, or has one that no run of the group
continues. -/
def Hir.Selective (hir : Hir) : Prop :=
  ∀ group ∈ (buildQuery hir).orGroups, ∀ run ∈ group, ∃ occurrence ∈ scanTrigrams run,
    occurrence.nextChar ≠ eofSentinel ∨
      ∀ other ∈ runTrigrams group, other.trigram = occurrence.trigram → other.nextChar = eofSentinel

variable {hir : Hir} {i j : ℕ}

/-- A text with a match of a selective expression shows each of its groups. -/
theorem Hir.Selective.seenIn (h : hir.Selective) (hm : hir.Matches content i j) :
    hir.SeenIn content := by
  intro group hg
  obtain ⟨run, hrun, hin⟩ := ((buildQuery_describes hir).found i j hm).groups group hg
  obtain ⟨occurrence, hmem, hn⟩ := h group hg run hrun
  obtain ⟨here, hh, ht, hc⟩ := foundIn_of_infix hin occurrence hmem
  refine ⟨here, hh, occurrence, mem_flatMap.2 ⟨run, hrun, hmem⟩, ht.symm, ?_⟩
  rcases hn with hn | hall
  · exact .inl ⟨hn, by rw [hc hn]⟩
  · exact .inr fun other ho heq => hall other ho (heq.trans ht)

/-- The groups of an expression that a text shows have trigrams, so the query keeps each of them. -/
theorem filter_groupFilters (hm : hir.Matches content i j) :
    ((buildQuery hir).orGroups.map groupFilters).filter (·.keys ≠ []) =
      (buildQuery hir).orGroups.map groupFilters := by
  refine filter_eq_self.2 fun filters hf => decide_eq_true ?_
  obtain ⟨group, hg, rfl⟩ := mem_map.1 hf
  obtain ⟨hl, hf⟩ := buildQuery_describes hir
  obtain ⟨run, hrun, -⟩ := (hf i j hm).groups group hg
  have hne := scanTrigrams_ne_nil (hl group hg run hrun)
  obtain ⟨occurrence, hmem⟩ := exists_mem_of_ne_nil _ hne
  exact ne_nil_of_mem (mem_keys_iff.2 ((isSome_groupFilters group _).2
    ⟨occurrence, mem_flatMap.2 ⟨run, hrun, hmem⟩, rfl⟩))

/-- The postings of a text with a match satisfy the query if the text shows each group. -/
theorem satisfiedBy_iff_seenIn (hm : hir.Matches content i j) :
    (decomposeRegex hir).SatisfiedBy (trigramFilterMap content true) ↔ hir.SeenIn content := by
  have hb := (buildQuery hir).intoQuery_builtFrom
  rw [filter_groupFilters hm] at hb
  have hg : ∀ (position : ℕ) (t : ℕ) group, (buildQuery hir).orGroups[position]? = some group →
      (decomposeRegex hir).groupFilter position t = filterOf (groupFilters group) t := by
    intro position t group hg
    rw [RegexQuery.groupFilter, decomposeRegex, hb.orFilters, getElem?_map, hg]
    rfl
  constructor
  · intro h group hmem
    obtain ⟨position, hp⟩ := mem_iff_getElem?.1 hmem
    obtain ⟨t, ht, filter, hf, hpa⟩ := h.groups position (groupFilters group).keys (by
      rw [decomposeRegex, hb.orGroups, map_map, getElem?_map, hp]
      rfl)
    rw [hg position t group hp] at hpa
    exact (seenIn_iff_passes group content).2 ⟨t, ht, filter, hf, hpa⟩
  · intro h
    refine ⟨fun t ht => ?_, fun position keys hk => ?_⟩
    · obtain ⟨entry, hen, rfl⟩ := hb.andTrigrams t ht
      have hkey : ((groupFilters (buildQuery hir).andRuns).find? entry.1).isSome :=
        Option.isSome_iff_exists.2
          ((joins_true.mergeAll.2 (.inl ⟨entry, hen, rfl, trivial⟩)).imp fun _ h => h.1)
      rw [decomposeRegex, hb.andFilters]
      exact passes_of_infix ((buildQuery_describes hir).found i j hm).runs hkey
    · rw [decomposeRegex, hb.orGroups, map_map, getElem?_map] at hk
      obtain ⟨group, hp, rfl⟩ := Option.map_eq_some_iff.1 hk
      obtain ⟨t, ht, hpa⟩ :=
        (seenIn_iff_passes group content).1 (h group (mem_of_getElem? hp))
      rw [← hg position t group hp] at hpa
      exact ⟨t, ht, hpa⟩

/-! ## Candidates -/

namespace SearchIndex

structure HoldsFile (index : SearchIndex) (fileId : ℕ) (content : List UInt8) : Prop where
  active : index.isActiveFile fileId = true
  listed : fileId ∈ index.pathToId.values
  indexed : fileId ∉ index.unindexedFiles
  postings : ∀ (t : ℕ) (posting : Posting), posting.fileId = fileId →
    (posting ∈ index.storedPostings t ↔ ∃ filter, (trigramFilterMap content true).find? t = some filter ∧
      posting = ⟨fileId, filter.nextMask, filter.locMask⟩)

variable {index : SearchIndex} {fileId : ℕ}

theorem increasing_postingsForTrigram (index : SearchIndex) (t : ℕ) (filter : Option PostingFilter) :
    Increasing (index.postingsForTrigram t filter) :=
  increasing_sortIds _

theorem isActiveFile_of_mem {t : ℕ} {filter : Option PostingFilter}
    (h : fileId ∈ index.postingsForTrigram t filter) : index.isActiveFile fileId = true := by
  obtain ⟨posting, hmem, rfl⟩ := mem_map.1 (mem_sortIds.1 h)
  exact (Bool.and_eq_true_iff.1 (mem_filter.1 hmem).2).2

theorem postingMatchesFilter_iff {posting : Posting} {filter : Option PostingFilter} :
    postingMatchesFilter posting filter = true ↔
      PostingFilter.Passes ⟨posting.nextMask, posting.locMask⟩ (filter.getD .default) := by
  cases filter with
  | none => simp [postingMatchesFilter, PostingFilter.Passes, PostingFilter.default]
  | some filter => simp [postingMatchesFilter, PostingFilter.Passes]

theorem requireTrigrams_spec (index : SearchIndex) (query : RegexQuery) (trigrams : List ℕ)
    (current : Option (List ℕ)) (hc : ∀ ids, current = some ids → Increasing ids) {active : List ℕ}
    (hac : ∀ t filter, fileId ∈ index.postingsForTrigram t filter → fileId ∈ active) :
    (∀ ids, index.requireTrigrams query trigrams current = some ids → Increasing ids) ∧
      (fileId ∈ (index.requireTrigrams query trigrams current).getD active ↔
        fileId ∈ current.getD active ∧ ∀ t ∈ trigrams,
          fileId ∈ index.postingsForTrigram t (query.andFilters.find? t)) := by
  induction trigrams generalizing current with
  | nil => exact ⟨hc, by simp [requireTrigrams]⟩
  | cons t trigrams ih =>
    set found := index.postingsForTrigram t (query.andFilters.find? t) with hf
    have hn : Increasing (current.elim found (intersectSortedIds · found)) ∧
        (fileId ∈ current.elim found (intersectSortedIds · found) ↔
          fileId ∈ current.getD active ∧ fileId ∈ found) := by
      have hf := index.increasing_postingsForTrigram t (query.andFilters.find? t)
      cases current with
      | none => exact ⟨hf, (and_iff_right_of_imp (hac _ _)).symm⟩
      | some ids =>
        exact ⟨increasing_intersectSortedIds (hc ids rfl) hf,
          mem_intersectSortedIds (hc ids rfl) hf⟩
    obtain ⟨hin, hmem⟩ := hn
    rw [requireTrigrams, forall_mem_cons, ← and_assoc, ← hmem, ← hf]
    split <;> rename_i hem
    · refine ⟨?_, by simp [hem]⟩
      rintro _ ⟨⟩
      exact nil
    · exact ih _ fun ids hids => Option.some_inj.1 hids ▸ hin

theorem groupMatches_spec (index : SearchIndex) (fileId : ℕ)
    (filters : Option (SortedMap ℕ PostingFilter)) (group : List ℕ) :
    Increasing (index.groupMatches filters group) ∧
      (fileId ∈ index.groupMatches filters group ↔ ∃ t ∈ group,
        fileId ∈ index.postingsForTrigram t (filters.bind (·.find? t))) := by
  induction group using reverseRecOn with
  | nil => exact ⟨nil, by simp [groupMatches]⟩
  | append_singleton group t ih =>
    have hh := index.increasing_postingsForTrigram t (filters.bind (·.find? t))
    rw [groupMatches, foldl_append, ← groupMatches, foldl_cons]
    simp only [mem_append, mem_singleton, or_and_right, exists_or, exists_eq_left]
    rw [← ih.2]
    split <;> rename_i hem
    · exact ⟨hh, by simp [hem]⟩
    · exact ⟨increasing_unionSortedIds ih.1 hh, mem_unionSortedIds⟩

theorem requireGroups_spec (index : SearchIndex) (fileId : ℕ)
    (filters : List (SortedMap ℕ PostingFilter)) (position : ℕ) (groups : List (List ℕ))
    (current : List ℕ) (hc : Increasing current) :
    Increasing (index.requireGroups filters position groups current) ∧
      (fileId ∈ index.requireGroups filters position groups current ↔
        fileId ∈ current ∧ ∀ (offset : ℕ) (group : List ℕ), groups[offset]? = some group →
          fileId ∈ index.groupMatches filters[position + offset]? group) := by
  induction groups generalizing position current with
  | nil => exact ⟨hc, by simp [requireGroups]⟩
  | cons group groups ih =>
    obtain ⟨hg, -⟩ := groupMatches_spec index fileId filters[position]? group
    have hn := increasing_intersectSortedIds hc hg
    rw [← Nat.and_forall_add_one]
    simp only [getElem?_cons_zero, Option.some_inj, forall_eq', getElem?_cons_succ, Nat.add_zero,
      ← Nat.add_assoc, Nat.add_right_comm position _ 1]
    rw [← and_assoc, ← mem_intersectSortedIds hc hg, requireGroups]
    split <;> rename_i hem
    · exact ⟨nil, by simp [hem]⟩
    · exact ih (position + 1) _ hn

theorem getD_bind_find? (query : RegexQuery) (position t : ℕ) :
    ((query.orFilters[position]?).bind (·.find? t)).getD .default = query.groupFilter position t := by
  rw [RegexQuery.groupFilter]
  cases query.orFilters[position]? <;> rfl

/-- The candidates are the active files that are not indexed, or have a posting for each required
trigram and for each group. -/
theorem candidates_spec (query : RegexQuery) (fileId : ℕ)
    (hlive : index.isActiveFile fileId = true → fileId ∈ index.pathToId.values) :
    Increasing (index.candidates query) ∧ (fileId ∈ index.candidates query ↔
      index.isActiveFile fileId = true ∧ (fileId ∈ index.unindexedFiles ∨
        (∀ t ∈ query.andTrigrams, fileId ∈ index.postingsForTrigram t (query.andFilters.find? t)) ∧
        ∀ (position : ℕ) (group : List ℕ), query.orGroups[position]? = some group → ∃ t ∈ group,
          fileId ∈ index.postingsForTrigram t ((query.orFilters[position]?).bind (·.find? t)))) := by
  have hac : fileId ∈ index.activeFileIds ↔ index.isActiveFile fileId = true :=
    mem_sortIds.trans (mem_filter.trans (and_iff_right_of_imp hlive))
  unfold candidates
  split <;> rename_i hem
  · exact ⟨increasing_sortIds _, by simp [hac, hem.1, hem.2]⟩
  · dsimp only
    generalize htrigrams : query.andTrigrams.mergeSort _ = trigrams
    have ht : ∀ t, t ∈ trigrams ↔ t ∈ query.andTrigrams := fun t => htrigrams ▸ mem_mergeSort
    obtain ⟨hso, hmem⟩ := index.requireTrigrams_spec query trigrams none (by simp)
      fun t filter h => hac.2 (isActiveFile_of_mem h)
    have hin : Increasing ((index.requireTrigrams query trigrams none).getD index.activeFileIds) := by
      cases hr : index.requireTrigrams query trigrams none with
      | none => exact increasing_sortIds _
      | some ids => exact hso ids hr
    obtain ⟨hsorted, hfound⟩ := requireGroups_spec index fileId query.orFilters 0 query.orGroups _ hin
    simp only [hmem, ht, (groupMatches_spec index fileId _ _).2, Nat.zero_add,
      Option.getD_none, hac] at hfound
    rw [and_or_left, and_comm (b := fileId ∈ index.unindexedFiles), ← mem_filter, ← and_assoc,
      ← hfound]
    split <;> rename_i hnil
    · exact ⟨hsorted, by simp [hnil]⟩
    · refine ⟨increasing_unionSortedIds hsorted (increasing_sortIds _), ?_⟩
      rw [mem_unionSortedIds, mem_sortIds, or_comm]

section

variable (h : index.HoldsFile fileId content)
include h

theorem HoldsFile.mem_postingsForTrigram (t : ℕ) (filter : Option PostingFilter) :
    fileId ∈ index.postingsForTrigram t filter ↔
      ∃ stored, (trigramFilterMap content true).find? t = some stored ∧
        stored.Passes (filter.getD .default) := by
  rw [postingsForTrigram, mem_sortIds]
  simp only [mem_map, mem_filter, Bool.and_eq_true, postingMatchesFilter_iff]
  constructor
  · rintro ⟨posting, ⟨hmem, hp, -⟩, hid⟩
    obtain ⟨stored, hs, rfl⟩ := (h.postings t posting hid).1 hmem
    exact ⟨stored, hs, hp⟩
  · rintro ⟨stored, hs, hp⟩
    exact ⟨_, ⟨(h.postings t _ rfl).2 ⟨stored, hs, rfl⟩, hp, h.active⟩, rfl⟩

theorem HoldsFile.mem_candidates_iff (query : RegexQuery) :
    fileId ∈ index.candidates query ↔ query.SatisfiedBy (trigramFilterMap content true) := by
  rw [(candidates_spec query fileId fun _ => h.listed).2]
  simp only [h.active, h.indexed, h.mem_postingsForTrigram, getD_bind_find?, true_and, false_or]
  exact ⟨fun h => ⟨h.1, h.2⟩, fun h => ⟨h.required, h.groups⟩⟩

end

end SearchIndex

/-! ## No match is missed -/

/-- A file with a match is among the candidates, and its postings satisfy the query, if it shows
each group of runs, as every text does if the expression is selective. -/
theorem candidates_keep_match {hir : Hir} {content : List UInt8} {i j : ℕ}
    (hmatches : hir.Matches content i j) {index : SearchIndex} {fileId : ℕ}
    (hfile : index.HoldsFile fileId content) :
    ((decomposeRegex hir).SatisfiedBy (trigramFilterMap content true) ∧
        fileId ∈ index.candidates (decomposeRegex hir) ↔ hir.SeenIn content) ∧
      (hir.Selective → hir.SeenIn content) := by
  rw [hfile.mem_candidates_iff, and_self, satisfiedBy_iff_seenIn hmatches]
  exact ⟨Iff.rfl, fun h => h.seenIn hmatches⟩

def oneFile (content : List UInt8) : SearchIndex :=
  { SearchIndex.new with
    deltaPostings := (trigramFilterMap content true).mapValues fun filter =>
      [⟨0, filter.nextMask, filter.locMask⟩]
    files := [⟨"notes", ⟨content.length, 0⟩, 0⟩]
    pathToId := SortedMap.empty.insert "notes" 0 }

theorem oneFile_holdsFile (content : List UInt8) : (oneFile content).HoldsFile 0 content where
  active := rfl
  listed := mem_singleton_self 0
  indexed := not_mem_nil
  postings t posting hid := by
    have hs : (oneFile content).storedPostings t =
        (((trigramFilterMap content true).find? t).map fun filter =>
          [(⟨0, filter.nextMask, filter.locMask⟩ : Posting)]).getD [] := by
      rw [← find?_mapValues]
      rfl
    rw [hs]
    cases (trigramFilterMap content true).find? t with
    | none | some => simp

/-- `zabcx|abc`. -/
def overlapping : Hir := .alternation [.literal [122, 97, 98, 99, 120], .literal [97, 98, 99]]

/-- `abcy`. -/
def overlooked : List UInt8 := [97, 98, 99, 121]

/-- The filter of `abc` asks for the `x` of the other alternative. -/
theorem candidates_miss_match :
    overlapping.Matches overlooked 0 3 ∧ (oneFile overlooked).HoldsFile 0 overlooked ∧
      0 ∉ (oneFile overlooked).candidates (decomposeRegex overlapping) ∧
      ¬ (decomposeRegex overlapping).SatisfiedBy (trigramFilterMap overlooked true) := by
  have hmatches : overlapping.Matches overlooked 0 3 := .inr (.inl ⟨rfl, by decide⟩)
  have hunseen : ¬ overlapping.SeenIn overlooked := by
    unfold Hir.SeenIn SeenIn
    decide +kernel
  rw [← satisfiedBy_iff_seenIn hmatches] at hunseen
  refine ⟨hmatches, oneFile_holdsFile _, ?_, hunseen⟩
  rwa [(oneFile_holdsFile overlooked).mem_candidates_iff]

/-- `zabcx|abcy` on `abcy`. -/
theorem candidates_keep_match_selective :
    0 ∈ (oneFile overlooked).candidates
      (decomposeRegex (.alternation [.literal [122, 97, 98, 99, 120], .literal overlooked])) := by
  have hmatches : (Hir.alternation [.literal [122, 97, 98, 99, 120], .literal overlooked]).Matches
      overlooked 0 4 := .inr (.inl ⟨rfl, by decide⟩)
  obtain ⟨hiff, hseen⟩ := candidates_keep_match hmatches (oneFile_holdsFile overlooked)
  refine (hiff.2 (hseen ?_)).2
  unfold Hir.Selective
  decide +kernel

end Aft.Search
