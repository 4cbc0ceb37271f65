import Aft.Hashline.SnapshotStore

/-!
# The representation invariant of the snapshot store

`Core fp published store` is what every step of the store keeps, where `published` lists the
publications that succeeded: the byte total is the sum over the resident versions, the path and
version caps hold, versions of one path differ in tag or content, every resident version and every
history entry goes back to a publication, and no resident version is in the history.
`evictOverBudget_spec` is the rule for the eviction loop.
-/

namespace Aft.Hashline

open List StoredSnapshot SortedMap

/-! ## Saturating arithmetic -/

theorem satAdd_eq_add {a b : ℕ} (h : a + b ≤ maxU64) : satAdd a b = a + b := min_eq_left h

theorem add_le_maxU64 {a b : ℕ} (ha : a ≤ maxSnapshotTotalBytes) (hb : b ≤ maxSnapshotTotalBytes) :
    a + b ≤ maxU64 := by
  unfold maxSnapshotTotalBytes at ha hb
  unfold maxU64
  omega

/-! ## Resident versions -/

/-- The identity of a version among the versions of its path: folded tag and content. -/
def StoredSnapshot.contentKey (version : StoredSnapshot) : String × Bytes :=
  (foldTag version.snapshot.tag, version.normalizedBytes)

def versionsBytes (versions : List StoredSnapshot) : ℕ :=
  (versions.map StoredSnapshot.residencyBytes).sum

variable {versions : List StoredSnapshot} {version : StoredSnapshot} {index : ℕ}

theorem perm_cons_eraseIdx (h : versions[index]? = some version) :
    versions.Perm (version :: versions.eraseIdx index) := by
  obtain ⟨hlt, rfl⟩ := List.getElem?_eq_some_iff.1 h
  exact (getElem_cons_eraseIdx_perm hlt).symm

section

variable (published : List (PathBuf × Snapshot))

/-- The stored publications of a path that carry the tag and content of `version`. -/
def Backs (path : PathBuf) (version : StoredSnapshot) (snapshot : Snapshot) : Prop :=
  (path, snapshot) ∈ published ∧ foldTag snapshot.tag = foldTag version.snapshot.tag ∧
    snapshot.normalizedBytes = version.normalizedBytes

/-- What is known of one resident version of `path`. -/
structure VersionOk (clock : ℕ) (path : PathBuf) (version : StoredSnapshot) : Prop where
  backed : ∃ s, Backs published path version s
  records_backed : ∀ e ∈ version.snapshot.records.entries,
    ∃ s, Backs published path version s ∧ e ∈ s.records.entries
  seen_backed : ∀ row ∈ version.snapshot.coverage.seenLines,
    ∃ s, Backs published path version s ∧ row ∈ s.coverage.seenLines
  publishedAt_le : version.publishedAt ≤ clock
  lastUsed_le : version.lastUsed ≤ clock

/-- What is known of the version list of one path. -/
structure PathOk (clock : ℕ) (path : PathBuf) (versions : List StoredSnapshot) : Prop where
  nonempty : versions ≠ []
  cap : versions.length ≤ maxVersionsPerPath
  distinct : (versions.map StoredSnapshot.contentKey).Nodup
  version : ∀ v ∈ versions, VersionOk published clock path v

end

variable {published' : List (PathBuf × Snapshot)} {clock clock' : ℕ} {path : PathBuf}
  {published : List (PathBuf × Snapshot)}

theorem VersionOk.mono (h : VersionOk published clock path version)
    (hp : published ⊆ published') (hc : clock ≤ clock') :
    VersionOk published' clock' path version where
  backed := h.backed.imp fun _ b => ⟨hp b.1, b.2⟩
  records_backed e he := (h.records_backed e he).imp fun _ b => ⟨⟨hp b.1.1, b.1.2⟩, b.2⟩
  seen_backed row hr := (h.seen_backed row hr).imp fun _ b => ⟨⟨hp b.1.1, b.1.2⟩, b.2⟩
  publishedAt_le := h.publishedAt_le.trans hc
  lastUsed_le := h.lastUsed_le.trans hc

theorem PathOk.set {key : PathBuf} {replacement : StoredSnapshot}
    (h : PathOk published clock key versions) (hget : versions[index]? = some version)
    (hkey : replacement.contentKey = version.contentKey)
    (hok : VersionOk published clock key replacement) :
    PathOk published clock key (versions.set index replacement) where
  nonempty := by
    intro hnil
    exact h.nonempty (eq_nil_of_length_eq_zero (by simpa using congrArg length hnil))
  cap := by
    rw [length_set]
    exact h.cap
  distinct := by
    obtain ⟨hlt, -⟩ := List.getElem?_eq_some_iff.1 hget
    have hset := (set_perm_cons_eraseIdx hlt replacement).map contentKey
    have hold := (perm_cons_eraseIdx hget).map contentKey
    rw [map_cons, hkey] at hset
    exact (hset.trans hold.symm).nodup_iff.2 h.distinct
  version v hv := by
    rcases mem_or_eq_of_mem_set hv with hold | rfl
    · exact h.version v hold
    · exact hok

section

variable (h : PathOk published clock path versions)
include h

theorem PathOk.mono (hp : published ⊆ published')
    (hc : clock ≤ clock') : PathOk published' clock' path versions :=
  ⟨h.nonempty, h.cap, h.distinct, fun v hv => (h.version v hv).mono hp hc⟩

theorem PathOk.eraseIdx (index : ℕ) (hne : versions.eraseIdx index ≠ []) :
    PathOk published clock path (versions.eraseIdx index) where
  nonempty := hne
  cap := (eraseIdx_sublist _ _).length_le.trans h.cap
  distinct := h.distinct.sublist ((eraseIdx_sublist _ _).map _)
  version v hv := h.version v (mem_of_mem_eraseIdx hv)

/-- A removed version differs in tag or content from the others. -/
theorem PathOk.contentKey_ne {w : StoredSnapshot}
    (hv : versions[index]? = some version) (hw : w ∈ versions.eraseIdx index) :
    w.contentKey ≠ version.contentKey := by
  have hn := ((perm_cons_eraseIdx hv).map contentKey).nodup_iff.1 h.distinct
  rw [map_cons, nodup_cons] at hn
  intro heq
  exact hn.1 (heq ▸ mem_map_of_mem hw)

end

namespace SnapshotStore

variable {Fp : Type}

/-- `version` is a resident version of `path`. -/
def Resident (store : SnapshotStore Fp) (path : PathBuf) (version : StoredSnapshot) : Prop :=
  ∃ versions, store.paths.find? path = some versions ∧ version ∈ versions

def residentBytes (store : SnapshotStore Fp) : ℕ := store.paths.sumValues versionsBytes

/-! ## The eviction history -/

def contents (published : List (PathBuf × Snapshot)) : Set Bytes :=
  {c | ∃ e ∈ published, e.2.normalizedBytes = c}

theorem contents_mono (h : published ⊆ published') : contents published ⊆ contents published' := by
  rintro c ⟨e, he, rfl⟩
  exact ⟨e, h he, rfl⟩

/-- What is known of the eviction history; the last part needs fingerprints that tell the contents
apart. -/
structure HistoryOk (fp : Bytes → Fp) (published : List (PathBuf × Snapshot))
    (store : SnapshotStore Fp) : Prop where
  cap : store.evictionHistory.length ≤ maxEvictionRecords
  nodup : store.evictionHistory.Nodup
  backed : ∀ h ∈ store.evictionHistory, ∃ s, (h.record.canonicalPath, s) ∈ published ∧
    foldTag s.tag = h.record.tag ∧ fp s.normalizedBytes = h.contentFingerprint
  disjoint : Set.InjOn fp (contents published) → ∀ path v, store.Resident path v →
    ⟨.new path v.snapshot.tag, fp v.normalizedBytes⟩ ∉ store.evictionHistory

variable {fp : Bytes → Fp} {published : List (PathBuf × Snapshot)} {store : SnapshotStore Fp}

variable {store' : SnapshotStore Fp}

/-- A history stays right when residency shrinks. -/
theorem HistoryOk.of_resident (h : HistoryOk fp published store)
    (heq : store'.evictionHistory = store.evictionHistory)
    (hres : ∀ path v, store'.Resident path v →
      ∃ w, store.Resident path w ∧ w.contentKey = v.contentKey) :
    HistoryOk fp published store' where
  cap := heq ▸ h.cap
  nodup := heq ▸ h.nodup
  backed := heq ▸ h.backed
  disjoint hfp path v hv := by
    obtain ⟨w, hw, hkey⟩ := hres path v hv
    have hnot := h.disjoint hfp path w hw
    rw [heq]
    unfold contentKey at hkey
    rw [Prod.mk.injEq] at hkey
    unfold EvictionRecord.new at hnot ⊢
    rwa [hkey.1, hkey.2] at hnot

/-! ## The core invariant -/

variable {v : StoredSnapshot}

theorem resident_iff (h : store.paths.find? path = some versions) :
    store.Resident path v ↔ v ∈ versions := by
  unfold Resident
  rw [h]
  simp

theorem not_resident (h : store.paths.find? path = none) (v : StoredSnapshot) :
    ¬ store.Resident path v := by
  unfold Resident
  rw [h]
  simp

theorem resident_congr (h : store'.paths.find? path = store.paths.find? path) :
    store'.Resident path v ↔ store.Resident path v := by
  unfold Resident
  rw [h]

/-- What every step keeps, apart from the byte budget. -/
structure Core (fp : Bytes → Fp) (published : List (PathBuf × Snapshot))
    (store : SnapshotStore Fp) : Prop where
  total : store.totalBytes = store.residentBytes
  path_cap : store.paths.size ≤ maxSnapshotPaths
  path : ∀ path versions, store.paths.find? path = some versions →
    PathOk published store.clock path versions
  history : HistoryOk fp published store
  clock_le : store.clock ≤ maxU64

theorem core_new : Core fp published (new : SnapshotStore Fp) where
  total := rfl
  path_cap := Nat.zero_le _
  path p vs hvs := by simp [new] at hvs
  history :=
    { cap := Nat.zero_le _
      nodup := nodup_nil
      backed := fun e he => by simp [new] at he
      disjoint := fun _ p v hv => by simp [new] }
  clock_le := Nat.zero_le _

theorem le_satAdd_one (h : clock ≤ maxU64) : clock ≤ satAdd clock 1 := by
  unfold satAdd
  omega

section

variable (h : Core fp published store)
include h

theorem Core.versionOk (hv : store.Resident path v) : VersionOk published store.clock path v := by
  obtain ⟨versions, hf, hmem⟩ := hv
  exact (h.path path versions hf).version v hmem

theorem Core.mono (hp : published ⊆ published') : Core fp published' store where
  total := h.total
  path_cap := h.path_cap
  path p vs hvs := (h.path p vs hvs).mono hp le_rfl
  history :=
    { cap := h.history.cap
      nodup := h.history.nodup
      backed := fun e he => (h.history.backed e he).imp fun _ b => ⟨hp b.1, b.2⟩
      disjoint := fun hfp => h.history.disjoint (hfp.mono (contents_mono hp)) }
  clock_le := h.clock_le

theorem Core.clear : Core fp published store.clear where
  total := rfl
  path_cap := Nat.zero_le _
  path p vs hvs := by simp [SnapshotStore.clear] at hvs
  history := core_new.history.of_resident rfl fun _ v hv => ⟨v, hv, rfl⟩
  clock_le := h.clock_le

theorem Core.bumpClock : Core fp published store.bumpClock where
  total := h.total
  path_cap := h.path_cap
  path p vs hvs := (h.path p vs hvs).mono (List.Subset.refl _) (le_satAdd_one h.clock_le)
  history := h.history.of_resident rfl fun _ v hv => ⟨v, hv, rfl⟩
  clock_le := min_le_right _ _

end

/-! ## Version lists in the path map -/

/-- The map with a new version list for one path; an empty list removes the path. -/
def putVersions (paths : SortedMap PathBuf (List StoredSnapshot)) (path : PathBuf)
    (versions : List StoredSnapshot) : SortedMap PathBuf (List StoredSnapshot) :=
  if versions = [] then paths.erase path else paths.insert path versions

variable {q : PathBuf}

variable {paths : SortedMap PathBuf (List StoredSnapshot)}

theorem sumValues_putVersions {f : List StoredSnapshot → ℕ} (hf : f [] = 0) :
    (putVersions paths path versions).sumValues f =
      f versions + (paths.erase path).sumValues f := by
  unfold putVersions
  split_ifs with hnil
  · rw [hnil, hf, Nat.zero_add]
  · exact paths.sumValues_insert path versions f

theorem size_putVersions_le {old : List StoredSnapshot} (versions : List StoredSnapshot)
    (h : paths.find? path = some old) : (putVersions paths path versions).size ≤ paths.size := by
  unfold putVersions
  split_ifs
  · have := size_erase_of_some h
    omega
  · exact (size_insert_of_some versions h).le

section

variable (paths : SortedMap PathBuf (List StoredSnapshot))

theorem find?_putVersions_of_ne (versions : List StoredSnapshot) (h : q ≠ path) :
    (putVersions paths path versions).find? q = paths.find? q := by
  unfold putVersions
  split_ifs
  · exact paths.find?_erase_of_ne h
  · exact paths.find?_insert_of_ne versions h

theorem find?_putVersions_self
    {found : List StoredSnapshot} (h : (putVersions paths path versions).find? path = some found) :
    found = versions ∧ versions ≠ [] := by
  unfold putVersions at h
  split_ifs at h with hnil
  · simp at h
  · rw [find?_insert_self, Option.some.injEq] at h
    exact ⟨h.symm, hnil⟩

theorem putVersions_of_ne_nil (path : PathBuf)
    (h : versions ≠ []) : putVersions paths path versions = paths.insert path versions := if_neg h

end

/-- The store with a new version list for one path. -/
def withVersions (store : SnapshotStore Fp) (path : PathBuf) (versions : List StoredSnapshot)
    (totalBytes : ℕ) : SnapshotStore Fp :=
  { store with paths := putVersions store.paths path versions, totalBytes := totalBytes }

variable {totalBytes : ℕ}

theorem resident_withVersions_self :
    (store.withVersions path versions totalBytes).Resident path v ↔ v ∈ versions := by
  unfold Resident withVersions putVersions
  split_ifs with hnil
  · simp [hnil]
  · simp

theorem resident_withVersions_of_ne (h : q ≠ path) :
    (store.withVersions path versions totalBytes).Resident q v ↔ store.Resident q v :=
  resident_congr (find?_putVersions_of_ne store.paths versions h)

/-- The one way the path map changes: a new version list for one path. -/
theorem Core.withVersions (h : Core fp published store)
    (hok : versions ≠ [] → PathOk published store.clock path versions)
    (hs : (putVersions store.paths path versions).size ≤ maxSnapshotPaths) (ht : totalBytes =
      versionsBytes versions + (store.paths.erase path).sumValues versionsBytes)
    (hh : Set.InjOn fp (contents published) → ∀ v ∈ versions,
      ⟨.new path v.snapshot.tag, fp v.normalizedBytes⟩ ∉ store.evictionHistory) :
    Core fp published (store.withVersions path versions totalBytes) where
  total := ht.trans (sumValues_putVersions rfl).symm
  path_cap := hs
  path q vs hvs := by
    by_cases hq : q = path
    · subst hq
      obtain ⟨rfl, hne⟩ := find?_putVersions_self _ hvs
      exact hok hne
    · exact h.path q vs ((find?_putVersions_of_ne store.paths versions hq).symm.trans hvs)
  history :=
    { cap := h.history.cap
      nodup := h.history.nodup
      backed := h.history.backed
      disjoint := fun hfp q v hv => by
        by_cases hq : q = path
        · subst hq
          exact hh hfp v (resident_withVersions_self.1 hv)
        · exact h.history.disjoint hfp q v ((resident_withVersions_of_ne hq).1 hv) }
  clock_le := h.clock_le

theorem Core.totalBytes_eq (h : Core fp published store)
    (hf : store.paths.find? path = some versions) :
    store.totalBytes = versionsBytes versions + (store.paths.erase path).sumValues versionsBytes :=
  h.total.trans (sumValues_of_find? versionsBytes hf)

theorem versionsBytes_of_getElem? (h : versions[index]? = some version) :
    versionsBytes versions = version.residencyBytes + versionsBytes (versions.eraseIdx index) := by
  have hsum := ((perm_cons_eraseIdx h).map residencyBytes).sum_eq
  simpa [versionsBytes] using hsum

theorem length_of_getElem? (h : versions[index]? = some version) :
    versions.length = 1 + (versions.eraseIdx index).length := by
  rw [(perm_cons_eraseIdx h).length_eq, length_cons, Nat.add_comm]

/-! ## The least recent version -/

theorem mem_versionEntries :
    (path, v, index) ∈ store.versionEntries ↔
      ∃ versions, store.paths.find? path = some versions ∧ versions[index]? = some v := by
  unfold versionEntries
  simp only [mem_flatMap, mem_map, Prod.exists, Prod.mk.injEq,
    find?_eq_some_iff, mem_zipIdx_iff_getElem?]
  constructor
  · rintro ⟨p, vs, hmem, w, i, hget, rfl, rfl, rfl⟩
    exact ⟨vs, hmem, hget⟩
  · rintro ⟨vs, hmem, hget⟩
    exact ⟨path, vs, hmem, v, index, hget, rfl, rfl, rfl⟩

theorem exists_mem_versionEntries (h : store.Resident path v) :
    ∃ index, (path, v, index) ∈ store.versionEntries := by
  obtain ⟨versions, hf, hmem⟩ := h
  obtain ⟨index, hget⟩ := mem_iff_getElem?.1 hmem
  exact ⟨index, mem_versionEntries.2 ⟨versions, hf, hget⟩⟩

theorem leastRecentVersion_eq_none (h : store.leastRecentVersion = none) (path : PathBuf)
    (v : StoredSnapshot) : ¬ store.Resident path v := by
  intro hv
  obtain ⟨index, hmem⟩ := exists_mem_versionEntries hv
  unfold leastRecentVersion at h
  rw [Option.map_eq_none_iff, argmin_eq_none] at h
  rw [h] at hmem
  exact not_mem_nil hmem

/-- The evicted version exists, and no version was used longer ago. -/
theorem leastRecentVersion_eq_some (h : store.leastRecentVersion = some (path, index)) :
    ∃ versions version, store.paths.find? path = some versions ∧ versions[index]? = some version ∧
      ∀ q w, store.Resident q w → version.lastUsed ≤ w.lastUsed := by
  unfold leastRecentVersion at h
  obtain ⟨⟨p, v, i⟩, harg, heq⟩ := Option.map_eq_some_iff.1 h
  obtain ⟨rfl, rfl⟩ := Prod.mk.inj heq
  obtain ⟨versions, hf, hget⟩ := mem_versionEntries.1 (argmin_mem harg)
  refine ⟨versions, v, hf, hget, fun q w hw => ?_⟩
  obtain ⟨j, hmem⟩ := exists_mem_versionEntries hw
  have hle := le_of_mem_argmin hmem harg
  unfold versionAge at hle
  rcases Prod.Lex.le_iff.1 hle with hlt | ⟨heq', -⟩
  · exact hlt.le
  · exact heq'.le

theorem snapshotCount_withVersions (totalBytes : ℕ)
    (hf : store.paths.find? path = some versions) (hget : versions[index]? = some version) :
    (store.withVersions path (versions.eraseIdx index) totalBytes).snapshotCount + 1 =
      store.snapshotCount := by
  show (putVersions store.paths path (versions.eraseIdx index)).sumValues List.length + 1 = _
  rw [sumValues_putVersions rfl, snapshotCount, sumValues_of_find? _ hf, length_of_getElem? hget]
  omega

theorem sumValues_versionsBytes_eq_zero
    (h : ∀ path versions, paths.find? path = some versions → versions = []) :
    paths.sumValues versionsBytes = 0 := by
  unfold sumValues values
  rw [sum_eq_zero_iff]
  intro n hn
  simp only [map_map, mem_map] at hn
  obtain ⟨⟨path, versions⟩, hmem, rfl⟩ := hn
  simp [h path versions (find?_eq_some_iff.2 hmem), versionsBytes]

theorem Core.exists_leastRecentVersion (h : Core fp published store)
    (ho : maxSnapshotTotalBytes < store.totalBytes) :
    ∃ path index versions version, store.leastRecentVersion = some (path, index) ∧
      store.paths.find? path = some versions ∧ versions[index]? = some version ∧
      ∀ q w, store.Resident q w → version.lastUsed ≤ w.lastUsed := by
  cases hl : store.leastRecentVersion with
  | none =>
    have hz : store.residentBytes = 0 := sumValues_versionsBytes_eq_zero
      fun path versions hf => eq_nil_iff_forall_not_mem.2 fun v hv =>
        leastRecentVersion_eq_none hl path v ⟨versions, hf, hv⟩
    have ht := h.total
    omega
  | some c =>
    obtain ⟨versions, version, hr⟩ := leastRecentVersion_eq_some hl
    exact ⟨c.1, c.2, versions, version, rfl, hr⟩

/-! ## Changes of the history -/

theorem truncateHistory_sublist (history : List (EvictionHistoryEntry Fp)) :
    (truncateHistory history).Sublist history := by
  induction history with
  | nil => exact List.Sublist.refl _
  | cons entry rest ih =>
    unfold truncateHistory
    split_ifs
    · exact ih.cons entry
    · exact List.Sublist.refl _

theorem length_truncateHistory (history : List (EvictionHistoryEntry Fp)) :
    (truncateHistory history).length ≤ maxEvictionRecords := by
  induction history with
  | nil => exact Nat.zero_le _
  | cons entry rest ih =>
    unfold truncateHistory
    split_ifs with h
    · exact ih
    · exact not_lt.1 h

variable [DecidableEq Fp]

theorem recordEviction_eq (record : EvictionRecord) (fingerprint : Fp) :
    store.recordEviction record fingerprint = { store with
      evictionHistory := truncateHistory
        ((store.removeHistory record fingerprint).evictionHistory ++ [⟨record, fingerprint⟩]) } := by
  rfl

variable {record : EvictionRecord} {fingerprint : Fp} {h : EvictionHistoryEntry Fp}

theorem mem_removeHistory :
    h ∈ (store.removeHistory record fingerprint).evictionHistory ↔
      h ∈ store.evictionHistory ∧ h ≠ ⟨record, fingerprint⟩ := by
  obtain ⟨r, f⟩ := h
  simp [removeHistory, imp_iff_not_or]

theorem HistoryOk.removeHistory (h : HistoryOk fp published store) (record : EvictionRecord)
    (fingerprint : Fp) : HistoryOk fp published (store.removeHistory record fingerprint) where
  cap := (length_filter_le _ _).trans h.cap
  nodup := h.nodup.filter _
  backed e he := h.backed e (mem_removeHistory.1 he).1
  disjoint hfp path v hv hmem := h.disjoint hfp path v hv (mem_removeHistory.1 hmem).1

theorem mem_recordEviction (hmem : h ∈ (store.recordEviction record fingerprint).evictionHistory) :
    h = ⟨record, fingerprint⟩ ∨ h ∈ store.evictionHistory := by
  rcases mem_append.1 ((truncateHistory_sublist _).subset hmem) with hold | hnew
  · exact .inr (mem_removeHistory.1 hold).1
  · exact .inl (mem_singleton.1 hnew)

variable {tag : String} {content : Bytes}

theorem HistoryOk.recordEviction (h : HistoryOk fp published store)
    (hba : ∃ s, (path, s) ∈ published ∧ foldTag s.tag = foldTag tag ∧ s.normalizedBytes = content)
    (hg : Set.InjOn fp (contents published) → ∀ v, store.Resident path v →
      foldTag v.snapshot.tag = foldTag tag → fp v.normalizedBytes ≠ fp content) :
    HistoryOk fp published (store.recordEviction (.new path tag) (fp content)) where
  cap := by
    exact length_truncateHistory _
  nodup := by
    have hn := (h.removeHistory (.new path tag) (fp content)).nodup
    refine List.Nodup.sublist (truncateHistory_sublist _) (nodup_append.2 ⟨hn, ?_, ?_⟩)
    · exact nodup_singleton _
    · intro a ha b hb
      rw [mem_singleton.1 hb]
      exact (mem_removeHistory.1 ha).2
  backed e he := by
    rcases mem_recordEviction he with rfl | hold
    · obtain ⟨s, hs, htag, hby⟩ := hba
      exact ⟨s, hs, htag, congrArg fp hby⟩
    · exact h.backed e hold
  disjoint hfp p v hv hmem := by
    rcases mem_recordEviction hmem with heq | hold
    · simp only [EvictionHistoryEntry.mk.injEq, EvictionRecord.new, EvictionRecord.mk.injEq] at heq
      obtain ⟨⟨rfl, htag⟩, hfp'⟩ := heq
      exact hg hfp v hv htag hfp'
    · exact h.disjoint hfp p v hv hold

theorem Core.removeHistory (h : Core fp published store) (record : EvictionRecord)
    (fingerprint : Fp) : Core fp published (store.removeHistory record fingerprint) where
  total := h.total
  path_cap := h.path_cap
  path := h.path
  history := h.history.removeHistory record fingerprint
  clock_le := h.clock_le

/-! ## Eviction of one version -/

def evictedVersion (fp : Bytes → Fp) (store : SnapshotStore Fp) (path : PathBuf)
    (versions : List StoredSnapshot) (index : ℕ) (version : StoredSnapshot) : SnapshotStore Fp :=
  (store.withVersions path (versions.eraseIdx index)
    (store.totalBytes - version.residencyBytes)).recordEviction
      (.new path version.snapshot.tag) (fp version.normalizedBytes)

/-- What `removeVersionForEviction` returns for an existing version. -/
theorem removeVersionForEviction_eq
    (hf : store.paths.find? path = some versions) (hget : versions[index]? = some version) :
    store.removeVersionForEviction fp path index =
      some (evictedVersion fp store path versions index version,
        .new path version.snapshot.tag) := by
  unfold removeVersionForEviction evictedVersion withVersions putVersions
  rw [hf]
  simp only [Option.bind_eq_bind, Option.bind_some, hget]
  rfl

theorem Core.removeVersion (h : Core fp published store)
    (hf : store.paths.find? path = some versions) (hget : versions[index]? = some version) :
    Core fp published (evictedVersion fp store path versions index version) := by
  have hp := h.path path versions hf
  have hmem : version ∈ versions := mem_of_getElem? hget
  have hsub : ∀ v ∈ versions.eraseIdx index, store.Resident path v := fun v hv =>
    (resident_iff hf).2 (mem_of_mem_eraseIdx hv)
  have ht : store.totalBytes - version.residencyBytes =
      versionsBytes (versions.eraseIdx index) + (store.paths.erase path).sumValues versionsBytes := by
    rw [h.totalBytes_eq hf, versionsBytes_of_getElem? hget]
    omega
  have hc := h.withVersions (hp.eraseIdx index) ((size_putVersions_le _ hf).trans h.path_cap) ht
    (fun hfp v hv => h.history.disjoint hfp path v (hsub v hv))
  obtain ⟨s, hs, htag, hb⟩ := (hp.version version hmem).backed
  refine ⟨hc.total, hc.path_cap, hc.path, hc.history.recordEviction ⟨s, hs, htag, hb⟩
    fun hfp v hv htag' heq => ?_, hc.clock_le⟩
  have hv' := resident_withVersions_self.1 hv
  obtain ⟨s', hs', -, hb'⟩ := (hp.version v (mem_of_mem_eraseIdx hv')).backed
  have hco : v.normalizedBytes = version.normalizedBytes :=
    hfp ⟨_, hs', hb'⟩ ⟨_, hs, hb⟩ heq
  exact hp.contentKey_ne hget hv' (Prod.ext htag' hco)

/-! ## Eviction of a path -/

/-- One round of the loop over the versions of an evicted path. -/
def evictVersionOf (fp : Bytes → Fp) (path : PathBuf) (store : SnapshotStore Fp)
    (version : StoredSnapshot) : SnapshotStore Fp :=
  { store with totalBytes := store.totalBytes - version.residencyBytes }.recordEviction
    (.new path version.snapshot.tag) (fp version.normalizedBytes)

theorem evictVersionOf_foldl_eq (fp : Bytes → Fp) (path : PathBuf) (versions : List StoredSnapshot)
    (store : SnapshotStore Fp) :
    ∃ history, versions.foldl (evictVersionOf fp path) store = { store with
      totalBytes := store.totalBytes - versionsBytes versions, evictionHistory := history } := by
  induction versions generalizing store with
  | nil => exact ⟨_, rfl⟩
  | cons v rest ih =>
    obtain ⟨history, hf⟩ := ih (evictVersionOf fp path store v)
    rw [foldl_cons, hf]
    unfold evictVersionOf
    rw [recordEviction_eq]
    simp [versionsBytes, Nat.sub_add_eq]

theorem evictVersionOf_foldl_history (h : HistoryOk fp published store)
    (hg : store.paths.find? path = none) (hb : ∀ v ∈ versions, ∃ s, Backs published path v s) :
    HistoryOk fp published (versions.foldl (evictVersionOf fp path) store) := by
  induction versions generalizing store with
  | nil => exact h
  | cons v rest ih =>
    have hs : HistoryOk fp published (evictVersionOf fp path store v) := by
      have hsa : HistoryOk fp published
          { store with totalBytes := store.totalBytes - v.residencyBytes } :=
        h.of_resident rfl fun _ w hw => ⟨w, hw, rfl⟩
      exact hsa.recordEviction (hb v mem_cons_self) fun _ w hw => absurd hw (not_resident hg w)
    refine ih hs ?_ fun w hw => hb w (mem_cons_of_mem _ hw)
    exact hg

theorem removePathForEviction_eq (hf : store.paths.find? path = some versions) :
    store.removePathForEviction fp path =
      (versions.foldl (evictVersionOf fp path) { store with paths := store.paths.erase path },
        versions.map fun version => .new path version.snapshot.tag) := by
  unfold removePathForEviction
  rw [hf]
  rfl

theorem Core.removePath (h : Core fp published store)
    (hf : store.paths.find? path = some versions) :
    Core fp published (store.removePathForEviction fp path).1 := by
  have hp := h.path path versions hf
  have hh : HistoryOk fp published { store with paths := store.paths.erase path } := by
    refine h.history.of_resident rfl fun q v hv => ⟨v, ?_, rfl⟩
    by_cases hq : q = path
    · subst hq
      exact absurd hv (not_resident (store.paths.find?_erase_self q) v)
    · exact (resident_congr (store.paths.find?_erase_of_ne hq)).1 hv
  have hfo := evictVersionOf_foldl_history hh (store.paths.find?_erase_self path)
    fun v hv => (hp.version v hv).backed
  rw [removePathForEviction_eq hf]
  obtain ⟨history, heq⟩ := evictVersionOf_foldl_eq fp path versions
    { store with paths := store.paths.erase path }
  rw [heq] at hfo ⊢
  refine ⟨?_, ?_, fun q vs hvs => ?_, hfo, h.clock_le⟩
  · show store.totalBytes - versionsBytes versions = (store.paths.erase path).sumValues versionsBytes
    rw [h.totalBytes_eq hf]
    omega
  · have := size_erase_of_some hf
    have := h.path_cap
    show (store.paths.erase path).size ≤ maxSnapshotPaths
    omega
  · by_cases hq : q = path
    · subst hq
      exact absurd hvs (by simp)
    · exact h.path q vs ((store.paths.find?_erase_of_ne hq).symm.trans hvs)

/-! ## The eviction loop -/

/-- The rule for the eviction loop: what each eviction of a least recent version keeps holds at its
end, where the budget is met. -/
theorem evictOverBudget_spec {P : SnapshotStore Fp → List EvictionRecord → Prop}
    (hs : ∀ (store : SnapshotStore Fp) evicted path versions index version,
      Core fp published store → P store evicted → maxSnapshotTotalBytes < store.totalBytes →
      store.paths.find? path = some versions → versions[index]? = some version →
      (∀ q w, store.Resident q w → version.lastUsed ≤ w.lastUsed) →
      P (evictedVersion fp store path versions index version)
        (evicted ++ [.new path version.snapshot.tag]))
    (rounds : ℕ) (store : SnapshotStore Fp) (evicted : List EvictionRecord)
    (hc : Core fp published store) (hP : P store evicted)
    (hr : store.snapshotCount ≤ rounds) :
    ∃ final evicted', store.evictOverBudget fp rounds evicted = some (final, evicted') ∧
      Core fp published final ∧ P final evicted' ∧ final.totalBytes ≤ maxSnapshotTotalBytes := by
  induction rounds generalizing store evicted with
  | zero =>
    unfold evictOverBudget
    split_ifs with ho
    · obtain ⟨path, index, versions, version, -, hf, hget, -⟩ :=
        hc.exists_leastRecentVersion ho
      have hco := snapshotCount_withVersions 0 hf hget
      omega
    · exact ⟨store, evicted, rfl, hc, hP, not_lt.1 ho⟩
  | succ rounds ih =>
    unfold evictOverBudget
    split_ifs with ho
    · obtain ⟨path, index, versions, version, hl, hf, hget, hmin⟩ :=
        hc.exists_leastRecentVersion ho
      simp only [hl, removeVersionForEviction_eq hf hget]
      refine ih _ _ (hc.removeVersion hf hget)
        (hs store evicted path versions index version hc hP ho hf hget hmin) ?_
      have hco : (evictedVersion fp store path versions index version).snapshotCount + 1 = _ :=
        snapshotCount_withVersions (store.totalBytes - version.residencyBytes) hf hget
      dsimp only
      omega
    · exact ⟨store, evicted, rfl, hc, hP, not_lt.1 ho⟩

end SnapshotStore

end Aft.Hashline
