import Aft.Hashline.SnapshotStoreInvariant

/-!
# Publication into the snapshot store

`publish_spec`: a publication either is refused and changes nothing, or keeps the core invariant and
the byte budget, leaves a resident version with the published tag, content and seen rows, and evicts
only versions that differ from it in path, tag or content. The published version is the only one
used at the current time (`Fresh`), so the eviction loop never selects it.
-/

namespace Aft.Hashline

open List SortedMap StoredSnapshot

namespace SnapshotStore

variable {Fp : Type} {fp : Bytes → Fp} {published : List (PathBuf × Snapshot)}
  {origin store : SnapshotStore Fp} {key : PathBuf} {fresh : StoredSnapshot}

/-! ## The published version -/

/-- `fresh` is resident at `key` and newer than the rest, which was resident in `origin`; `evicted`
lists handles of versions of `origin` other than `fresh`. -/
structure Fresh (origin : SnapshotStore Fp) (key : PathBuf) (fresh : StoredSnapshot)
    (store : SnapshotStore Fp) (evicted : List EvictionRecord) : Prop where
  resident : store.Resident key fresh
  others : ∀ q w, store.Resident q w → (q = key ∧ w = fresh) ∨
    origin.Resident q w ∧ w.lastUsed < fresh.lastUsed ∧
      (q = key → w.contentKey ≠ fresh.contentKey)
  evicted_from : ∀ r ∈ evicted, ∃ q w, origin.Resident q w ∧ r = .new q w.snapshot.tag ∧
    (q = key → w.contentKey ≠ fresh.contentKey)

/-- A store whose only version is `fresh` holds its bytes. -/
theorem Core.totalBytes_of_only (h : Core fp published store) (hf : store.Resident key fresh)
    (ho : ∀ q w, store.Resident q w → q = key ∧ w = fresh) :
    store.totalBytes = fresh.residencyBytes := by
  obtain ⟨versions, hfi, hmem⟩ := hf
  have hall : ∀ w ∈ versions, w = fresh := fun w hw => (ho key w ⟨versions, hfi, hw⟩).2
  have hn : versions.Nodup := (h.path key versions hfi).distinct.of_map _
  have hone : versions = [fresh] := by
    rw [eq_replicate_of_mem hall] at hn hmem ⊢
    have := nodup_replicate.1 hn
    have := (mem_replicate.1 hmem).1
    have hlen : versions.length = 1 := by omega
    rw [hlen]
    rfl
  have hr : (store.paths.erase key).sumValues versionsBytes = 0 := by
    refine sumValues_versionsBytes_eq_zero fun q vs hvs => ?_
    have hq : q ≠ key := by
      rintro rfl
      exact absurd hvs (by simp)
    rw [store.paths.find?_erase_of_ne hq] at hvs
    exact eq_nil_iff_forall_not_mem.2 fun w hw => hq (ho q w ⟨vs, hvs, hw⟩).1
  rw [h.totalBytes_eq hfi, hr, hone]
  simp [versionsBytes]

/-! ## Content that is already resident -/

variable {versions : List StoredSnapshot} {snapshot merged : Snapshot} {content : Bytes} {index : ℕ}

theorem coalescedVersion_eq_some
    (h : coalescedVersion versions snapshot content = some (index, merged)) :
    ∃ version, versions[index]? = some version ∧
      version.contentKey = (foldTag snapshot.tag, content) ∧
      merged = mergeSnapshotEvidence version.snapshot snapshot := by
  unfold coalescedVersion at h
  simp only [Option.bind_eq_bind, Option.bind_eq_some_iff] at h
  obtain ⟨i, hi, version, hget, rfl, rfl⟩ := h
  obtain ⟨hlt, hs, -⟩ := findIdx?_eq_some_iff_getElem.1 hi
  obtain ⟨_, hv⟩ := List.getElem?_eq_some_iff.1 hget
  rw [hv] at hs
  simp only [hasSameNormalizedContent, decide_eq_true_eq] at hs
  exact ⟨version, hget, Prod.ext hs.1 hs.2, rfl⟩

variable {v : StoredSnapshot}

theorem contentKey_ne_of_coalescedVersion_eq_none
    (h : coalescedVersion versions snapshot content = none) (hv : v ∈ versions) :
    v.contentKey ≠ (foldTag snapshot.tag, content) := by
  intro heq
  have hs : v.hasSameNormalizedContent snapshot.tag content = true := by
    simpa [hasSameNormalizedContent] using Prod.mk.inj heq
  obtain ⟨i, hi⟩ : ∃ i, versions.findIdx?
      (·.hasSameNormalizedContent snapshot.tag content) = some i := by
    rw [← Option.isSome_iff_exists, findIdx?_isSome, any_eq_true]
    exact ⟨v, hv, hs⟩
  obtain ⟨hlt, -⟩ := findIdx?_eq_some_iff_getElem.1 hi
  unfold coalescedVersion at h
  simp [hi, getElem?_eq_getElem hlt] at h

@[simp]
theorem stripped_tag (snapshot : Snapshot) : (stripped snapshot).tag = snapshot.tag := rfl

/-- The version that a coalescing publication leaves. -/
def refreshed (version : StoredSnapshot) (merged : Snapshot) (clock : ℕ) : StoredSnapshot :=
  { version with snapshot := merged, publishedAt := clock, lastUsed := clock }

variable {version : StoredSnapshot} {clock : ℕ}

/-- Merged evidence goes back to the publications of both sides. -/
theorem versionOk_refreshed (h : VersionOk published clock key version)
    (hmem : (key, snapshot) ∈ published)
    (hkey : version.contentKey = (foldTag snapshot.tag, snapshot.normalizedBytes)) :
    VersionOk published clock key
      (refreshed version (mergeSnapshotEvidence version.snapshot (stripped snapshot)) clock) where
  backed := h.backed
  records_backed e he := by
    rcases mem_extend he with hold | hnew
    · exact h.records_backed e hold
    · exact ⟨snapshot, ⟨hmem, (congrArg Prod.fst hkey).symm, (congrArg Prod.snd hkey).symm⟩, hnew⟩
  seen_backed row hrow := by
    rcases Finset.mem_union.1 hrow with hold | hnew
    · exact h.seen_backed row hold
    · exact ⟨snapshot, ⟨hmem, (congrArg Prod.fst hkey).symm, (congrArg Prod.snd hkey).symm⟩, hnew⟩
  publishedAt_le := le_rfl
  lastUsed_le := le_rfl

theorem refreshVersion_eq (merged : Snapshot) (hf : store.paths.find? key = some versions)
    (hget : versions[index]? = some version) :
    store.refreshVersion key index merged = some (store.withVersions key
      (versions.set index (refreshed version merged store.clock))
      (satAdd (store.totalBytes - version.residencyBytes)
        (refreshed version merged store.clock).residencyBytes)) := by
  obtain ⟨hlt, -⟩ := List.getElem?_eq_some_iff.1 hget
  have hne : versions.set index (refreshed version merged store.clock) ≠ [] := by
    intro hnil
    have := congrArg length hnil
    rw [length_set, length_nil] at this
    omega
  unfold refreshVersion withVersions
  rw [putVersions_of_ne_nil _ _ hne, hf]
  simp only [Option.bind_eq_bind, Option.bind_some, hget]
  rfl

variable {new : StoredSnapshot}

/-- Replacing a version by one with the same tag and content keeps the core invariant. -/
theorem Core.setVersion (h : Core fp published store)
    (hf : store.paths.find? key = some versions) (hget : versions[index]? = some version)
    (hb : store.totalBytes ≤ maxSnapshotTotalBytes)
    (hkey : new.contentKey = version.contentKey) (hok : VersionOk published store.clock key new)
    (hfi : new.residencyBytes ≤ maxSnapshotTotalBytes) :
    Core fp published (store.withVersions key (versions.set index new)
      (satAdd (store.totalBytes - version.residencyBytes) new.residencyBytes)) := by
  obtain ⟨hlt, -⟩ := List.getElem?_eq_some_iff.1 hget
  have hp := h.path key versions hf
  refine h.withVersions (fun _ => hp.set hget hkey hok)
    ((size_putVersions_le _ hf).trans h.path_cap) ?_ fun hfp v hv => ?_
  · have hset : versionsBytes (versions.set index new) =
        new.residencyBytes + versionsBytes (versions.eraseIdx index) := by
      have := ((set_perm_cons_eraseIdx hlt new).map residencyBytes).sum_eq
      simpa [versionsBytes] using this
    have hold := versionsBytes_of_getElem? hget
    have ht := h.totalBytes_eq hf
    rw [satAdd_eq_add (add_le_maxU64 ((Nat.sub_le _ _).trans hb) hfi)]
    omega
  · rcases mem_or_eq_of_mem_set hv with hold | rfl
    · exact h.history.disjoint hfp key v ((resident_iff hf).2 hold)
    · have := h.history.disjoint hfp key version ((resident_iff hf).2 (mem_of_getElem? hget))
      obtain ⟨htag, hby⟩ := Prod.mk.inj hkey
      unfold EvictionRecord.new at this ⊢
      rwa [htag, hby]

/-! ## Content that is not resident -/

variable {evicted : List EvictionRecord}

theorem resident_of_mem_getD (h : v ∈ (store.paths.find? key).getD []) : store.Resident key v := by
  cases hf : store.paths.find? key with
  | none => simp [hf] at h
  | some versions => exact ⟨versions, hf, by simpa [hf] using h⟩

theorem pushVersion_eq (version : StoredSnapshot) (retainedBytes : ℕ) :
    store.pushVersion key version retainedBytes =
      store.withVersions key ((store.paths.find? key).getD [] ++ [version])
        (satAdd store.totalBytes retainedBytes) := by
  unfold pushVersion withVersions
  rw [putVersions_of_ne_nil _ _ (by simp)]

/-- Appending a version with a new tag or content keeps the core invariant. -/
theorem Core.push (h : Core fp published store)
    (hcap : ((store.paths.find? key).getD []).length < maxVersionsPerPath)
    (hs : store.paths.find? key = none → store.paths.size < maxSnapshotPaths)
    (hnew : ∀ v ∈ (store.paths.find? key).getD [], v.contentKey ≠ version.contentKey)
    (hok : VersionOk published store.clock key version)
    (hbu : store.totalBytes ≤ maxSnapshotTotalBytes)
    (hf : version.residencyBytes ≤ maxSnapshotTotalBytes)
    (hh : ⟨.new key version.snapshot.tag, fp version.normalizedBytes⟩ ∉ store.evictionHistory) :
    Core fp published (store.pushVersion key version version.residencyBytes) := by
  have hold : ∀ v ∈ (store.paths.find? key).getD [], store.Resident key v :=
    fun _ => resident_of_mem_getD
  have hd : (((store.paths.find? key).getD []).map contentKey).Nodup := by
    cases hfi : store.paths.find? key with
    | none => simp
    | some versions => exact (h.path key versions hfi).distinct
  rw [pushVersion_eq]
  refine h.withVersions (fun _ => ⟨by simp, ?_, ?_, ?_⟩) ?_ ?_ ?_
  · rw [length_append, length_singleton]
    exact hcap
  · rw [map_append, map_singleton, nodup_append]
    refine ⟨hd, nodup_singleton _, fun a ha b hb => ?_⟩
    obtain ⟨v, hv, rfl⟩ := mem_map.1 ha
    rw [mem_singleton.1 hb]
    exact hnew v hv
  · intro v hv
    rcases mem_append.1 hv with hv | hv
    · exact h.versionOk (hold v hv)
    · exact mem_singleton.1 hv ▸ hok
  · rw [putVersions_of_ne_nil _ _ (by simp)]
    cases hfi : store.paths.find? key with
    | none =>
      rw [size_insert_of_none _ hfi]
      exact hs hfi
    | some versions =>
      rw [size_insert_of_some _ hfi]
      exact h.path_cap
  · rw [satAdd_eq_add (add_le_maxU64 hbu hf)]
    have hsum : store.totalBytes = versionsBytes ((store.paths.find? key).getD []) +
        (store.paths.erase key).sumValues versionsBytes := by
      cases hfi : store.paths.find? key with
      | none =>
        rw [erase_eq_self hfi, h.total]
        simp [versionsBytes, residentBytes]
      | some versions => exact h.totalBytes_eq hfi
    simp only [versionsBytes, map_append, map_singleton, sum_append, sum_singleton] at hsum ⊢
    omega
  · intro hfp v hv
    rcases mem_append.1 hv with hv | hv
    · exact h.history.disjoint hfp key v (hold v hv)
    · exact mem_singleton.1 hv ▸ hh

theorem fresh_push {room : SnapshotStore Fp} (hr : ∀ q w, room.Resident q w → store.Resident q w)
    (hnew : ∀ v, store.Resident key v → v.contentKey ≠ fresh.contentKey)
    (hl : ∀ q w, store.Resident q w → w.lastUsed < fresh.lastUsed)
    (hev : ∀ r ∈ evicted, ∃ q w, store.Resident q w ∧ r = .new q w.snapshot.tag ∧
      (q = key → w.contentKey ≠ fresh.contentKey)) (retainedBytes : ℕ) :
    Fresh store key fresh (room.pushVersion key fresh retainedBytes) evicted := by
  rw [pushVersion_eq]
  refine ⟨resident_withVersions_self.2 (by simp), fun q w hw => ?_, hev⟩
  by_cases hq : q = key
  · subst hq
    rcases mem_append.1 (resident_withVersions_self.1 hw) with hw | hw
    · have hres := hr q w (resident_of_mem_getD hw)
      exact Or.inr ⟨hres, hl q w hres, fun _ => hnew w hres⟩
    · exact Or.inl ⟨rfl, mem_singleton.1 hw⟩
  · have hres := hr q w ((resident_withVersions_of_ne hq).1 hw)
    exact Or.inr ⟨hres, hl q w hres, fun h => absurd h hq⟩

/-! ## Room for a version -/

variable {path : PathBuf}

/-- What making room for a version of `key` with the tag and content `ck` does. -/
structure Room (fp : Bytes → Fp) (published : List (PathBuf × Snapshot)) (key : PathBuf)
    (ck : String × Bytes) (origin : SnapshotStore Fp) (store : SnapshotStore Fp)
    (evicted : List EvictionRecord) : Prop where
  core : Core fp published store
  clock_eq : store.clock = origin.clock
  total_le : store.totalBytes ≤ origin.totalBytes
  resident : ∀ q w, store.Resident q w → origin.Resident q w
  evicted_from : ∀ r ∈ evicted, ∃ q w, origin.Resident q w ∧ r = .new q w.snapshot.tag ∧
    (q = key → w.contentKey ≠ ck)

theorem leastRecentPath_eq_some (h : store.leastRecentPath = some path) :
    ∃ versions, store.paths.find? path = some versions := by
  unfold leastRecentPath at h
  obtain ⟨⟨p, versions⟩, harg, rfl⟩ := Option.map_eq_some_iff.1 h
  exact ⟨versions, find?_eq_some_iff.2 (argmin_mem harg)⟩

theorem leastRecentPath_eq_none (h : store.leastRecentPath = none) : store.paths.size = 0 := by
  unfold leastRecentPath at h
  rw [Option.map_eq_none_iff, argmin_eq_none] at h
  simp [size, h]

theorem Room.refl (h : Core fp published store) (ck : String × Bytes) :
    Room fp published key ck store store [] :=
  ⟨h, rfl, le_rfl, fun _ _ hw => hw, nofun⟩

theorem oldestVersion_eq_some (h : oldestVersion versions = some index) :
    ∃ version, versions[index]? = some version := by
  unfold oldestVersion at h
  obtain ⟨⟨v, i⟩, harg, rfl⟩ := Option.map_eq_some_iff.1 h
  exact ⟨v, mem_zipIdx_iff_getElem?.1 (argmin_mem harg)⟩

theorem oldestVersion_eq_none (h : oldestVersion versions = none) : versions = [] := by
  unfold oldestVersion at h
  rw [Option.map_eq_none_iff, argmin_eq_none] at h
  simpa using h

/-! ## What a publication leaves -/

variable {live : Prop}

/-- What a publication of `snapshot` at `key` leaves; `live` says that the clock still advances. -/
structure Published (fp : Bytes → Fp) (published : List (PathBuf × Snapshot)) (live : Prop)
    (origin : SnapshotStore Fp) (key : PathBuf) (snapshot : Snapshot) (final : SnapshotStore Fp)
    (evicted : List EvictionRecord) : Prop where
  core : Core fp published final
  budget : final.totalBytes ≤ maxSnapshotTotalBytes
  fresh : live → ∃ f, f.contentKey = (foldTag snapshot.tag, snapshot.normalizedBytes) ∧
    snapshot.coverage.seenLines ⊆ f.snapshot.coverage.seenLines ∧
    Fresh origin key f final evicted

theorem fresh_set (store' : SnapshotStore Fp) (hp : store'.paths = store.paths)
    (hpa : PathOk published clock key versions) (hf : store.paths.find? key = some versions)
    (hget : versions[index]? = some version) (hkey : new.contentKey = version.contentKey)
    (hl : ∀ q w, store.Resident q w → w.lastUsed < new.lastUsed) (totalBytes : ℕ) :
    Fresh store key new (store'.withVersions key (versions.set index new) totalBytes) [] := by
  obtain ⟨hlt, -⟩ := List.getElem?_eq_some_iff.1 hget
  refine ⟨resident_withVersions_self.2 (mem_set hlt _), fun q w hw => ?_,
    fun r hr => absurd hr not_mem_nil⟩
  by_cases hq : q = key
  · subst hq
    have hw' := resident_withVersions_self.1 hw
    rcases mem_cons.1 ((set_perm_cons_eraseIdx hlt _).mem_iff.1 hw') with hw' | hw'
    · exact Or.inl ⟨rfl, hw'⟩
    · have hres : store.Resident q w := (resident_iff hf).2 (mem_of_mem_eraseIdx hw')
      exact Or.inr ⟨hres, hl q w hres, fun _ => hkey ▸ hpa.contentKey_ne hget hw'⟩
  · have hres : store.Resident q w :=
      (resident_congr (by rw [hp])).1 ((resident_withVersions_of_ne hq).1 hw)
    exact Or.inr ⟨hres, hl q w hres, fun h => absurd h hq⟩

theorem lastUsed_lt_bumpClock (h : Core fp published store) (hl : store.clock < maxU64)
    (q : PathBuf) (w : StoredSnapshot) (hw : store.bumpClock.Resident q w) :
    w.lastUsed < store.bumpClock.clock := by
  have hle : w.lastUsed ≤ store.clock := (h.versionOk hw).lastUsed_le
  show w.lastUsed < satAdd store.clock 1
  rw [satAdd_eq_add hl]
  omega

theorem Published.of_bumpClock {final : SnapshotStore Fp}
    (h : Published fp published live store.bumpClock key snapshot final evicted) :
    Published fp published live store key snapshot final evicted :=
  ⟨h.core, h.budget, fun hl => (h.fresh hl).imp fun _ hf =>
    ⟨hf.1, hf.2.1, hf.2.2.resident, hf.2.2.others, hf.2.2.evicted_from⟩⟩

/-! ## The eviction loop after a publication -/

variable [DecidableEq Fp] {q : PathBuf} {w : StoredSnapshot}

theorem resident_evictedVersion :
    (evictedVersion fp store path versions index version).Resident q w ↔
      if q = path then w ∈ versions.eraseIdx index else store.Resident q w := by
  change (store.withVersions path _ (store.totalBytes - version.residencyBytes)).Resident q w ↔ _
  split_ifs with hq
  · subst hq
    exact resident_withVersions_self
  · exact resident_withVersions_of_ne hq

theorem resident_of_resident_evictedVersion (hf : store.paths.find? path = some versions)
    (h : (evictedVersion fp store path versions index version).Resident q w) :
    store.Resident q w := by
  rw [resident_evictedVersion] at h
  split_ifs at h with hq
  · subst hq
    exact (resident_iff hf).2 (mem_of_mem_eraseIdx h)
  · exact h

/-- Over the budget, evicting a least recent version keeps the published one. -/
theorem Fresh.evictedVersion (hf : Fresh origin key fresh store evicted)
    (hfi : fresh.residencyBytes ≤ maxSnapshotTotalBytes) (hc : Core fp published store)
    (ho : maxSnapshotTotalBytes < store.totalBytes)
    (hfin : store.paths.find? path = some versions) (hget : versions[index]? = some version)
    (hmin : ∀ q w, store.Resident q w → version.lastUsed ≤ w.lastUsed) :
    Fresh origin key fresh (evictedVersion fp store path versions index version)
      (evicted ++ [.new path version.snapshot.tag]) := by
  have hmem : version ∈ versions := mem_of_getElem? hget
  have hot : ¬ (path = key ∧ version = fresh) := by
    rintro ⟨rfl, rfl⟩
    have hon : ∀ q w, store.Resident q w → q = path ∧ w = version := by
      intro q w hw
      rcases hf.others q w hw with heq | ⟨-, hlt, -⟩
      · exact heq
      · have := hmin q w hw
        omega
    have := hc.totalBytes_of_only hf.resident hon
    omega
  obtain ⟨hor, -, hkey⟩ :=
    (hf.others path version ((resident_iff hfin).2 hmem)).resolve_left hot
  refine ⟨?_, fun q w hw => hf.others q w (resident_of_resident_evictedVersion hfin hw), ?_⟩
  · rw [resident_evictedVersion]
    split_ifs with hq
    · subst hq
      have hin := (resident_iff hfin).1 hf.resident
      rcases mem_cons.1 ((perm_cons_eraseIdx hget).mem_iff.1 hin) with heq | hin
      · exact absurd ⟨rfl, heq.symm⟩ hot
      · exact hin
    · exact hf.resident
  · intro r hr
    rcases mem_append.1 hr with hold | hnew
    · exact hf.evicted_from r hold
    · exact ⟨path, version, hor, mem_singleton.1 hnew, hkey⟩

/-- The eviction loop after a publication; what it leaves of it needs a clock that still
advances. -/
theorem evictOverBudget_fresh (hfi : fresh.residencyBytes ≤ maxSnapshotTotalBytes)
    (hco : Core fp published store) (hf : live → Fresh origin key fresh store evicted) :
    ∃ final evicted', store.evictOverBudget fp store.snapshotCount evicted =
        some (final, evicted') ∧ Core fp published final ∧
      final.totalBytes ≤ maxSnapshotTotalBytes ∧ (live → Fresh origin key fresh final evicted') := by
  obtain ⟨final, evicted', heq, hfin, hP, hb⟩ := evictOverBudget_spec
    (P := fun st ev => live → Fresh origin key fresh st ev)
    (fun st ev path versions index version hc hPst ho hfind hget hmin hl =>
      (hPst hl).evictedVersion hfi hc ho hfind hget hmin)
    store.snapshotCount store evicted hco hf le_rfl
  exact ⟨final, evicted', heq, hfin, hb, hP⟩

theorem removePathForEviction_fields (fp : Bytes → Fp)
    (hf : store.paths.find? path = some versions) :
    (store.removePathForEviction fp path).1.paths = store.paths.erase path ∧
      (store.removePathForEviction fp path).1.clock = store.clock ∧
      (store.removePathForEviction fp path).1.totalBytes ≤ store.totalBytes := by
  obtain ⟨history, heq⟩ := evictVersionOf_foldl_eq fp path versions
    { store with paths := store.paths.erase path }
  rw [removePathForEviction_eq hf, heq]
  exact ⟨rfl, rfl, Nat.sub_le _ _⟩

/-! ## Making room -/

variable (h : Core fp published store)
include h

theorem Room.removePath
    (hf : store.paths.find? path = some versions) (hne : path ≠ key) (ck : String × Bytes) :
    Room fp published key ck store (store.removePathForEviction fp path).1
      (store.removePathForEviction fp path).2 := by
  obtain ⟨hp, hc, ht⟩ := removePathForEviction_fields fp hf
  refine ⟨h.removePath hf, hc, ht, fun q w hw => ?_, fun r hr => ?_⟩
  · by_cases hq : q = path
    · subst hq
      exact absurd hw (not_resident (by rw [hp]; exact store.paths.find?_erase_self q) w)
    · exact (resident_congr (by rw [hp]; exact store.paths.find?_erase_of_ne hq)).1 hw
  · rw [removePathForEviction_eq hf] at hr
    obtain ⟨v, hv, rfl⟩ := mem_map.1 hr
    exact ⟨path, v, ⟨versions, hf, hv⟩, rfl, fun hq => absurd hq hne⟩

section

variable (key : PathBuf) (ck : String × Bytes)

theorem makeRoomForPath_spec :
    Room fp published key ck store (store.makeRoomForPath fp key).1
        (store.makeRoomForPath fp key).2 ∧
      (store.makeRoomForPath fp key).1.paths.find? key = store.paths.find? key ∧
      (store.paths.find? key = none →
        (store.makeRoomForPath fp key).1.paths.size < maxSnapshotPaths) := by
  unfold makeRoomForPath
  split_ifs with hf
  · cases hl : store.leastRecentPath with
    | none =>
      refine ⟨Room.refl h ck, rfl, fun _ => ?_⟩
      have := leastRecentPath_eq_none hl
      rw [this]
      exact Nat.succ_pos _
    | some oldest =>
      obtain ⟨versions, hfi⟩ := leastRecentPath_eq_some hl
      have hne : oldest ≠ key := by
        rintro rfl
        rw [hf.1] at hfi
        exact absurd hfi (by simp)
      obtain ⟨hp, -, -⟩ := removePathForEviction_fields fp hfi
      refine ⟨Room.removePath h hfi hne ck, ?_, fun _ => ?_⟩
      · show (store.removePathForEviction fp oldest).1.paths.find? key = _
        rw [hp, store.paths.find?_erase_of_ne hne.symm]
      · show (store.removePathForEviction fp oldest).1.paths.size < _
        rw [hp]
        have := size_erase_of_some hfi
        have := h.path_cap
        omega
  · refine ⟨Room.refl h ck, rfl, fun hn => ?_⟩
    exact not_le.1 fun hge => hf ⟨hn, hge⟩

theorem makeRoomForVersion_spec
    (hck : ∀ versions, store.paths.find? key = some versions → ∀ v ∈ versions, v.contentKey ≠ ck) :
    ∃ store' evicted, store.makeRoomForVersion fp key = some (store', evicted) ∧
      Room fp published key ck store store' evicted ∧
      (store.paths.find? key = none → store' = store) ∧
      (∀ versions, store.paths.find? key = some versions → ∃ versions',
        store'.paths.find? key = some versions' ∧ versions'.length < maxVersionsPerPath) := by
  unfold makeRoomForVersion
  cases hf : store.paths.find? key with
  | none => exact ⟨store, [], rfl, Room.refl h ck, fun _ => rfl, by simp⟩
  | some versions =>
    have hp := h.path key versions hf
    simp only
    split_ifs with hfu
    · cases hold : oldestVersion versions with
      | none => exact absurd (oldestVersion_eq_none hold) hp.nonempty
      | some index =>
        obtain ⟨version, hget⟩ := oldestVersion_eq_some hold
        have hmem := mem_of_getElem? hget
        have hlen := length_of_getElem? hget
        have hcap := hp.cap
        have hne : versions.eraseIdx index ≠ [] := by
          intro hnil
          rw [hnil, length_nil] at hlen
          unfold maxVersionsPerPath at hfu
          omega
        refine ⟨_, _, by simp only [removeVersionForEviction_eq hf hget]; rfl, ?_, by simp, ?_⟩
        · refine ⟨h.removeVersion hf hget, ?_, ?_,
            fun q w hw => resident_of_resident_evictedVersion hf hw, fun r hr => ?_⟩
          · unfold evictedVersion
            rfl
          · unfold evictedVersion
            exact Nat.sub_le _ _
          · exact ⟨key, version, ⟨versions, hf, hmem⟩, mem_singleton.1 hr,
              fun _ => hck versions hf version hmem⟩
        · intro vs hvs
          refine ⟨versions.eraseIdx index, ?_, by omega⟩
          show (putVersions store.paths key (versions.eraseIdx index)).find? key = _
          rw [putVersions_of_ne_nil _ _ hne, find?_insert_self]
    · refine ⟨store, [], rfl, Room.refl h ck, by simp, fun vs hvs => ?_⟩
      exact ⟨versions, hf, not_le.1 hfu⟩

/-- Both steps that make room for a version with a new tag or content. -/
theorem makeRoom_spec (hnew : ∀ v, store.Resident key v → v.contentKey ≠ ck) :
    ∃ room evicted, (store.makeRoomForPath fp key).1.makeRoomForVersion fp key =
        some (room, evicted) ∧
      Room fp published key ck store room ((store.makeRoomForPath fp key).2 ++ evicted) ∧
      ((room.paths.find? key).getD []).length < maxVersionsPerPath ∧
      (room.paths.find? key = none → room.paths.size < maxSnapshotPaths) := by
  obtain ⟨hro, hk, hs⟩ := makeRoomForPath_spec h key ck
  obtain ⟨room, evicted, heq, hr', hn, hso⟩ := makeRoomForVersion_spec hro.core key ck
    fun versions hf v hv => hnew v (hro.resident key v ⟨versions, hf, hv⟩)
  refine ⟨room, evicted, heq, ⟨hr'.core, hr'.clock_eq.trans hro.clock_eq,
    hr'.total_le.trans hro.total_le,
    fun q w hw => hro.resident q w (hr'.resident q w hw), fun r hr => ?_⟩, ?_, fun hg => ?_⟩
  · rcases mem_append.1 hr with hr | hr
    · exact hro.evicted_from r hr
    · obtain ⟨q, w, hw, hre⟩ := hr'.evicted_from r hr
      exact ⟨q, w, hro.resident q w hw, hre⟩
  · cases hf : (store.makeRoomForPath fp key).1.paths.find? key with
    | none =>
      rw [hn hf, hf]
      exact Nat.succ_pos _
    | some versions =>
      obtain ⟨versions', hf', hlt⟩ := hso versions hf
      rw [hf']
      exact hlt
  · cases hf : (store.makeRoomForPath fp key).1.paths.find? key with
    | none =>
      rw [hn hf]
      exact hs (hk ▸ hf)
    | some versions =>
      obtain ⟨versions', hf', -⟩ := hso versions hf
      rw [hg] at hf'
      exact absurd hf' (by simp)

end

/-! ## Publication -/

variable (hb : store.totalBytes ≤ maxSnapshotTotalBytes)
include hb

section

variable (hli : live → ∀ q w, store.Resident q w → w.lastUsed < store.clock)
  (hmem : (key, snapshot) ∈ published)
include hli hmem

theorem publishCoalesced_spec
    (hfi : store.paths.find? key = some versions) (hget : versions[index]? = some version)
    (hkey : version.contentKey = (foldTag snapshot.tag, snapshot.normalizedBytes))
    (hfit : satAdd (mergeSnapshotEvidence version.snapshot (stripped snapshot)).residencyBytes
      snapshot.normalizedBytes.length ≤ maxSnapshotTotalBytes) :
    ∃ final evicted, store.publishCoalesced fp key index
        (mergeSnapshotEvidence version.snapshot (stripped snapshot)) (stripped snapshot)
        snapshot.normalizedBytes = some (final, ⟨.stored, some (stripped snapshot), evicted⟩) ∧
      Published fp published live store key snapshot final evicted := by
  have hby : version.normalizedBytes = snapshot.normalizedBytes := congrArg Prod.snd hkey
  have hp := h.path key versions hfi
  generalize hnew : refreshed version (mergeSnapshotEvidence version.snapshot (stripped snapshot))
    store.clock = new
  have hs : new.contentKey = version.contentKey := by rw [← hnew]; rfl
  have hok : VersionOk published store.clock key new :=
    hnew ▸ versionOk_refreshed (hp.version version (mem_of_getElem? hget)) hmem hkey
  have hf' : new.residencyBytes ≤ maxSnapshotTotalBytes := by
    rw [← hnew]
    show satAdd _ version.normalizedBytes.length ≤ _
    rwa [hby]
  generalize hr : store.removeHistory (.new key snapshot.tag) (fp snapshot.normalizedBytes) =
    removed
  have hpa : removed.paths = store.paths := by rw [← hr]; rfl
  have hc : removed.clock = store.clock := by rw [← hr]; rfl
  have hco : Core fp published removed := hr ▸ h.removeHistory _ _
  rw [← hpa] at hfi
  rw [← hc] at hok hnew
  obtain ⟨final, evicted, heq, hfin, hle, hf⟩ := evictOverBudget_fresh hf'
    (hco.setVersion hfi hget (by rw [← hr]; exact hb) hs hok hf')
    fun hl => fresh_set removed hpa hp (hpa ▸ hfi) hget hs
      (fun q w hw => (hli hl q w hw).trans_eq (by rw [← hnew, ← hc]; rfl)) _
  refine ⟨final, evicted, ?_, hfin, hle, fun hl => ⟨new, hs.trans hkey, ?_, hf hl⟩⟩
  · have hre := refreshVersion_eq
      (mergeSnapshotEvidence version.snapshot (stripped snapshot)) hfi hget
    rw [hnew] at hre
    unfold publishCoalesced
    simp only [stripped_tag, hr, hre, Option.bind_eq_bind, Option.bind_some, heq]
    rfl
  · rw [← hnew]
    exact Finset.subset_union_right

theorem publishFresh_spec (hnew : ∀ v, store.Resident key v →
      v.contentKey ≠ (foldTag snapshot.tag, snapshot.normalizedBytes))
    (hfi : satAdd (stripped snapshot).residencyBytes snapshot.normalizedBytes.length ≤
      maxSnapshotTotalBytes) :
    ∃ final evicted, store.publishFresh fp key (stripped snapshot) snapshot.normalizedBytes
        (satAdd (stripped snapshot).residencyBytes snapshot.normalizedBytes.length) =
          some (final, ⟨.stored, some (stripped snapshot), evicted⟩) ∧
      Published fp published live store key snapshot final evicted := by
  obtain ⟨room, evictedVersion, heqR, hr, hcap, hs⟩ := makeRoom_spec h key _ hnew
  generalize hre : room.removeHistory (.new key snapshot.tag) (fp snapshot.normalizedBytes) =
    removed
  obtain ⟨new, hver⟩ : ∃ new : StoredSnapshot,
    ⟨stripped snapshot, snapshot.normalizedBytes, store.clock, store.clock⟩ = new := ⟨_, rfl⟩
  have hc : new.contentKey = (foldTag snapshot.tag, snapshot.normalizedBytes) := by
    rw [← hver]
    rfl
  have hby : satAdd (stripped snapshot).residencyBytes snapshot.normalizedBytes.length =
      new.residencyBytes := by
    rw [← hver]
    rfl
  have hcl : removed.clock = store.clock := by
    rw [← hre]
    exact hr.clock_eq
  have hco : Core fp published removed := hre ▸ hr.core.removeHistory _ _
  have hp : removed.paths = room.paths := by rw [← hre]; rfl
  have hres : ∀ q w, removed.Resident q w → store.Resident q w := fun q w hw =>
    hr.resident q w ((resident_congr (by rw [hp])).1 hw)
  rw [← hc] at hnew
  rw [hby] at hfi ⊢
  have hpu : Core fp published (removed.pushVersion key new new.residencyBytes) := by
    refine hco.push (hp ▸ hcap) (hp ▸ hs)
      (fun v hv => hnew v (hres key v (resident_of_mem_getD hv))) ?_ ?_ hfi ?_
    · rw [hcl, ← hver]
      exact ⟨⟨snapshot, hmem, rfl, rfl⟩, fun _ he => ⟨snapshot, ⟨hmem, rfl, rfl⟩, he⟩,
        fun _ hr => ⟨snapshot, ⟨hmem, rfl, rfl⟩, hr⟩, le_rfl, le_rfl⟩
    · rw [← hre]
      exact hr.total_le.trans hb
    · rw [← hre, ← hver]
      exact fun hin => (mem_removeHistory.1 hin).2 rfl
  obtain ⟨final, evicted, heq, hfin, hle, hf⟩ := evictOverBudget_fresh hfi hpu
    fun hl => fresh_push hres hnew
      (fun q w hw => (hli hl q w hw).trans_eq (by rw [← hver])) (hc ▸ hr.evicted_from) _
  refine ⟨final, evicted, ?_, hfin, hle, fun hl => ⟨new, hc, ?_, hf hl⟩⟩
  · unfold publishFresh
    simp only [heqR, Option.bind_eq_bind, Option.bind_some, stripped_tag, hre, hver, heq]
    rfl
  · rw [← hver]
    exact Finset.Subset.refl _

end

/-- A publication is refused without effect, or leaves what `Published` says. -/
theorem publish_spec (canonicalize : PathBuf → Option PathBuf) (path : PathBuf)
    (snapshot : Snapshot) :
    (∃ retained, store.publish fp canonicalize path snapshot =
      some (store, ⟨.oversize retained maxSnapshotTotalBytes, none, []⟩)) ∨
    ∃ final evicted, store.publish fp canonicalize path snapshot =
        some (final, ⟨.stored, some (stripped snapshot), evicted⟩) ∧
      Published fp ((canonicalKey canonicalize path, snapshot) :: published)
        (store.clock < maxU64) store (canonicalKey canonicalize path) snapshot final evicted := by
  have hc := (h.mono
    (subset_cons_self (canonicalKey canonicalize path, snapshot) published)).bumpClock
  cases hco : (store.paths.find? (canonicalKey canonicalize path)).bind fun versions =>
      coalescedVersion versions (stripped snapshot) snapshot.normalizedBytes with
  | none =>
    simp only [publish, hco]
    split_ifs with ho
    · exact .inl ⟨_, rfl⟩
    · rw [not_or, not_lt, not_lt] at ho
      have hnew : ∀ v, store.Resident (canonicalKey canonicalize path) v →
          v.contentKey ≠ (foldTag snapshot.tag, snapshot.normalizedBytes) := by
        rintro v ⟨versions, hf, hv⟩
        rw [hf] at hco
        exact contentKey_ne_of_coalescedVersion_eq_none hco hv
      obtain ⟨final, evicted, heq, hpub⟩ := publishFresh_spec hc hb
        (lastUsed_lt_bumpClock h) mem_cons_self hnew ho.2
      exact .inr ⟨final, evicted, heq, hpub.of_bumpClock⟩
  | some c =>
    obtain ⟨versions, hf, hve⟩ := Option.bind_eq_some_iff.1 hco
    obtain ⟨version, hget, hkey, hm⟩ := coalescedVersion_eq_some hve
    simp only [publish, hco, Option.elim_some]
    split_ifs with ho
    · exact .inl ⟨_, rfl⟩
    · rw [not_or, not_lt, not_lt] at ho
      rw [hm] at ho ⊢
      obtain ⟨final, evicted, heq, hpub⟩ := publishCoalesced_spec hc hb
        (lastUsed_lt_bumpClock h) mem_cons_self hf hget hkey ho.2
      exact .inr ⟨final, evicted, heq, hpub.of_bumpClock⟩

end SnapshotStore

end Aft.Hashline
