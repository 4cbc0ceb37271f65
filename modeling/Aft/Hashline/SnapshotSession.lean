import Aft.Hashline.SnapshotPublish

/-!
# Runs of the snapshot store

A session calls `publish`, `lookup`, `invalidate_path` and `clear` in any order, each with its own
view of the file system. On the run lemma `run_good` rest the representation invariant
(`run_representation`), that a lookup never mixes contents (`lookup_single_content`), and that a
publication is durable (`publish_durable`).
-/

namespace Aft.Hashline

open List StoredSnapshot SortedMap

open SnapshotStore

/-! ## What a lookup does -/

namespace SnapshotStore

variable {Fp : Type} {fp : Bytes → Fp} {published : List (PathBuf × Snapshot)}
  {store : SnapshotStore Fp} {key : PathBuf} {versions : List StoredSnapshot}

theorem mem_touchVersions {indices : List ℕ} {now : ℕ} {v : StoredSnapshot}
    (h : v ∈ touchVersions versions indices now) :
    ∃ w ∈ versions, v = w ∨ v = { w with lastUsed := now } := by
  unfold touchVersions at h
  obtain ⟨i, hi, rfl⟩ := mem_mapIdx.1 h
  refine ⟨versions[i], getElem_mem _, ?_⟩
  split_ifs
  · exact Or.inr rfl
  · exact Or.inl rfl

theorem map_touchVersions {β : Type} (f : StoredSnapshot → β)
    (hf : ∀ w now, f { w with lastUsed := now } = f w) (versions : List StoredSnapshot)
    (indices : List ℕ) (now : ℕ) : (touchVersions versions indices now).map f = versions.map f := by
  unfold touchVersions
  refine ext_getElem (by simp) fun i h₁ h₂ => ?_
  rw [getElem_map, getElem_map, getElem_mapIdx]
  split_ifs
  · exact hf _ _
  · rfl

theorem PathOk.touch {clock : ℕ} (indices : List ℕ) (h : PathOk published clock key versions) :
    PathOk published clock key (touchVersions versions indices clock) where
  nonempty hnil := h.nonempty (by simpa [touchVersions] using hnil)
  cap := by
    have hlen := congrArg List.length (map_touchVersions contentKey
      (fun _ _ => rfl) versions indices clock)
    rw [length_map, length_map] at hlen
    exact hlen ▸ h.cap
  distinct := by
    rw [map_touchVersions contentKey (fun _ _ => rfl)]
    exact h.distinct
  version v hv := by
    obtain ⟨w, hw, rfl | rfl⟩ := mem_touchVersions hv
    · exact h.version _ hw
    · have hok := h.version w hw
      exact ⟨hok.backed, hok.records_backed, hok.seen_backed, hok.publishedAt_le, le_rfl⟩

theorem Core.touch (h : Core fp published store) (hf : store.paths.find? key = some versions)
    (indices : List ℕ) :
    Core fp published { store with
      paths := store.paths.insert key (touchVersions versions indices store.clock) } := by
  have hp := h.path key versions hf
  have ht := PathOk.touch indices hp
  have hb : versionsBytes (touchVersions versions indices store.clock) =
      versionsBytes versions := by
    unfold versionsBytes
    rw [map_touchVersions residencyBytes (fun _ _ => rfl)]
  have hc := h.withVersions (fun _ => ht)
    ((size_putVersions_le _ hf).trans h.path_cap) (hb ▸ h.totalBytes_eq hf)
    fun hfp v hv => by
      obtain ⟨w, hw, hvw⟩ := mem_touchVersions hv
      have hnot := h.history.disjoint hfp key w ((resident_iff hf).2 hw)
      rcases hvw with rfl | rfl <;> exact hnot
  unfold SnapshotStore.withVersions at hc
  rwa [putVersions_of_ne_nil _ _ ht.nonempty] at hc

/-- The decision that a lookup result stands for. -/
def decision : Except SnapshotLookupError Snapshot → SnapshotLookup
  | .ok snapshot => .found snapshot
  | .error .unknownTag => .unknown
  | .error .evictedTag => .evicted
  | .error .ambiguousTag => .ambiguous

theorem map_fst_filter_zipIdx (versions : List StoredSnapshot) (p : StoredSnapshot → Bool) :
    (versions.zipIdx.filter fun c => p c.1).map Prod.fst = versions.filter p := by
  have hmap := filter_map (p := p) (f := Prod.fst) (l := versions.zipIdx)
  rw [zipIdx_map_fst] at hmap
  exact hmap.symm

theorem decision_missingTag (folded : String) :
    decision (.error (store.missingTag key folded)) =
      if store.historyContains key folded then .evicted else .unknown := by
  unfold missingTag
  split_ifs <;> rfl

variable [DecidableEq Fp] (canonicalize : PathBuf → Option PathBuf) (path : PathBuf) (tag : String)

/-- A lookup is refused without effect, or resolved to a version whose content is the only one
resident or evicted under its tag. -/
theorem lookup_cases :
    (∃ e, store.lookup fp canonicalize path tag = (.error e, store)) ∨
    ∃ versions first indices,
      store.paths.find? (canonicalKey canonicalize path) = some versions ∧ first ∈ versions ∧
      foldTag first.snapshot.tag = foldTag tag ∧
      (∀ v ∈ versions, foldTag v.snapshot.tag = foldTag tag →
        v.normalizedBytes = first.normalizedBytes) ∧
      (∀ h ∈ store.evictionHistory, h.record = ⟨canonicalKey canonicalize path, foldTag tag⟩ →
        h.contentFingerprint = fp first.normalizedBytes) ∧
      store.lookup fp canonicalize path tag = (.ok first.snapshot, { store.bumpClock with
        paths := store.bumpClock.paths.insert (canonicalKey canonicalize path)
          (touchVersions versions indices store.bumpClock.clock) }) := by
  unfold lookup
  simp only
  cases hf : store.paths.find? (canonicalKey canonicalize path) with
  | none => exact .inl ⟨_, rfl⟩
  | some versions =>
    simp only
    cases hca : versions.zipIdx.filter fun c => foldTag c.1.snapshot.tag = foldTag tag with
    | nil => exact .inl ⟨_, rfl⟩
    | cons first others =>
      simp only
      split_ifs with ham hev
      · exact .inl ⟨_, rfl⟩
      · exact .inl ⟨_, rfl⟩
      · have hmem : ∀ c ∈ first :: others,
            c.1 ∈ versions ∧ foldTag c.1.snapshot.tag = foldTag tag := by
          intro c hc
          rw [← hca] at hc
          obtain ⟨hin, htag⟩ := mem_filter.1 hc
          exact ⟨fst_mem_of_mem_zipIdx hin, by simpa using htag⟩
        refine .inr ⟨versions, first.1, _, rfl, (hmem first mem_cons_self).1,
          (hmem first mem_cons_self).2, fun v hv htag => ?_, fun h hh hrec => ?_, rfl⟩
        · obtain ⟨i, hi⟩ := mem_iff_getElem?.1 hv
          have hin : (v, i) ∈ first :: others := by
            rw [← hca]
            exact mem_filter.2 ⟨mem_zipIdx_iff_getElem?.2 hi, by simpa using htag⟩
          rcases mem_cons.1 hin with rfl | hin
          · rfl
          · by_contra hne
            exact ham (any_eq_true.2 ⟨(v, i), hin, by simpa using hne⟩)
        · by_contra hne
          refine hev (any_eq_true.2 ⟨h, hh, ?_⟩)
          simp [hrec, hne]

/-- `lookup` and `lookup_state` decide alike. -/
theorem decision_lookup :
    decision (store.lookup fp canonicalize path tag).1 =
      store.lookupState fp canonicalize path tag := by
  unfold lookup lookupState
  simp only
  cases hf : store.paths.find? (canonicalKey canonicalize path) with
  | none => exact decision_missingTag _
  | some versions =>
    simp only
    rw [← map_fst_filter_zipIdx versions]
    cases hc : versions.zipIdx.filter fun c => foldTag c.1.snapshot.tag = foldTag tag with
    | nil => exact decision_missingTag _
    | cons first others =>
      simp only [map_cons, any_map, Function.comp_def]
      split_ifs <;> rfl

end SnapshotStore

/-! ## Sessions -/

/-- One call on the store; `canonicalize` is what the file system answers during the call. -/
inductive StoreCall where
  | publish (canonicalize : PathBuf → Option PathBuf) (path : PathBuf) (snapshot : Snapshot)
  | lookup (canonicalize : PathBuf → Option PathBuf) (path : PathBuf) (tag : String)
  | invalidatePath (canonicalize : PathBuf → Option PathBuf) (path : PathBuf)
  | clear

/-- A store, with the publications that succeeded so far, the latest first. -/
structure Session (Fp : Type) where
  store : SnapshotStore Fp
  published : List (PathBuf × Snapshot)

variable {Fp : Type}

/-- What holds of every session that a run reaches. -/
structure Session.Good (fp : Bytes → Fp) (session : Session Fp) : Prop where
  core : Core fp session.published session.store
  budget : session.store.totalBytes ≤ maxSnapshotTotalBytes

variable {session : Session Fp} {fp : Bytes → Fp}

theorem Session.Good.invalidatePath (h : session.Good fp) (canonicalize : PathBuf → Option PathBuf)
    (path : PathBuf) :
    Session.Good fp { session with
      store := (session.store.invalidatePath canonicalize path).1 } := by
  unfold SnapshotStore.invalidatePath
  simp only
  cases hf : session.store.paths.find? (canonicalKey canonicalize path) with
  | none => exact h
  | some versions =>
    have ht := h.core.totalBytes_eq hf
    have hc : Core fp session.published (session.store.withVersions
        (canonicalKey canonicalize path) []
        (session.store.totalBytes - versionsBytes versions)) := by
      refine h.core.withVersions (fun hne => absurd rfl hne)
        ((size_putVersions_le _ hf).trans h.core.path_cap) ?_
        fun _ v hv => absurd hv not_mem_nil
      rw [ht]
      simp [versionsBytes]
    exact ⟨hc, (Nat.sub_le _ _).trans h.budget⟩

/-! ## The representation invariant -/

/-- The accounting and the bounds of a store. -/
structure SnapshotStore.Representation (store : SnapshotStore Fp) : Prop where
  total_bytes : store.totalBytes =
    (store.paths.entries.map fun e => (e.2.map StoredSnapshot.residencyBytes).sum).sum
  total_bytes_le : store.totalBytes ≤ maxSnapshotTotalBytes
  paths_le : store.paths.entries.length ≤ maxSnapshotPaths
  versions_nonempty : ∀ e ∈ store.paths.entries, e.2 ≠ []
  versions_le : ∀ e ∈ store.paths.entries, e.2.length ≤ maxVersionsPerPath
  versions_distinct : ∀ e ∈ store.paths.entries, e.2.Pairwise fun v w =>
    ¬ (foldTag v.snapshot.tag = foldTag w.snapshot.tag ∧ v.normalizedBytes = w.normalizedBytes)
  history_le : store.evictionHistory.length ≤ maxEvictionRecords
  history_distinct : store.evictionHistory.Pairwise fun a b =>
    ¬ (a.record.canonicalPath = b.record.canonicalPath ∧ a.record.tag = b.record.tag ∧
      a.contentFingerprint = b.contentFingerprint)

def SnapshotStore.ResidentNotEvicted (fp : Bytes → Fp) (store : SnapshotStore Fp) : Prop :=
  ∀ e ∈ store.paths.entries, ∀ v ∈ e.2, ∀ h ∈ store.evictionHistory,
    ¬ (h.record.canonicalPath = e.1 ∧ h.record.tag = foldTag v.snapshot.tag ∧
      h.contentFingerprint = fp v.normalizedBytes)

theorem Session.Good.representation (h : session.Good fp) : session.store.Representation where
  total_bytes := by
    have ht := h.core.total
    unfold residentBytes sumValues values at ht
    rwa [map_map] at ht
  total_bytes_le := h.budget
  paths_le := h.core.path_cap
  versions_nonempty e he := (h.core.path e.1 e.2 (find?_eq_some_iff.2 he)).nonempty
  versions_le e he := (h.core.path e.1 e.2 (find?_eq_some_iff.2 he)).cap
  versions_distinct e he := by
    have hd := (h.core.path e.1 e.2 (find?_eq_some_iff.2 he)).distinct
    refine (pairwise_map.1 hd).imp fun hne hs => hne ?_
    exact Prod.ext hs.1 hs.2
  history_le := h.core.history.cap
  history_distinct := by
    refine h.core.history.nodup.imp fun {a b} hne hs => hne ?_
    obtain ⟨⟨pa, ta⟩, fa⟩ := a
    obtain ⟨⟨pb, tb⟩, fb⟩ := b
    obtain ⟨rfl, rfl, rfl⟩ := hs
    rfl

theorem Session.Good.residentNotEvicted (h : session.Good fp)
    (hfp : Set.InjOn fp (contents session.published)) : session.store.ResidentNotEvicted fp := by
  intro e he v hv entry hen
  obtain ⟨⟨path, tag⟩, fingerprint⟩ := entry
  rintro ⟨rfl, rfl, rfl⟩
  exact h.core.history.disjoint hfp e.1 v ⟨e.2, find?_eq_some_iff.2 he, hv⟩ hen

/-! ## Runs -/

variable [DecidableEq Fp]

def Session.call (fp : Bytes → Fp) (session : Session Fp) : StoreCall → Option (Session Fp)
  | .publish canonicalize path snapshot => do
    let (store, outcome) ← session.store.publish fp canonicalize path snapshot
    return ⟨store, if outcome.status = .stored then
      (canonicalKey canonicalize path, snapshot) :: session.published else session.published⟩
  | .lookup canonicalize path tag =>
    some { session with store := (session.store.lookup fp canonicalize path tag).2 }
  | .invalidatePath canonicalize path =>
    some { session with store := (session.store.invalidatePath canonicalize path).1 }
  | .clear => some { session with store := session.store.clear }

/-- Execute calls from the empty store; `none` would be a panic. -/
def run (fp : Bytes → Fp) (calls : List StoreCall) : Option (Session Fp) :=
  calls.foldlM (Session.call fp) ⟨.new, []⟩

def StoreCall.contents : StoreCall → Set Bytes
  | .publish _ _ snapshot => {snapshot.normalizedBytes}
  | _ => ∅

def callContents (calls : List StoreCall) : Set Bytes := {c | ∃ call ∈ calls, c ∈ call.contents}

theorem Session.Good.lookup (h : session.Good fp) (canonicalize : PathBuf → Option PathBuf)
    (path : PathBuf) (tag : String) :
    Session.Good fp { session with
      store := (session.store.lookup fp canonicalize path tag).2 } := by
  rcases session.store.lookup_cases canonicalize path tag with
    ⟨e, heq⟩ | ⟨versions, first, indices, hf, -, -, -, -, heq⟩
  · rw [heq]
    exact h
  · rw [heq]
    exact ⟨h.core.bumpClock.touch hf indices, h.budget⟩

theorem Session.Good.call (h : session.Good fp) (call : StoreCall) :
    ∃ next, session.call fp call = some next ∧ next.Good fp ∧
      contents next.published ⊆ contents session.published ∪ call.contents := by
  cases call with
  | publish canonicalize path snapshot =>
    rcases publish_spec h.core h.budget canonicalize path snapshot with
      ⟨retained, heq⟩ | ⟨final, evicted, heq, hpub⟩
    · refine ⟨session, ?_, h, Set.subset_union_left⟩
      simp [Session.call, heq]
    · refine ⟨⟨final, _⟩, ?_, ⟨hpub.core, hpub.budget⟩, ?_⟩
      · simp [Session.call, heq]
      · rintro c ⟨e, he, rfl⟩
        rcases mem_cons.1 he with rfl | he
        · exact .inr rfl
        · exact .inl ⟨e, he, rfl⟩
  | lookup canonicalize path tag =>
    exact ⟨_, rfl, h.lookup canonicalize path tag, Set.subset_union_left⟩
  | invalidatePath canonicalize path =>
    exact ⟨_, rfl, h.invalidatePath canonicalize path, Set.subset_union_left⟩
  | clear => exact ⟨_, rfl, ⟨h.core.clear, Nat.zero_le _⟩, Set.subset_union_left⟩

theorem Session.Good.calls (h : session.Good fp) (calls : List StoreCall) :
    ∃ final, calls.foldlM (Session.call fp) session = some final ∧
      final.Good fp ∧ contents final.published ⊆ contents session.published ∪ callContents calls := by
  induction calls generalizing session with
  | nil => exact ⟨session, rfl, h, Set.subset_union_left⟩
  | cons call rest ih =>
    obtain ⟨next, heq, hn, hsub⟩ := h.call call
    obtain ⟨final, heq', hf, hsub'⟩ := ih hn
    refine ⟨final, ?_, hf, fun c hc => ?_⟩
    · rw [foldlM_cons, heq]
      exact heq'
    · rcases hsub' hc with hc | ⟨later, hl, hc⟩
      · rcases hsub hc with hc | hc
        · exact .inl hc
        · exact .inr ⟨call, mem_cons_self, hc⟩
      · exact .inr ⟨later, mem_cons_of_mem _ hl, hc⟩

/-- Every run succeeds and ends in a good session that published only contents of its calls. -/
theorem run_good (fp : Bytes → Fp) (calls : List StoreCall) :
    ∃ session, run fp calls = some session ∧ session.Good fp ∧
      contents session.published ⊆ callContents calls := by
  have hnew : Session.Good fp ⟨.new, []⟩ := ⟨core_new, Nat.zero_le _⟩
  obtain ⟨session, heq, hg, hsub⟩ := hnew.calls calls
  refine ⟨session, heq, hg, fun c hc => ?_⟩
  rcases hsub hc with ⟨e, he, -⟩ | hc
  · exact absurd he not_mem_nil
  · exact hc

/-- Every run succeeds and ends in a store with the representation invariant; where the fingerprint
tells the contents apart, no resident version is in the history. -/
theorem run_representation (fp : Bytes → Fp) (calls : List StoreCall) :
    ∃ session, run fp calls = some session ∧ session.store.Representation ∧
      (Set.InjOn fp (callContents calls) → session.store.ResidentNotEvicted fp) := by
  obtain ⟨session, heq, hgood, hsub⟩ := run_good fp calls
  exact ⟨session, heq, hgood.representation, fun hfp => hgood.residentNotEvicted (hfp.mono hsub)⟩

/-! ## Lookup -/

/-- The publication `p` has the path, the tag and the fingerprint of a history entry. -/
def EvictionHistoryEntry.IsOf (fp : Bytes → Fp) (h : EvictionHistoryEntry Fp)
    (p : PathBuf × Snapshot) : Prop :=
  p.1 = h.record.canonicalPath ∧ foldTag p.2.tag = h.record.tag ∧
    fp p.2.normalizedBytes = h.contentFingerprint

/-- The evidence `s` for a tag belongs to one content: every record and seen row comes from its
publications, and nothing resident or evicted carries the tag with another one. -/
structure Session.ResolvesTo (fp : Bytes → Fp) (session : Session Fp) (key : PathBuf)
    (folded : String) (s : Snapshot) (content : Bytes) : Prop where
  records : ∀ e ∈ s.records.entries, ∃ p ∈ session.published, p.1 = key ∧
    foldTag p.2.tag = folded ∧ p.2.normalizedBytes = content ∧ e ∈ p.2.records.entries
  seen : ∀ row ∈ s.coverage.seenLines, ∃ p ∈ session.published, p.1 = key ∧
    foldTag p.2.tag = folded ∧ p.2.normalizedBytes = content ∧ row ∈ p.2.coverage.seenLines
  resident : ∀ v, session.store.Resident key v → foldTag v.snapshot.tag = folded →
    v.normalizedBytes = content
  history : ∀ h ∈ session.store.evictionHistory, h.record.canonicalPath = key →
    h.record.tag = folded → h.contentFingerprint = fp content

theorem Session.Good.resolvesTo (h : session.Good fp) {canonicalize : PathBuf → Option PathBuf}
    {path : PathBuf} {tag : String} {s : Snapshot}
    (hok : (session.store.lookup fp canonicalize path tag).1 = .ok s) :
    ∃ content ∈ contents session.published, session.ResolvesTo fp
      (canonicalKey canonicalize path) (foldTag tag) s content := by
  rcases session.store.lookup_cases canonicalize path tag with
    ⟨e, heq⟩ | ⟨versions, first, indices, hf, hfi, htag, hsa, hh, heq⟩
  · rw [heq] at hok
    exact absurd hok (by simp)
  · rw [heq, Except.ok.injEq] at hok
    subst hok
    have hve := (h.core.path _ versions hf).version first hfi
    obtain ⟨s, hs, -, hb⟩ := hve.backed
    refine ⟨first.normalizedBytes, ⟨_, hs, hb⟩, fun e he => ?_, fun row hrow => ?_,
      fun v hv hvt => hsa v ((resident_iff hf).1 hv) hvt, fun entry hen hp htag' =>
        hh entry hen ?_⟩
    · obtain ⟨s, ⟨hs, hst, hc⟩, hmem⟩ := hve.records_backed e he
      exact ⟨_, hs, rfl, hst.trans htag, hc, hmem⟩
    · obtain ⟨s, ⟨hs, hst, hc⟩, hmem⟩ := hve.seen_backed row hrow
      exact ⟨_, hs, rfl, hst.trans htag, hc, hmem⟩
    · rw [← hp, ← htag']

section

variable (fp : Bytes → Fp) (calls : List StoreCall) (canonicalize : PathBuf → Option PathBuf) (path : PathBuf)

/-- In every state a run reaches, `lookup` and `lookup_state` decide alike, and a lookup that
succeeds resolves to one content. Where the fingerprint tells the contents apart, the history
entries of that path and tag were made from it. -/
theorem lookup_single_content (tag : String) :
    ∃ session, run fp calls = some session ∧
      decision (session.store.lookup fp canonicalize path tag).1 =
        session.store.lookupState fp canonicalize path tag ∧
      ∀ s, (session.store.lookup fp canonicalize path tag).1 = .ok s →
        ∃ content, session.ResolvesTo fp (canonicalKey canonicalize path) (foldTag tag) s content ∧
          (Set.InjOn fp (callContents calls) → ∀ h ∈ session.store.evictionHistory,
            h.record.canonicalPath = canonicalKey canonicalize path → h.record.tag = foldTag tag →
            (∃ p ∈ session.published, h.IsOf fp p) ∧
            ∀ p ∈ session.published, h.IsOf fp p → p.2.normalizedBytes = content) := by
  obtain ⟨session, heq, hgood, hsub⟩ := run_good fp calls
  refine ⟨session, heq, decision_lookup canonicalize path tag, fun s hok => ?_⟩
  obtain ⟨content, hcontent, hresolves⟩ := hgood.resolvesTo hok
  refine ⟨content, hresolves, fun hfp entry hentry hpath htag => ⟨?_, fun p hp hof => ?_⟩⟩
  · obtain ⟨s', hs', hstag, hsfp⟩ := hgood.core.history.backed entry hentry
    exact ⟨_, hs', rfl, hstag, hsfp⟩
  · refine hfp (hsub ⟨p, hp, rfl⟩) (hsub hcontent) ?_
    exact hof.2.2.trans (hresolves.history entry hentry hpath htag)

/-! ## Publication -/

/-- In every state a run reaches, a publication leaves a resident version with its tag, content and
seen rows and evicts only other versions, or is refused and changes nothing. -/
theorem publish_durable (snapshot : Snapshot) :
    ∃ session store outcome, run fp calls = some session ∧
      session.store.publish fp canonicalize path snapshot = some (store, outcome) ∧
      (outcome.status = .stored → session.store.clock < maxU64 →
        ∃ v, store.Resident (canonicalKey canonicalize path) v ∧
          foldTag v.snapshot.tag = foldTag snapshot.tag ∧
          v.normalizedBytes = snapshot.normalizedBytes ∧
          snapshot.coverage.seenLines ⊆ v.snapshot.coverage.seenLines ∧
          ∀ r ∈ outcome.evicted, ∃ q w, session.store.Resident q w ∧
            r = .new q w.snapshot.tag ∧ ¬ (q = canonicalKey canonicalize path ∧
              foldTag w.snapshot.tag = foldTag snapshot.tag ∧
              w.normalizedBytes = snapshot.normalizedBytes)) ∧
      (∀ retained limit, outcome.status = .oversize retained limit → store = session.store) := by
  obtain ⟨session, heq, hgood, -⟩ := run_good fp calls
  rcases publish_spec hgood.core hgood.budget canonicalize path snapshot with
    ⟨retained, hpublish⟩ | ⟨final, evicted, hpublish, hpub⟩
  · exact ⟨session, _, _, heq, hpublish, fun h => absurd h (by simp), fun _ _ _ => rfl⟩
  · refine ⟨session, _, _, heq, hpublish, fun _ hclock => ?_, fun _ _ h => absurd h (by simp)⟩
    obtain ⟨f, hkey, hseen, hfresh⟩ := hpub.fresh hclock
    obtain ⟨htag, hbytes⟩ := Prod.mk.inj hkey
    refine ⟨f, hfresh.resident, htag, hbytes, hseen, fun r hr => ?_⟩
    obtain ⟨q, w, hw, hrec, hne⟩ := hfresh.evicted_from r hr
    refine ⟨q, w, hw, hrec, fun hsame => hne hsame.1 ?_⟩
    rw [hkey]
    exact Prod.ext hsame.2.1 hsame.2.2

end

/-- Publishing one of five contents at one path; the first and the last share the tag `4001`. -/
def collidingCall (text : String) : StoreCall :=
  .publish (fun _ => none) ["tmp", "a"] (scanBytes (asBytes text))

/-- The handle of a version just stored can be among the evicted: its tag collides with that of the
version the cap evicts. -/
theorem publish_evicts_colliding_handle :
    ¬ ∀ (calls : List StoreCall) (path : PathBuf) (snapshot : Snapshot) (session : Session Bytes)
      (store : SnapshotStore Bytes) (outcome : PublishOutcome), run id calls = some session →
      session.store.clock < maxU64 →
      session.store.publish id (fun _ => none) path snapshot = some (store, outcome) →
      outcome.status = .stored → EvictionRecord.new path snapshot.tag ∉ outcome.evicted := by
  intro h
  have heval : ((run id (["39\n", "1\n", "2\n", "3\n"].map collidingCall)).bind
      fun session => (session.store.publish id (fun _ => none) ["tmp", "a"]
        (scanBytes (asBytes "162\n"))).map fun r =>
          decide (session.store.clock < maxU64 ∧ r.2.status = .stored ∧
            EvictionRecord.new ["tmp", "a"] (scanBytes (asBytes "162\n")).tag ∈ r.2.evicted)) =
      some true := by decide
  obtain ⟨session, hrun, hmap⟩ := Option.bind_eq_some_iff.1 heval
  obtain ⟨⟨store, outcome⟩, hpublish, hdecide⟩ := Option.map_eq_some_iff.1 hmap
  obtain ⟨hclock, hstatus, hevicted⟩ := of_decide_eq_true hdecide
  exact h _ _ _ session store outcome hrun hclock hpublish hstatus hevicted

end Aft.Hashline
