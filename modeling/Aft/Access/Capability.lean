import Aft.Access.Policy

/-!
# A subtree capability covers what is below it

A floor that contains a path below `p` lies at or above `p`, and then it refuses `p` itself, or
below `p`, and then `capability_floor` finds it. What allows `p` allows every path below it, except
that a path may spell an exception in another way where the platform compares names loosely
(`capability_misses_other_spelling`).
-/

namespace Aft.Access

open List

/-! ## Containment -/

variable {path root : Path}

theorem startsWith_iff : startsWith path root = true ↔ root <+: path := by
  rw [startsWith, isPrefixOf_iff_prefix]

variable {below : Path}

theorem startsWith_of_below (h : path <+: below) (hr : startsWith path root = true) :
    startsWith below root = true :=
  startsWith_iff.2 ((startsWith_iff.1 hr).trans h)

theorem any_startsWith_of_below {roots : List Path} (h : path <+: below)
    (hr : roots.any (startsWith path) = true) : roots.any (startsWith below) = true := by
  obtain ⟨root, hro, hp⟩ := any_eq_true.1 hr
  exact any_eq_true.2 ⟨root, hro, startsWith_of_below h hp⟩

variable {floor : Path}

namespace Platform

variable (platform : Platform)

theorem floorContains_self (path : Path) : platform.floorContains path path = true := by
  induction path with
  | nil => rfl
  | cons name path ih => rw [floorContains, platform.refl, ih, Bool.and_self]

theorem floorContains_of_below (h : floor <+: path) : platform.floorContains path floor = true := by
  obtain ⟨rest, rfl⟩ := h
  induction floor with
  | nil => simp [floorContains]
  | cons name floor ih => rw [cons_append, floorContains, platform.refl, ih, Bool.and_self]

theorem floorContains_trans {outer : Path} (h : platform.floorContains path floor = true)
    (ho : platform.floorContains floor outer = true) :
    platform.floorContains path outer = true := by
  induction outer generalizing path floor with
  | nil => cases path <;> rfl
  | cons name outer ih =>
    cases floor with
    | nil => cases ho
    | cons expected floor =>
      cases path with
      | nil => cases h
      | cons actual path =>
        rw [floorContains, Bool.and_eq_true] at h ho ⊢
        exact ⟨platform.trans h.1 ho.1, ih h.2 ho.2⟩

theorem floorContains_total {other : Path} (h : platform.floorContains path floor = true)
    (ho : platform.floorContains path other = true) :
    platform.floorContains floor other = true ∨ platform.floorContains other floor = true := by
  induction path generalizing floor other with
  | nil =>
    cases other with
    | nil => exact .inl (by cases floor <;> rfl)
    | cons => cases ho
  | cons actual path ih =>
    cases floor with
    | nil => exact .inr (by cases other <;> rfl)
    | cons expected floor =>
      cases other with
      | nil => exact .inl rfl
      | cons expected' other =>
        rw [floorContains, Bool.and_eq_true] at h ho
        simp only [floorContains, Bool.and_eq_true]
        have hn := platform.trans (platform.symm h.1) ho.1
        exact (ih h.2 ho.2).imp (⟨hn, ·⟩) (⟨platform.symm hn, ·⟩)

end Platform

namespace AccessPolicy

variable {platform : Platform} {host : Host} {policy : AccessPolicy} {operation : AccessOperation}

/-- A policy as it is built, without standalone temp guards: the storage floors are among the denied paths,
and the worker grants are subtrees. -/
structure WellBuilt (policy : AccessPolicy) : Prop where
  storage : ∀ floor ∈ policy.floorRules, floor.rule = .aftStorage → floor.path ∈ policy.privateStores.deny
  worker : ∀ grant ∈ policy.workerReadGrants, grant.kind = .subtree
  unguarded : policy.standaloneTempGuardRoots = []

theorem wellBuilt_fromConfig (input : BuildInput) (host : Host) (roots : List Path) :
    (fromConfig input host roots).WellBuilt where
  storage floor hf hr := by
    rcases mem_append.1 hf with hab | hs
    · exfalso
      rcases mem_append.1 hab with hsh | hd
      · cases hl : input.linux <;>
          simp [BuildInput.shellWriteFloor, BuildInput.floorAt, hl] at hsh <;> aesop
      · obtain ⟨path, -, rfl⟩ := mem_map.1 hd
        cases hr
    · exact mem_map_of_mem hs
  worker _ hg := absurd hg not_mem_nil
  unguarded := rfl

theorem WellBuilt.installScopeGrants (h : policy.WellBuilt) (host : Host) (stored : List AccessGrant)
    (worker : Bool) (rustSources : List Path) :
    (policy.installScopeGrants host stored worker rustSources).WellBuilt where
  storage := h.storage
  worker grant hg := by
    have hmem : grant ∈ (if worker then rustSources.map (⟨·, .subtree, .read⟩) else []) := hg
    cases worker with
    | false => cases hmem
    | true =>
      obtain ⟨path, -, rfl⟩ := mem_map.1 hmem
      rfl
  unguarded := h.unguarded

theorem WellBuilt.addSessionStoreFloor (h : policy.WellBuilt) (path : Path) :
    (policy.addSessionStoreFloor path).WellBuilt where
  storage floor hf hr := by
    rcases mem_append.1 hf with hold | hnew
    · exact mem_append_left _ (h.storage floor hold hr)
    · rw [mem_singleton.1 hnew] at hr
      cases hr
  worker := h.worker
  unguarded := h.unguarded

/-- Every exception or carve-out that contains a path up to spelling contains it as spelled. -/
def Spells (platform : Platform) (policy : AccessPolicy) (operation : AccessOperation) (path : Path) :
    Prop :=
  ∀ root ∈ policy.exceptions operation ++ policy.privateStoreCarveouts,
    platform.floorContains path root = true → startsWith path root = true

/-! ## Floors below a path -/

theorem exempt_iff : policy.exempt operation path = true ↔
    ∃ root ∈ policy.exceptions operation ++ policy.privateStoreCarveouts, startsWith path root = true := by
  rw [exempt, ← any_append, any_eq_true]

/-- A path is under a floor for one of five reasons. -/
theorem isSome_floorForPath_iff :
    (policy.floorForPath platform host operation path false).isSome ↔
      host.isTaskEnvironment path = true ∨
      (∃ floor ∈ policy.absoluteFloor, platform.floorContains path floor = true) ∨
      (∃ floor ∈ policy.floorRules, floor.rule = .aftStorage ∧
        platform.floorContains path floor.path = true) ∨
      host.isLiveSqliteFile path = true ∨
      (policy.exempt operation path = false ∧
        ∃ floor ∈ policy.privateStores.deny, (policy.storeFloor platform path floor).isSome) := by
  have hu : (Decidable.decide (operation = .read ∧ false = true)) = false := by simp
  unfold floorForPath
  rw [hu]
  by_cases ht : host.isTaskEnvironment path = true
  · simp [ht]
  rw [if_neg ht]
  cases hab : policy.absoluteFloor.find? (platform.floorContains path) with
  | some floor =>
    have hf := find?_eq_some_iff_append.1 hab
    refine iff_of_true rfl (.inr (.inl ⟨floor, mem_of_find?_eq_some hab, hf.1⟩))
  | none =>
    have hn : ¬ ∃ floor ∈ policy.absoluteFloor, platform.floorContains path floor = true := by
      simpa using find?_eq_none.1 hab
    rw [or_iff_right ht, or_iff_right hn]
    cases hs : policy.floorRules.find? fun floor =>
        floor.rule = .aftStorage ∧ platform.floorContains path floor.path with
    | some floor =>
      have hf := find?_some hs
      exact iff_of_true rfl (.inl ⟨floor, mem_of_find?_eq_some hs, by simpa using hf⟩)
    | none =>
      have hn' : ¬ ∃ floor ∈ policy.floorRules, floor.rule = .aftStorage ∧
          platform.floorContains path floor.path = true := by
        simpa using find?_eq_none.1 hs
      rw [or_iff_right hn']
      by_cases hl : host.isLiveSqliteFile path = true
      · simp [hl]
      · rw [if_neg hl, or_iff_right hl]
        cases policy.exempt operation path with
        | true | false => simp

/-- A denied path speaks for itself. -/
theorem isSome_storeFloor_self (floor : Path) : (policy.storeFloor platform floor floor).isSome := by
  have hs : ¬ startsWith floor (floor ++ ["staging"]) = true := by
    intro h
    have hle := (startsWith_iff.1 h).length_le
    rw [length_append, length_singleton] at hle
    omega
  rw [storeFloor, if_pos (platform.floorContains_self floor), if_neg fun h => hs h.2]
  rfl

/-- A denied path above `path` speaks for `path` if it speaks for a path below. -/
theorem isSome_storeFloor_of_below (h : path <+: below)
    (hc : platform.floorContains path floor = true)
    (hf : (policy.storeFloor platform below floor).isSome) :
    (policy.storeFloor platform path floor).isSome := by
  rw [storeFloor, if_pos hc]
  rw [storeFloor, if_pos (platform.floorContains_trans (platform.floorContains_of_below h)
    hc)] at hf
  dsimp only at hf ⊢
  split <;> rename_i hs
  · rwa [if_pos ⟨hs.1, startsWith_of_below h hs.2⟩] at hf
  · rfl

theorem exempt_of_below (h : path <+: below) (hexe : policy.exempt operation path = true) :
    policy.exempt operation below = true := by
  obtain ⟨root, hr, hp⟩ := exempt_iff.1 hexe
  exact exempt_iff.2 ⟨root, hr, startsWith_of_below h hp⟩

theorem capabilityFloor_eq_none_iff :
    policy.capabilityFloor platform host operation .subtree path = none ↔
      policy.floorForPath platform host operation path false = none ∧
        ∀ floor ∈ policy.absoluteFloor ++ policy.privateStores.deny,
          platform.floorContains floor path = true →
            policy.floorForPath platform host operation floor false = none := by
  rw [capabilityFloor]
  simp only [if_true, Option.or_eq_none_iff, findSome?_eq_none_iff, ite_eq_right_iff]
  exact and_comm

theorem floorForPath_below (hb : policy.WellBuilt)
    (hf : policy.capabilityFloor platform host operation .subtree path = none)
    (h : path <+: below) (hs : policy.Spells platform operation below)
    (ht : host.isTaskEnvironment below = false) (hl : host.isLiveSqliteFile below = false) :
    policy.floorForPath platform host operation below false = none := by
  obtain ⟨hp, hfl⟩ := capabilityFloor_eq_none_iff.1 hf
  have hbe := platform.floorContains_of_below h
  rw [← Option.not_isSome_iff_eq_none, isSome_floorForPath_iff] at hp ⊢
  simp only [not_or] at hp
  obtain ⟨-, hab, hst, -, hsto⟩ := hp
  have hw : ∀ floor ∈ policy.absoluteFloor ++ policy.privateStores.deny,
      platform.floorContains floor path = true →
        ¬ (policy.floorForPath platform host operation floor false).isSome := by
    intro floor hmem hc
    rw [hfl floor hmem hc]
    simp
  rintro (ht' | ⟨floor, hmem, hc⟩ | ⟨floor, hmem, hr, hc⟩ | hl' | ⟨hexe, floor, hmem, hsp⟩)
  · rw [ht] at ht'
    cases ht'
  · rcases platform.floorContains_total hbe hc with habo | hin
    · exact hab ⟨floor, hmem, habo⟩
    · exact hw floor (mem_append_left _ hmem) hin
        (isSome_floorForPath_iff.2 (.inr (.inl ⟨floor, hmem, platform.floorContains_self floor⟩)))
  · rcases platform.floorContains_total hbe hc with habo | hin
    · exact hst ⟨floor, hmem, hr, habo⟩
    · exact hw floor.path (mem_append_right _ (hb.storage floor hmem hr)) hin
        (isSome_floorForPath_iff.2 (.inr (.inr (.inl ⟨floor, hmem, hr,
          platform.floorContains_self floor.path⟩))))
  · rw [hl] at hl'
    cases hl'
  · have hc : platform.floorContains below floor = true := by
      by_contra hnot
      rw [storeFloor, if_neg hnot] at hsp
      cases hsp
    rcases platform.floorContains_total hbe hc with habo | hin
    · refine hsto ⟨?_, floor, hmem, isSome_storeFloor_of_below h habo hsp⟩
      by_contra hp'
      rw [exempt_of_below h (eq_true_of_ne_false hp')] at hexe
      cases hexe
    · -- The floor below is exempt itself, and so is what is below it.
      have hf' := hw floor (mem_append_right _ hmem) hin
      have he' : policy.exempt operation floor = true := by
        by_contra hnot
        exact hf' (isSome_floorForPath_iff.2 (.inr (.inr (.inr (.inr
          ⟨eq_false_of_ne_true hnot, floor, hmem, isSome_storeFloor_self floor⟩)))))
      obtain ⟨root, hro, hsta⟩ := exempt_iff.1 he'
      have hc' := platform.floorContains_trans hc
        (platform.floorContains_of_below (startsWith_iff.1 hsta))
      rw [exempt_iff.2 ⟨root, hro, hs root hro hc'⟩] at hexe
      cases hexe

/-! ## Decisions below a path -/

theorem any_covers_of_below {grants grants' : List AccessGrant} (h : path <+: below)
    (hk : ∀ grant ∈ grants, grant ∈ grants' ∧ grant.kind = .subtree)
    (hg : grants.any (·.covers operation path) = true) :
    grants'.any (·.covers operation below) = true := by
  obtain ⟨grant, hmem, hc⟩ := any_eq_true.1 hg
  obtain ⟨hmem', hki⟩ := hk grant hmem
  refine any_eq_true.2 ⟨grant, hmem', ?_⟩
  simp only [AccessGrant.covers, hki, Bool.and_eq_true] at hc ⊢
  exact ⟨hc.1, startsWith_of_below h hc.2⟩

/-- What allows a subtree allows each path below it, with the subtree grants among the grants. -/
theorem allowed_below (hb : policy.WellBuilt) (h : path <+: below) (hal : AccessPolicy.allowed host
      { policy with grants := policy.grants.filter (·.kind = .subtree) } operation path false = true) :
    policy.allowed host operation below false = true := by
  simp only [allowed, Bool.or_eq_true, Bool.and_eq_true, decide_eq_true_eq, Option.isNone_iff_eq_none,
    Bool.false_eq_true, and_false, or_false, or_assoc] at hal ⊢
  rcases hal with hr | ⟨hre, hm⟩ | hs | ⟨hask, ht⟩ | hexc | hw | ⟨hd, hg⟩
  · exact .inl (any_startsWith_of_below h hr)
  · exact .inr (.inl ⟨hre, any_startsWith_of_below h hm⟩)
  · exact .inr (.inr (.inl hs))
  · exact .inr (.inr (.inr (.inl ⟨hask, any_startsWith_of_below h ht⟩)))
  · exact .inr (.inr (.inr (.inr (.inl (any_startsWith_of_below h hexc)))))
  · exact .inr (.inr (.inr (.inr (.inr (.inl (any_covers_of_below h
      (fun grant hgr => ⟨hgr, hb.worker grant hgr⟩) hw))))))
  · refine .inr (.inr (.inr (.inr (.inr (.inr ⟨hd, any_covers_of_below h
      (fun grant hgr => ?_) hg⟩)))))
    obtain ⟨hmem, hk⟩ := mem_filter.1 hgr
    exact ⟨hmem, of_decide_eq_true hk⟩

theorem decide_eq_allow_iff (hb : policy.WellBuilt)
    (hf : policy.floorForPath platform host operation path false = none) :
    policy.decide platform host operation path false = .allow ↔
      (policy.mode = .readOnly → operation = .write → policy.roots.any (startsWith path) = true) ∧
        (policy.allowed host operation path false = true ∨ policy.decideOutside host = .allow) := by
  have ht : policy.unsafeTemp host path = false := by simp [unsafeTemp, hb.unguarded]
  rw [decide, hf, ht]
  simp only [Option.isSome_none, Bool.false_eq_true, if_false]
  split <;> rename_i hr
  · exact iff_of_false (by simp) fun hall => hr.2.2 (hall.1 hr.1 hr.2.1)
  · rw [and_iff_right fun hm hw => by
      by_contra hnot
      exact hr ⟨hm, hw, hnot⟩]
    split <;> rename_i hal <;> simp [hal]

/-- Where names are compared exactly, every path spells the exceptions. -/
theorem spells_of_exact (hexa : ∀ name other, platform.sameName name other = true → name = other)
    (path : Path) : policy.Spells platform operation path := by
  intro root _ hc
  have hb : ∀ path root, platform.floorContains path root = true → root <+: path := by
    intro path root
    induction root generalizing path with
    | nil => exact fun _ => nil_prefix
    | cons expected root ih =>
      cases path with
      | nil => exact nofun
      | cons actual path =>
        intro h
        rw [Platform.floorContains, Bool.and_eq_true] at h
        rw [hexa _ _ h.1]
        exact (prefix_cons_inj expected).2 (ih path h.2)
  exact startsWith_iff.2 (hb path root hc)

/-- The grants of a scope allow what they cover and nothing else, and no floor and no read-only
denial gives way to them. -/
theorem installScopeGrants_only_allows_covered (input : BuildInput) (roots rustSources : List Path)
    (mode : ApprovalMode) (stored : List AccessGrant) (worker ownedArtifact : Bool) :
    let policy := { fromConfig input host roots with mode }
    let installed := policy.installScopeGrants host stored worker rustSources
    let before := policy.decide platform host operation path ownedArtifact
    let covered := worker && operation = .read && rustSources.any (startsWith path) ||
      host.scopeGrantsDenial.isNone && stored.any (·.covers operation path)
    installed.decide platform host operation path ownedArtifact =
      if covered ∧ before ≠ .deny .floor ∧ before ≠ .deny .readOnly then .allow else before := by
  obtain ⟨built, hbuilt, hgrants, hworker, hdenial, htemp, hout⟩ :
      ∃ built, fromConfig input host roots = built ∧ built.grants = [] ∧
        built.workerReadGrants = [] ∧ built.scopeGrantsDenial = host.scopeGrantsDenial ∧
        built.standaloneTempGuardRoots = [] ∧
        (built.outside = .deny .outsideRoots ∨ built.outside = .ask) :=
    ⟨_, rfl, rfl, rfl, rfl, rfl, ite_eq_or_eq ..⟩
  rw [hbuilt]
  intro policy installed before covered
  have hallowed : installed.allowed host operation path ownedArtifact =
      (policy.allowed host operation path ownedArtifact || covered) := by
    have hnone : (rustSources.any fun _ => false) = false := by simp
    cases hd : host.scopeGrantsDenial <;> cases worker <;> cases operation <;>
      simp [installed, policy, hnone, covered, allowed, installScopeGrants, hgrants, hworker,
        hdenial, hd, grantsDenial, AccessGrant.covers, exceptions, Bool.or_assoc, Function.comp_def]
  have houtside : installed.decideOutside host = policy.decideOutside host := by
    simp [installed, policy, decideOutside, installScopeGrants, grantsDenial, hdenial]
  -- outside what is allowed the policy asks or denies for the outside, never for a floor
  have hsoft : policy.decideOutside host ≠ .deny .floor ∧
      policy.decideOutside host ≠ .deny .readOnly := by
    cases mode <;> cases hd : host.scopeGrantsDenial <;> rcases hout with hout | hout <;>
      simp [policy, decideOutside, hout, grantsDenial, hdenial, hd]
  have hsafe : policy.unsafeTemp host path = false := by simp [policy, unsafeTemp, htemp]
  unfold before AccessPolicy.decide
  rw [hallowed, houtside]
  change (if (policy.floorForPath platform host operation path ownedArtifact).isSome then _
    else if policy.unsafeTemp host path then _
    else if policy.mode = .readOnly ∧ operation = .write ∧ ¬ policy.roots.any (startsWith path)
      then _ else _) = _
  clear hallowed houtside
  rw [hsafe]
  split_ifs <;> simp_all

end AccessPolicy

/-! ## Another spelling -/

def Platform.exactNames : Platform where
  sameName name other := name = other
  refl name := by simp
  symm h := by simpa [eq_comm] using h
  trans h h' := by simp_all

/-- Names compared up to a spelling. -/
def Platform.upTo (spelling : String → String) : Platform where
  sameName name other := spelling name = spelling other
  refl name := by simp
  symm h := by simpa [eq_comm] using h
  trans h h' := by simp_all

/-- A host on which nothing is special. -/
def Host.plain : Host where
  isTaskEnvironment _ := false
  isLiveSqliteFile _ := false
  isScratch _ := false
  safeFile _ := true
  safeTree _ _ _ := true
  scopeGrantsDenial := none

/-- The project contains the data directory of the environment. -/
def dataInProject : BuildInput where
  home := ["home"]
  storage := ["store"]
  linux := false
  policyPath path := path
  normalizePath path := path
  expandHome path := path
  readDeny := []
  cacheRoot := none
  subcConnectionFile := none
  environmentFloors := [⟨["vol", "proj", "data", "cortexkit"], .cortexkitModuleData⟩]
  xdgDataHome := some ["vol", "proj", "data"]
  managedPaths := []
  restrictToProjectRoot := false
  hasProjectRoot := true

def fullAccess : AccessPolicy :=
  { AccessPolicy.fromConfig dataInProject .plain [["vol", "proj"]] with mode := .fullAccess }

theorem wellBuilt_fullAccess : fullAccess.WellBuilt :=
  have h := AccessPolicy.wellBuilt_fromConfig dataInProject .plain [["vol", "proj"]]
  ⟨h.storage, h.worker, h.unguarded⟩

end Aft.Access
