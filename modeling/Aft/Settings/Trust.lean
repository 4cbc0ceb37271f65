import Aft.Lib.Result
import Aft.Settings.Resolve

/-!
# A project tier never loosens the user's configuration

`Tightens before after` says that the settings reserved for the user are equal and every restriction
of `before` still holds in `after`. Every project tier tightens (`tightens_mergeProjectConfig`), so
any number of them leaves the resolved user settings equal and the resolved restrictions at least as
strict.
-/

namespace Aft.Settings

open List Option ConfigTier

/-! ## Sections reserved in part -/

/-- The part of the `lsp` section that no project may set. -/
def lspUserPart (lsp : Option RawLsp) : RawLsp :=
  { lsp.getD {} with idleMinutes := none, python := none, diagnosticsOnEdit := none }

/-- The part of the `semantic` section that no project may set. -/
def semanticUserPart (semantic : Option RawSemantic) : RawSemantic :=
  { semantic.getD {} with
    model := none
    timeoutMs := none
    queryInstruction := none
    maxBatchSize := none
    maxInputTokens := none
    maxFiles := none }

/-- The `bash` section in its object form. -/
def bashFeatures (bash : Option RawBash) : RawBashFeatures :=
  (bash.map expandBashForMerge).getD {}

/-- The part of the `bash` section that no project may set. -/
def bashUserPart (bash : Option RawBash) : RawBashFeatures where
  runonEnabled := (bashFeatures bash).runonEnabled
  env := (bashFeatures bash).env
  runonEnv := (bashFeatures bash).runonEnv

/-- What no project may set. -/
def userPart (config : RawAftConfig) : RawAftConfig :=
  { config with
    disabledTools := none
    indexes := none
    sandbox := none
    experimental := none
    search := none
    bash := some (.features (bashUserPart config.bash))
    lsp := some (lspUserPart config.lsp)
    semantic := some (semanticUserPart config.semantic)
    remoteExecProjectOff := false }

/-- Whether `after` limits at least as much as `before`; an absent limit is no limit. -/
def LimitedBy (before after : Option ℕ) : Prop := ∀ limit ∈ before, ∃ next ∈ after, next ≤ limit

theorem LimitedBy.refl (limit : Option ℕ) : LimitedBy limit limit := fun l hl => ⟨l, hl, le_rfl⟩

theorem LimitedBy.trans {a b c : Option ℕ} (hab : LimitedBy a b) (hbc : LimitedBy b c) :
    LimitedBy a c := by
  intro limit hl
  obtain ⟨next, hn, hle⟩ := hab limit hl
  obtain ⟨last, hla, hle'⟩ := hbc next hn
  exact ⟨last, hla, hle'.trans hle⟩

/-- Whether every index that is on in `after` was on in `before`. -/
structure IndexesConfig.NoneTurnedOn (before after : IndexesConfig) : Prop where
  trigram : after.trigram = true → before.trigram = true
  semantic : after.semantic = true → before.semantic = true
  callgraph : after.callgraph = true → before.callgraph = true

/-- Whether `after` confines commands at least as much as `before`, with the same writable
roots. -/
structure SandboxConfig.NoWeaker (before after : SandboxConfig) : Prop where
  worker : before.profile.worker ≤ after.profile.worker
  head : before.profile.head ≤ after.profile.head
  writeAllow : after.writeAllow = before.writeAllow
  readDeny : before.readDeny ⊆ after.readDeny

theorem SandboxConfig.NoWeaker.refl (sandbox : SandboxConfig) : sandbox.NoWeaker sandbox :=
  ⟨le_rfl, le_rfl, rfl, List.Subset.refl _⟩

theorem SandboxConfig.NoWeaker.trans {a b c : SandboxConfig} (hab : a.NoWeaker b)
    (hbc : b.NoWeaker c) : a.NoWeaker c :=
  ⟨hab.worker.trans hbc.worker, hab.head.trans hbc.head, hbc.writeAllow.trans hab.writeAllow,
    List.Subset.trans hab.readDeny hbc.readDeny⟩

def resolveIndexes (raw : Option RawIndexes) : IndexesConfig where
  trigram := (raw.getD {}).trigram.getD true
  semantic := (raw.getD {}).semantic.getD true
  callgraph := (raw.getD {}).callgraph.getD true

/-- The merged `after` keeps what the user decided in `before` and every restriction of it. -/
structure Tightens (before after : RawAftConfig) : Prop where
  user : userPart after = userPart before
  memoryLimit :
    LimitedBy (bashFeatures before.bash).memoryLimitMib (bashFeatures after.bash).memoryLimitMib
  sandbox : (resolveSandboxConfig before.sandbox).NoWeaker (resolveSandboxConfig after.sandbox)
  disabledTools : before.disabledTools.getD [] ⊆ after.disabledTools.getD []
  indexes : (resolveIndexes before.indexes).NoneTurnedOn (resolveIndexes after.indexes)
  remoteExecProjectOff : before.remoteExecProjectOff = true → after.remoteExecProjectOff = true

theorem Tightens.refl (config : RawAftConfig) : Tightens config config :=
  ⟨rfl, .refl _, .refl _, List.Subset.refl _, ⟨id, id, id⟩, id⟩

theorem Tightens.trans {a b c : RawAftConfig} (hab : Tightens a b) (hbc : Tightens b c) :
    Tightens a c where
  user := hbc.user.trans hab.user
  memoryLimit := hab.memoryLimit.trans hbc.memoryLimit
  sandbox := hab.sandbox.trans hbc.sandbox
  disabledTools := List.Subset.trans hab.disabledTools hbc.disabledTools
  indexes := ⟨hab.indexes.trigram ∘ hbc.indexes.trigram, hab.indexes.semantic ∘ hbc.indexes.semantic,
    hab.indexes.callgraph ∘ hbc.indexes.callgraph⟩
  remoteExecProjectOff := hbc.remoteExecProjectOff ∘ hab.remoteExecProjectOff

/-! ## One project tier, section by section -/

theorem mem_normalizeToolList {name : String} {names : List String} :
    name ∈ normalizeToolList names ↔ name ∈ names := by
  simp [normalizeToolList]

theorem subset_unionDisabledTools (base tools : Option (List String)) :
    base.getD [] ⊆ (unionDisabledTools base tools).getD [] := by
  cases tools with
  | none => exact List.Subset.refl _
  | some tools =>
    intro name hn
    exact mem_normalizeToolList.2 (mem_append_left _ hn)

theorem isSome_unionDisabledTools {base : Option (List String)} (h : base.isSome)
    (tools : Option (List String)) : (unionDisabledTools base tools).isSome := by
  cases tools with
  | none => exact h
  | some tools => rfl

/-- A restricted switch that is on after the merge was on before. -/
theorem applyIndex_restricted {slot value : Option Bool}
    (h : (applyIndex true slot value).getD true = true) : slot.getD true = true := by
  rcases value with _ | _ | _
  · exact h
  · simp [applyIndex] at h
  · exact h

theorem noneTurnedOn_mergeIndexes (base project : Option RawIndexes) :
    (resolveIndexes base).NoneTurnedOn (resolveIndexes (mergeIndexes base project true)) := by
  cases project with
  | none => exact ⟨id, id, id⟩
  | some next => exact ⟨applyIndex_restricted, applyIndex_restricted, applyIndex_restricted⟩

theorem lspUserPart_mergeLspConfig (base project : Option RawLsp) :
    lspUserPart (mergeLspConfig base project) = lspUserPart base := by
  have hem : ∀ lsp : RawLsp, lspUserPart (if lsp.isEmpty then none else some lsp) =
      lspUserPart (some lsp) := by
    intro lsp
    split_ifs with h
    · rw [of_decide_eq_true h]
      rfl
    · rfl
  unfold mergeLspConfig
  rw [hem]
  cases project <;> rfl

theorem semanticUserPart_mergeSemanticConfig (base project : Option RawSemantic) :
    semanticUserPart (mergeSemanticConfig base project) = semanticUserPart base := by
  have hem : ∀ semantic : RawSemantic,
      semanticUserPart (if semantic.isEmpty then none else some semantic) =
        semanticUserPart (some semantic) := by
    intro semantic
    split_ifs with h
    · rw [of_decide_eq_true h]
      rfl
    · rfl
  unfold mergeSemanticConfig
  rw [hem]
  cases project <;> rfl

/-! ### The `bash` section -/

/-- What is read of a project's `bash` section: nothing reserved, and a memory limit under the
ceiling. -/
theorem expand_cappedBash (ceiling : Option ℕ) (bash : RawBash) :
    let safe := cappedBash ceiling (projectSafeBash bash)
    bashUserPart (some safe) = {} ∧
      ∀ limit ∈ ceiling, ∀ next ∈ (expandBashForMerge safe).memoryLimitMib, next ≤ limit := by
  cases bash with
  | bool enabled => exact ⟨rfl, fun _ _ _ h => by simp [projectSafeBash, cappedBash,
      expandBashForMerge] at h⟩
  | features features =>
    refine ⟨rfl, fun limit hl next hn => ?_⟩
    obtain rfl : ceiling = some limit := hl
    change next ∈ capMemoryLimit (some limit) features.memoryLimitMib at hn
    cases hmem : features.memoryLimitMib with
    | none => simp [hmem, capMemoryLimit] at hn
    | some value =>
      obtain rfl : min limit value = next := by simpa [hmem, capMemoryLimit] using hn
      exact min_le_left _ _

theorem mergeEnvMaps_none (base : Option (SortedMap String String)) :
    mergeEnvMaps base none = base := by
  cases base <;> rfl

/-- Merging a section that sets nothing reserved keeps the reserved settings. -/
theorem mergeBashConfig_reserved (base : Option RawBash) {next : RawBash}
    (hr : bashUserPart (some next) = {})
    (hcap : ∀ limit ∈ (bashFeatures base).memoryLimitMib,
      ∀ value ∈ (expandBashForMerge next).memoryLimitMib, value ≤ limit) :
    bashUserPart (mergeBashConfig base (some next)) = bashUserPart base ∧
      LimitedBy (bashFeatures base).memoryLimitMib
        (bashFeatures (mergeBashConfig base (some next))).memoryLimitMib := by
  cases base with
  | none => exact ⟨hr, fun limit hl => absurd hl (by simp [bashFeatures])⟩
  | some user =>
    have henv : (expandBashForMerge next).env = none := congrArg RawBashFeatures.env hr
    have hru : (expandBashForMerge next).runonEnv = none := congrArg RawBashFeatures.runonEnv hr
    refine ⟨?_, fun limit hl => ?_⟩
    · have he : mergeEnvMaps (expandBashForMerge user).env (expandBashForMerge next).env =
          (expandBashForMerge user).env := by
        rw [henv, mergeEnvMaps_none]
      simp only [bashUserPart, bashFeatures, mergeBashConfig, map_some, getD_some]
      simp only [expandBashForMerge.eq_2, he, hru, none_or]
    · change ∃ value ∈ (expandBashForMerge next).memoryLimitMib.or
        (expandBashForMerge user).memoryLimitMib, value ≤ limit
      cases hv : (expandBashForMerge next).memoryLimitMib with
      | none => exact ⟨limit, hl, le_rfl⟩
      | some value => exact ⟨value, rfl, hcap limit hl value hv⟩

theorem mergeProjectBash_reserved (base project : Option RawBash) :
    bashUserPart (mergeProjectBash base project) = bashUserPart base ∧
      LimitedBy (bashFeatures base).memoryLimitMib
        (bashFeatures (mergeProjectBash base project)).memoryLimitMib := by
  cases project with
  | none => cases base <;> exact ⟨rfl, .refl _⟩
  | some bash =>
    have hc : (base.bind fun bash => (expandBashForMerge bash).memoryLimitMib) =
        (bashFeatures base).memoryLimitMib := by
      cases base <;> rfl
    obtain ⟨hr, hcap⟩ := expand_cappedBash (bashFeatures base).memoryLimitMib bash
    have hm : mergeProjectBash base (some bash) = mergeBashConfig base
        (some (cappedBash (bashFeatures base).memoryLimitMib (projectSafeBash bash))) := by
      rw [← hc]
      rfl
    rw [hm]
    exact mergeBashConfig_reserved base hr hcap

/-! ### The `sandbox` section -/

theorem subset_addDenies (denies paths : List String) : denies ⊆ addDenies denies paths := by
  induction paths generalizing denies with
  | nil => exact List.Subset.refl _
  | cons path rest ih =>
    refine List.Subset.trans ?_ (ih _)
    split_ifs
    · exact List.Subset.refl _
    · exact subset_append_left _ _

/-- A mode taken from a project under the resolved floor is not below it. -/
theorem le_atLeast {default : SandboxMode} (next current : Option SandboxMode) :
    current.getD default ≤ (atLeast (current.getD default) next current).getD default := by
  unfold atLeast
  cases hn : next.filter fun mode => current.getD default ≤ mode with
  | none => exact le_rfl
  | some mode => simpa using (filter_eq_some_iff.1 hn).2

/-- An empty section is kept as absent, which resolves to the same defaults. -/
theorem resolveSandboxConfig_present (sandbox : RawSandbox) :
    resolveSandboxConfig (if sandbox.profile.isSome || sandbox.writeAllow.isSome ||
      sandbox.readDeny.isSome then some sandbox else none) = resolveSandboxConfig (some sandbox) := by
  rcases sandbox with ⟨_ | _, _ | _, _ | _⟩ <;> rfl

theorem noWeaker_mergeProjectSandbox (base project : Option RawSandbox) :
    (resolveSandboxConfig base).NoWeaker
      (resolveSandboxConfig (mergeProjectSandbox base project)) := by
  cases project with
  | none => exact .refl _
  | some project =>
    have hb : resolveSandboxConfig base = resolveSandboxConfig (some (base.getD {})) := by
      cases base <;> rfl
    rw [hb]
    simp only [mergeProjectSandbox, resolveSandboxConfig_present]
    generalize base.getD {} = sandbox
    -- First the denied paths, then the profile over the floor they leave unchanged.
    obtain ⟨_ | profile, writeAllow, readDeny⟩ := sandbox <;>
      rcases project with ⟨_ | next, _, _ | denies⟩
    · exact .refl _
    · exact ⟨le_rfl, le_rfl, rfl, subset_addDenies _ _⟩
    · exact ⟨le_atLeast _ none, le_atLeast _ none, rfl, List.Subset.refl _⟩
    · exact ⟨le_atLeast _ none, le_atLeast _ none, rfl, subset_addDenies _ _⟩
    · exact .refl _
    · exact ⟨le_rfl, le_rfl, rfl, subset_addDenies _ _⟩
    · exact ⟨le_atLeast _ profile.worker, le_atLeast _ profile.head, rfl, List.Subset.refl _⟩
    · exact ⟨le_atLeast _ profile.worker, le_atLeast _ profile.head, rfl, subset_addDenies _ _⟩

/-! ## One project tier -/

/-- Whatever a project tier holds, merging it keeps the user's settings and restrictions. -/
theorem tightens_mergeProjectConfig (merged project : RawAftConfig) :
    Tightens merged (mergeProjectConfig merged project) := by
  obtain ⟨hb, hm⟩ := mergeProjectBash_reserved merged.bash project.bash
  exact {
    user := by simp only [userPart, mergeProjectConfig, hb, lspUserPart_mergeLspConfig,
      semanticUserPart_mergeSemanticConfig]
    memoryLimit := hm
    sandbox := noWeaker_mergeProjectSandbox _ _
    disabledTools := subset_unionDisabledTools _ _
    indexes := noneTurnedOn_mergeIndexes _ _
    remoteExecProjectOff := fun h => by simp [mergeProjectConfig, h] }

/-! ## Any number of project tiers -/

variable {harness : Option Harness} {merged after : RawAftConfig} {tier : ConfigTier}

/-- A project tier that is accepted is merged by `mergeProjectConfig`. -/
theorem tightens_mergeTier (hp : tier.isUser = false)
    (h : mergeTier harness merged tier = .ok after) : Tightens merged after := by
  simp only [mergeTier, hp, Bool.false_eq_true, if_false] at h
  obtain ⟨raw, -, h⟩ := Except.bind_eq_ok_iff.1 h
  cases hr : rawBashEnvRefusal raw tier .project none with
  | some refusal => simp [hr] at h
  | none =>
    rw [hr] at h
    cases h
    exact tightens_mergeProjectConfig merged raw

theorem tightens_foldlM (projects : List ConfigTier) (hp : ∀ tier ∈ projects, tier.isUser = false)
    (h : projects.foldlM (mergeTier harness) merged = .ok after) : Tightens merged after := by
  induction projects generalizing merged with
  | nil =>
    cases h
    exact .refl _
  | cons tier rest ih =>
    obtain ⟨next, ht, h⟩ := Except.bind_eq_ok_iff.1 h
    exact (tightens_mergeTier (hp tier mem_cons_self) ht).trans
      (ih (fun tier ht => hp tier (mem_cons_of_mem _ ht)) h)

/-- Resolving with project tiers first merges the user tier, as resolving without them does. -/
theorem mergeTiers_user {user : ConfigTier} (hu : user.isUser = true)
    {projects : List ConfigTier} (hp : ∀ tier ∈ projects, tier.isUser = false)
    (h : mergeTiers (user :: projects) harness = .ok merged) :
    ∃ alone, mergeTiers [user] harness = .ok alone ∧ Tightens alone merged := by
  simp only [mergeTiers, any_cons, hu, Bool.true_or, foldlM_cons] at h ⊢
  obtain ⟨alone, hm, h⟩ := Except.bind_eq_ok_iff.1 h
  rw [hm]
  exact ⟨alone, rfl, tightens_foldlM projects hp h⟩

/-! ## The resolved configuration -/

/-- The user-only settings of two resolutions are the same; some are handed to the host in the
merged sections. -/
structure SameUserSettings (aloneRaw bothRaw : RawAftConfig) (alone both : Config) : Prop where
  restrictToProjectRoot : both.restrictToProjectRoot = alone.restrictToProjectRoot
  urlFetchAllowPrivate : both.urlFetchAllowPrivate = alone.urlFetchAllowPrivate
  writeAllow : both.sandbox.writeAllow = alone.sandbox.writeAllow
  lspServers : both.lsp.servers = alone.lsp.servers
  lspAutoInstall : bothRaw.lsp.bind (·.autoInstall) = aloneRaw.lsp.bind (·.autoInstall)
  lspVersions : bothRaw.lsp.bind (·.versions) = aloneRaw.lsp.bind (·.versions)
  semanticBackend : both.semantic.backend = alone.semantic.backend
  semanticBaseUrl : both.semantic.baseUrl = alone.semantic.baseUrl
  semanticApiKeyEnv : both.semantic.apiKeyEnv = alone.semantic.apiKeyEnv
  github : both.github = alone.github
  ghShim : both.ghShimBinaryPath = alone.ghShimBinaryPath
  subc : bothRaw.subc = aloneRaw.subc
  subcConnectionFile : both.semantic.subcConnectionFile = alone.semantic.subcConnectionFile
  bridge : bothRaw.bridge = aloneRaw.bridge
  autoUpdate : bothRaw.autoUpdate = aloneRaw.autoUpdate
  cacheDir : both.cacheDir = alone.cacheDir
  cacheUnavailable : both.cacheUnavailable = alone.cacheUnavailable
  cacheDirOptOut : both.cacheDirOptOut = alone.cacheDirOptOut
  runonEnabled : both.bash.runonEnabled = alone.bash.runonEnabled
  runonEnv : both.bash.runonEnv = alone.bash.runonEnv
  env : both.bash.env = alone.bash.env

/-- Every restriction of `alone` still holds in `both`. -/
structure OnlyTightens (alone both : Config) : Prop where
  sandbox : alone.sandbox.NoWeaker both.sandbox
  disabledTools : alone.disabledTools ⊆ both.disabledTools
  indexes : alone.indexes.NoneTurnedOn both.indexes
  memoryLimit : LimitedBy alone.bash.memoryLimitMib both.bash.memoryLimitMib
  remoteExec : both.remoteExec.enabled = true → alone.remoteExec.enabled = true

/-! ### Reading the resolved fields off the merged sections -/

theorem resolveBashConfig_reserved (raw : RawAftConfig) :
    (resolveBashConfig raw).runonEnabled = (bashUserPart raw.bash).runonEnabled.getD false ∧
    (resolveBashConfig raw).env = (bashUserPart raw.bash).env.getD .empty ∧
    (resolveBashConfig raw).runonEnv = (bashUserPart raw.bash).runonEnv.getD [] ∧
    (resolveBashConfig raw).memoryLimitMib = (bashFeatures raw.bash).memoryLimitMib := by
  unfold resolveBashConfig
  rcases raw.bash with _ | (_ | _) | features
  · rcases raw.experimental.bind (·.bash) with _ | legacy
    · exact ⟨rfl, rfl, rfl, rfl⟩
    · dsimp only
      split_ifs <;> exact ⟨rfl, rfl, rfl, rfl⟩
  all_goals exact ⟨rfl, rfl, rfl, rfl⟩

theorem resolveSemanticConfig_reserved (raw : Option RawSemantic) (subc : Option RawSubc) :
    (resolveSemanticConfig raw subc).backend = (semanticUserPart raw).backend.getD .fastembed ∧
    (resolveSemanticConfig raw subc).baseUrl = (semanticUserPart raw).baseUrl ∧
    (resolveSemanticConfig raw subc).apiKeyEnv = (semanticUserPart raw).apiKeyEnv ∧
    (resolveSemanticConfig raw subc).subcConnectionFile =
      (resolveSemanticConfig none subc).subcConnectionFile := by
  cases raw <;> exact ⟨rfl, rfl, rfl, rfl⟩

theorem bind_lsp_eq_userPart (lsp : Option RawLsp) :
    lsp.bind (·.servers) = (lspUserPart lsp).servers ∧
    lsp.bind (·.autoInstall) = (lspUserPart lsp).autoInstall ∧
    lsp.bind (·.versions) = (lspUserPart lsp).versions := by
  cases lsp <;> exact ⟨rfl, rfl, rfl⟩

variable {before : RawAftConfig}

/-- The resolved servers depend on the user's part of the section only. -/
theorem resolveLspConfig_servers (h : lspUserPart after.lsp = lspUserPart before.lsp) :
    (resolveLspConfig after).servers = (resolveLspConfig before).servers := by
  have hs : after.lsp.bind (·.servers) = before.lsp.bind (·.servers) := by
    rw [(bind_lsp_eq_userPart _).1, (bind_lsp_eq_userPart _).1, h]
  unfold resolveLspConfig
  rw [hs]

/-- The user tier always leaves a list of disabled tools, its own or the default one. -/
theorem isSome_disabledTools_mergeTier (hu : tier.isUser = true)
    (h : mergeTier harness merged tier = .ok after) : after.disabledTools.isSome := by
  simp only [mergeTier, hu, Bool.true_and, if_true] at h
  generalize hb : (if (normalizeConfigForHarness harness tier.raw).disabledTools.isNone = true then
    { normalizeConfigForHarness harness tier.raw with disabledTools := some defaultDisabledTools }
    else normalizeConfigForHarness harness tier.raw) = base at h
  have hp : base.disabledTools.isSome := by
    rw [← hb]
    split_ifs with hn
    · rfl
    · simpa [isSome_iff_ne_none] using hn
  obtain ⟨raw, hraw, h⟩ := Except.bind_eq_ok_iff.1 h
  have hr : raw.disabledTools.isSome := by
    unfold applyHarnessOverride at hraw
    split at hraw
    · exact Except.ok.inj hraw ▸ hp
    · split at hraw
      · cases hraw
      · exact Except.ok.inj hraw ▸ isSome_unionDisabledTools hp _
  obtain ⟨tools, ht⟩ := isSome_iff_exists.1 hr
  cases hre : rawBashEnvRefusal raw tier .user none with
  | some refusal => simp [hre] at h
  | none =>
    rw [hre] at h
    cases h
    simp [mergeTrustedConfig, ht, unionDisabledTools]

variable {expand : String → Except String String} {tiers : List ConfigTier}

theorem finishConfig_eq_ok {tools : List String} (ht : merged.disabledTools = some tools) :
    finishConfig expand tiers merged = .ok {
      disabledTools := normalizeToolList tools
      indexes := resolveIndexes merged.indexes
      restrictToProjectRoot := merged.restrictToProjectRoot.getD false
      urlFetchAllowPrivate := merged.urlFetchAllowPrivate.getD false
      semantic := resolveSemanticConfig merged.semantic merged.subc
      rerank := resolveSearchConfig merged.search
      github := resolveGithubConfig merged.github
      ghShimBinaryPath := merged.ghShim.bind (·.binaryPath)
      sandbox := resolveSandboxConfig merged.sandbox
      remoteExec := resolveRemoteExecConfig merged
      lsp := resolveLspConfig merged
      bash := resolveBashConfig merged
      cacheDir := (resolveCacheDir expand merged.storage).1
      cacheUnavailable := (resolveCacheDir expand merged.storage).2
      cacheDirOptOut := (resolveCacheDir expand merged.storage).1.isNone &&
        (tiers.filter isUser).any nullCacheDir } := by
  simp only [finishConfig, applyResolvedConfig, ht]
  rfl

theorem exists_tools_of_finishConfig {config : Config}
    (h : finishConfig expand tiers merged = .ok config) :
    ∃ tools, merged.disabledTools = some tools := by
  cases ht : merged.disabledTools with
  | some tools => exact ⟨tools, rfl⟩
  | none => simp [finishConfig, applyResolvedConfig, ht] at h

theorem Tightens.remoteExec_enabled (h : Tightens before after)
    (hen : (resolveRemoteExecConfig after).enabled = true) :
    (resolveRemoteExecConfig before).enabled = true := by
  have hre : after.remoteExec = before.remoteExec :=
    (congrArg RawAftConfig.remoteExec h.user :)
  simp only [resolveRemoteExecConfig, hre, Bool.and_eq_true] at hen
  cases hoff : before.remoteExecProjectOff with
  | true => simp [h.remoteExecProjectOff hoff] at hen
  | false => simpa [resolveRemoteExecConfig, hoff] using hen.1

/-- Configurations resolved from comparable merged sections, for the same user tiers. -/
theorem Tightens.resolved {aloneTiers : List ConfigTier} {alone both : Config}
    (h : Tightens before after)
    (hu : tiers.filter isUser = aloneTiers.filter isUser)
    (hal : finishConfig expand aloneTiers before = .ok alone)
    (hb : finishConfig expand tiers after = .ok both) :
    SameUserSettings before after alone both ∧ OnlyTightens alone both := by
  obtain ⟨tools, ht⟩ := exists_tools_of_finishConfig hal
  obtain ⟨tools', ht'⟩ := exists_tools_of_finishConfig hb
  rw [finishConfig_eq_ok ht] at hal
  rw [finishConfig_eq_ok ht'] at hb
  cases hal
  cases hb
  obtain ⟨hr, henv, hru, hm⟩ := resolveBashConfig_reserved before
  obtain ⟨hr', henv', hru', hm'⟩ := resolveBashConfig_reserved after
  obtain ⟨hba, hurl, hkey, hs⟩ := resolveSemanticConfig_reserved before.semantic before.subc
  obtain ⟨hb', hurl', hkey', hs'⟩ :=
    resolveSemanticConfig_reserved after.semantic after.subc
  obtain ⟨-, hin, hv⟩ := bind_lsp_eq_userPart before.lsp
  obtain ⟨-, hi', hv'⟩ := bind_lsp_eq_userPart after.lsp
  have same {β : Type} (f : RawAftConfig → β) : f (userPart after) = f (userPart before) :=
    congrArg f h.user
  have hlsp : lspUserPart after.lsp = lspUserPart before.lsp := some_inj.1 (same (·.lsp))
  have hsem : semanticUserPart after.semantic = semanticUserPart before.semantic :=
    some_inj.1 (same (·.semantic))
  have hbash : bashUserPart after.bash = bashUserPart before.bash :=
    RawBash.features.inj (some_inj.1 (same (·.bash)))
  refine ⟨?_, ?_⟩
  · exact {
      restrictToProjectRoot := same (·.restrictToProjectRoot.getD false)
      urlFetchAllowPrivate := same (·.urlFetchAllowPrivate.getD false)
      writeAllow := h.sandbox.writeAllow
      lspServers := resolveLspConfig_servers hlsp
      lspAutoInstall := by rw [hi', hin, hlsp]
      lspVersions := by rw [hv', hv, hlsp]
      semanticBackend := by simp only [hba, hb', hsem]
      semanticBaseUrl := by simp only [hurl, hurl', hsem]
      semanticApiKeyEnv := by simp only [hkey, hkey', hsem]
      github := same (resolveGithubConfig ·.github)
      ghShim := same (·.ghShim.bind (·.binaryPath))
      subc := same (·.subc)
      subcConnectionFile := hs'.trans ((same (resolveSemanticConfig none ·.subc)) ▸ hs.symm)
      bridge := same (·.bridge)
      autoUpdate := same (·.autoUpdate)
      cacheDir := same (resolveCacheDir expand ·.storage |>.1)
      cacheUnavailable := same (resolveCacheDir expand ·.storage |>.2)
      cacheDirOptOut := by rw [show after.storage = before.storage from same (·.storage), hu]
      runonEnabled := by simp only [hr, hr', hbash]
      runonEnv := by simp only [hru, hru', hbash]
      env := by simp only [henv, henv', hbash] }
  · have hsu : tools ⊆ tools' := by simpa [ht, ht'] using h.disabledTools
    exact {
      sandbox := h.sandbox
      disabledTools := fun name hn =>
        mem_normalizeToolList.2 (hsu (mem_normalizeToolList.1 hn))
      indexes := h.indexes
      memoryLimit := by simpa only [hm, hm'] using h.memoryLimit
      remoteExec := h.remoteExec_enabled }

/-- Whatever the project tiers say, an accepted configuration has the user-only settings of the user
tier alone and every restriction of it. -/
theorem project_tiers_never_loosen (expand : String → Except String String)
    (harness : Option Harness) {user : ConfigTier} (huser : user.isUser = true)
    {projects : List ConfigTier} (hprojects : ∀ tier ∈ projects, tier.isUser = false)
    {both : Config} (hboth : resolveConfigForHarness expand (user :: projects) harness = .ok both) :
    ∃ aloneRaw bothRaw alone,
      mergeTiers [user] harness = .ok aloneRaw ∧
      mergeTiers (user :: projects) harness = .ok bothRaw ∧
      resolveConfigForHarness expand [user] harness = .ok alone ∧
      SameUserSettings aloneRaw bothRaw alone both ∧ OnlyTightens alone both := by
  unfold resolveConfigForHarness at hboth
  cases hmerged : mergeTiers (user :: projects) harness with
  | error refusal => simp [hmerged] at hboth
  | ok bothRaw =>
    rw [hmerged] at hboth
    obtain ⟨aloneRaw, halone, htightens⟩ := mergeTiers_user huser hprojects hmerged
    have hmerge : mergeTier harness {} user = .ok aloneRaw := by
      simpa [mergeTiers, huser] using halone
    obtain ⟨tools, htools⟩ :=
      isSome_iff_exists.1 (isSome_disabledTools_mergeTier huser hmerge)
    have husers : (user :: projects).filter ConfigTier.isUser =
        [user].filter ConfigTier.isUser := by
      simpa [huser] using hprojects
    refine ⟨aloneRaw, bothRaw, _, halone, rfl, ?_,
      htightens.resolved husers (finishConfig_eq_ok htools) hboth⟩
    simp only [resolveConfigForHarness, halone]
    exact finishConfig_eq_ok htools

/-- A user who runs workers strictly under a memory limit. -/
def strictUser : ConfigTier where
  tier := "user"
  raw := {
    sandbox := some { profile := some { worker := some .strict } }
    bash := some (.features { memoryLimitMib := some 512 }) }

/-- A project that asks for less confinement, more memory and remote runs, for every harness and for
Pi. -/
def greedyProject : ConfigTier where
  tier := "project"
  raw := {
    sandbox := some { profile := some { worker := some .off, head := some .strict } }
    bash := some (.features { memoryLimitMib := some 4096, runonEnabled := some true })
    remoteExec := some { enabled := some true } }
  harnesses := some (SortedMap.empty.insert "pi" (.config {
    restrictToProjectRoot := some false
    sandbox := some { profile := some { worker := some .relaxed } } }))

theorem project_tiers_never_loosen_greedy :
    ∃ both, resolveConfigForHarness .ok [strictUser, greedyProject] (some .pi) = .ok both ∧
      ∃ aloneRaw bothRaw alone,
        mergeTiers [strictUser] (some .pi) = .ok aloneRaw ∧
        mergeTiers [strictUser, greedyProject] (some .pi) = .ok bothRaw ∧
        resolveConfigForHarness .ok [strictUser] (some .pi) = .ok alone ∧
        SameUserSettings aloneRaw bothRaw alone both ∧ OnlyTightens alone both := by
  have hok : (resolveConfigForHarness .ok [strictUser, greedyProject] (some .pi)).isOk = true := by
    decide +kernel
  cases hboth : resolveConfigForHarness .ok [strictUser, greedyProject] (some .pi) with
  | error errors => simp [hboth, Except.toBool] at hok
  | ok both =>
    exact ⟨both, rfl, project_tiers_never_loosen .ok (some .pi) rfl (by decide) hboth⟩

end Aft.Settings
