import Aft.Settings.Merge
import Aft.Hashline.Edits

/-!
# Resolving the merged configuration

`mergeTiers` is the loop of `resolve_config_for_harness` over the parsed tiers, and
`applyResolvedConfig` turns the merged sections into the flat `Config`. Diagnostics are not
modelled: nothing is read from them.
-/

namespace Aft.Settings

/-! ## The resolved configuration -/

structure IndexesConfig where
  trigram : Bool := true
  semantic : Bool := true
  callgraph : Bool := true
  deriving Repr, DecidableEq

structure SemanticBackendConfig where
  backend : SemanticBackend := .fastembed
  model : String := "all-MiniLM-L6-v2"
  baseUrl : Option String := none
  apiKeyEnv : Option String := none
  timeoutMs : ℕ := 25000
  queryTimeoutMs : ℕ := 3000
  queryInstruction : String := "auto"
  maxBatchSize : ℕ := 64
  maxInputTokens : Option ℕ := none
  maxFiles : ℕ := 20000
  subcConnectionFile : Option String := none
  deriving Repr, DecidableEq

structure GithubConfig where
  shim : Bool := true
  read : Bool := false
  write : Bool := false
  deriving Repr, DecidableEq

structure RemoteExecConfig where
  enabled : Bool := false
  defaultDemand : Option String := none
  projectOff : Bool := false
  deriving Repr, DecidableEq

structure UserServerDef where
  id : String
  extensions : List String
  binary : String
  args : List String
  rootMarkers : List String
  env : SortedMap String String
  initializationOptions : Option String
  disabled : Bool
  deriving DecidableEq

/-- The resolved settings of language servers; `disabled` stands for a set. -/
structure LspSettings where
  idleMinutes : LspIdleMinutes := defaultLspIdleMinutes
  experimentalTy : Bool := false
  diagnosticsOnEdit : Bool := false
  servers : List UserServerDef := []
  disabled : List String := []
  deriving DecidableEq

/-- `ResolvedBashConfig`. -/
structure ResolvedBashConfig where
  changedFiles : BashChangedFiles := .off
  enabled : Bool := false
  rewrite : Bool := false
  compress : Bool := false
  background : Bool := false
  hostFallback : Bool := false
  runonEnabled : Bool := false
  subagentBackground : Bool := true
  detachOnUserMessage : Bool := true
  dbSchemaHints : Bool := true
  longRunningReminderEnabled : Option Bool := none
  longRunningReminderIntervalMs : Option ℕ := none
  foregroundWaitWindowMs : ℕ
  watchSyncMaxMs : ℕ
  workerWaitMaxMs : ℕ
  linuxScope : Bool := false
  memoryLimitMib : Option ℕ := none
  disclaimPrivacy : Bool := false
  powershellTool : Bool := false
  env : SortedMap String String := .empty
  projectEnv : SortedMap String String := .empty
  runonEnv : List String := []
  deriving DecidableEq

/-- The resolved `Config`, for the modelled sections. -/
structure Config where
  disabledTools : List String
  indexes : IndexesConfig
  restrictToProjectRoot : Bool
  urlFetchAllowPrivate : Bool
  semantic : SemanticBackendConfig
  rerank : Option RerankConfig
  github : GithubConfig
  ghShimBinaryPath : Option String
  sandbox : SandboxConfig
  remoteExec : RemoteExecConfig
  lsp : LspSettings
  bash : ResolvedBashConfig
  cacheDir : Option String := none
  cacheUnavailable : Option String := none
  cacheDirOptOut : Bool := false
  deriving DecidableEq

/-! ## Sections -/

def resolveSemanticConfig (raw : Option RawSemantic) (subc : Option RawSubc) :
    SemanticBackendConfig :=
  let connection := ((subc.bind (·.connectionFile)).map fun path =>
    String.ofList (Hashline.trim path)).filter fun path => path ≠ ""
  match raw with
  | none => { subcConnectionFile := connection }
  | some raw => {
      backend := raw.backend.getD .fastembed
      -- Synapse has no default model.
      model := raw.model.getD (if raw.backend = some .synapse then "" else "all-MiniLM-L6-v2")
      baseUrl := raw.baseUrl
      apiKeyEnv := raw.apiKeyEnv
      timeoutMs := (raw.timeoutMs.map (min · 120000)).getD 25000
      queryTimeoutMs := (raw.queryTimeoutMs.map fun value => max 500 (min value 30000)).getD 3000
      queryInstruction := raw.queryInstruction.getD "auto"
      maxBatchSize := (raw.maxBatchSize.map (min · 1024)).getD 64
      maxInputTokens := raw.maxInputTokens
      maxFiles := raw.maxFiles.getD 20000
      subcConnectionFile := connection }

/-- `resolve_search_config`: an all-empty `rerank` object is kept as absent. -/
def resolveSearchConfig (raw : Option RawSearch) : Option RerankConfig :=
  (raw.bind (·.rerank)).filter fun rerank => rerank ≠ {}

/-- `resolve_github_config`: writing implies reading. -/
def resolveGithubConfig (raw : Option RawGithub) : GithubConfig :=
  let write := (raw.bind (·.write)).getD false
  { shim := (raw.bind (·.shim)).getD true
    read := (raw.bind (·.read)).getD false || write
    write := write }

def resolveRemoteExecConfig (raw : RawAftConfig) : RemoteExecConfig where
  enabled := (raw.remoteExec.bind (·.enabled)) = some true && !raw.remoteExecProjectOff
  defaultDemand := raw.remoteExec.bind (·.defaultDemand)
  projectOff := raw.remoteExecProjectOff

/-- The definition of one server of `resolve_lsp_config`. -/
def userServerDef (id : String) (server : RawLspServerEntry) : UserServerDef where
  id := id
  extensions := (server.extensions.getD []).map fun extension =>
    String.ofList (extension.toList.dropWhile (· = '.'))
  binary := server.binary.getD ""
  args := server.args.getD []
  rootMarkers := server.rootMarkers.getD [".git"]
  env := server.env.getD .empty
  initializationOptions := server.initializationOptions
  disabled := server.disabled.getD false

def resolveLspConfig (raw : RawAftConfig) : LspSettings :=
  let disabled := ((raw.lsp.bind (·.disabled)).getD []).map String.toLower
  let experimentalTy := raw.experimental.bind (·.lspTy)
  let python := (raw.lsp.bind (·.python)).getD .auto
  { idleMinutes := (raw.lsp.bind (·.idleMinutes)).getD defaultLspIdleMinutes
    experimentalTy := match python with
      | .ty => true
      | .pyright => false
      | .auto => experimentalTy.getD false
    diagnosticsOnEdit := (raw.lsp.bind (·.diagnosticsOnEdit)).getD false
    servers := ((raw.lsp.bind (·.servers)).map fun servers =>
      servers.entries.map fun entry => userServerDef entry.1 entry.2).getD []
    disabled := match python with
      | .ty => "python" :: disabled
      | .pyright => "ty" :: disabled
      | .auto => disabled }

def resolveBashConfig (raw : RawAftConfig) : ResolvedBashConfig :=
  let legacy := raw.experimental.bind (·.bash)
  let top : Option RawBashFeatures := match raw.bash with
    | some (.features features) => some features
    | _ => none
  let base : ResolvedBashConfig := {
    changedFiles := (top.bind (·.changedFiles)).getD .off
    runonEnabled := (top.bind (·.runonEnabled)).getD false
    dbSchemaHints := (top.bind (·.dbSchemaHints)).getD true
    longRunningReminderEnabled := (top.bind (·.longRunningReminderEnabled)).or
      (legacy.bind (·.longRunningReminderEnabled))
    longRunningReminderIntervalMs := (top.bind (·.longRunningReminderIntervalMs)).or
      (legacy.bind (·.longRunningReminderIntervalMs))
    foregroundWaitWindowMs := max ((top.bind (·.foregroundWaitWindowMs)).getD 15000) 5000
    watchSyncMaxMs := ((top.bind (·.watchSyncMaxMs)).map fun value =>
      max 1000 (min value 1800000)).getD 120000
    workerWaitMaxMs := (top.bind (·.workerWaitMaxMs)).getD 1800000
    linuxScope := (top.bind (·.linuxScope)).getD false
    memoryLimitMib := top.bind (·.memoryLimitMib)
    disclaimPrivacy := (top.bind (·.disclaimPrivacy)).getD false }
  match raw.bash with
  | some (.bool false) => base
  | some (.bool true) =>
    { base with enabled := true, rewrite := true, compress := true, background := true }
  | some (.features features) => { base with
      enabled := features.enabled.getD true
      rewrite := features.rewrite.getD true
      compress := features.compress.getD true
      background := features.background.getD true
      hostFallback := features.hostFallback.getD false
      subagentBackground := features.subagentBackground.getD true
      detachOnUserMessage := features.detachOnUserMessage.getD true
      powershellTool := features.powershellTool.getD false
      env := features.env.getD .empty
      projectEnv := features.projectEnv.getD .empty
      runonEnv := features.runonEnv.getD [] }
  | none =>
    match legacy with
    | some legacy =>
      if legacy.hasLegacyFeatureFlag then { base with
        enabled := true
        rewrite := legacy.rewrite = some true
        compress := legacy.compress = some true
        background := legacy.background = some true }
      else { base with enabled := true, rewrite := true, compress := true, background := true }
    | none => { base with enabled := true, rewrite := true, compress := true, background := true }

/-! ## The resolver -/

def applyResolvedConfig (raw : RawAftConfig) : Except (List String) Config :=
  match raw.disabledTools with
  | none => .error ["invalid_resolved_config:missing:disabled_tools"]
  | some disabledTools =>
    let indexes := raw.indexes.getD {}
    .ok {
      disabledTools := normalizeToolList disabledTools
      indexes := {
        trigram := indexes.trigram.getD true
        semantic := indexes.semantic.getD true
        callgraph := indexes.callgraph.getD true }
      restrictToProjectRoot := raw.restrictToProjectRoot.getD false
      urlFetchAllowPrivate := raw.urlFetchAllowPrivate.getD false
      semantic := resolveSemanticConfig raw.semantic raw.subc
      rerank := resolveSearchConfig raw.search
      github := resolveGithubConfig raw.github
      ghShimBinaryPath := raw.ghShim.bind (·.binaryPath)
      sandbox := resolveSandboxConfig raw.sandbox
      remoteExec := resolveRemoteExecConfig raw
      lsp := resolveLspConfig raw
      bash := resolveBashConfig raw }

/-- One pass of the loop: the tier with its defaults and its active block, merged at its own
trust. -/
def mergeTier (harness : Option Harness) (merged : RawAftConfig) (tier : ConfigTier) :
    Except String RawAftConfig := do
  let raw := normalizeConfigForHarness harness tier.raw
  -- The default list applies to the base of the user tier, before its harness block.
  let raw := if tier.isUser && raw.disabledTools.isNone then
    { raw with disabledTools := some defaultDisabledTools } else raw
  let kind := if tier.isUser then BashEnvTier.user else BashEnvTier.project
  let raw ← applyHarnessOverride tier raw harness kind
  match rawBashEnvRefusal raw tier kind none with
  | some refusal => .error refusal
  | none =>
    .ok (if tier.isUser then mergeTrustedConfig merged raw else mergeProjectConfig merged raw)

/-- The merged sections of all tiers, in their order. -/
def mergeTiers (tiers : List ConfigTier) (harness : Option Harness) : Except String RawAftConfig :=
  let start : RawAftConfig :=
    if tiers.any ConfigTier.isUser then {} else { disabledTools := some defaultDisabledTools }
  tiers.foldlM (mergeTier harness) start

section

variable (expand : String → Except String String)

/-- `cache_dir` and `cache_unavailable` of a merged `storage` section; `expand` is
`expand_cache_dir_path` under the home directory of the process. -/
def resolveCacheDir (storage : Option RawStorage) : Option String × Option String :=
  match storage.bind (·.cacheDir) with
  | none => (none, none)
  | some raw =>
    match expand raw with
    | .ok path => (some path, none)
    | .error error => (some raw, some error)

/-- The resolver after its loop. -/
def finishConfig (tiers : List ConfigTier)
    (merged : RawAftConfig) : Except (List String) Config := do
  let config ← applyResolvedConfig merged
  let cache := resolveCacheDir expand merged.storage
  return { config with
    cacheDir := cache.1
    cacheUnavailable := cache.2
    cacheDirOptOut := cache.1.isNone &&
      (tiers.filter ConfigTier.isUser).any ConfigTier.nullCacheDir }

/-- `resolve_config_for_harness`, for tiers that parse: the resolved configuration, or the
errors. -/
def resolveConfigForHarness (tiers : List ConfigTier)
    (harness : Option Harness) : Except (List String) Config :=
  match mergeTiers tiers harness with
  | .error refusal => .error [refusal]
  | .ok merged => finishConfig expand tiers merged

end

end Aft.Settings
