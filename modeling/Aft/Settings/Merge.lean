import Aft.Settings.Raw

/-!
# Merging configuration tiers

A tier first takes its own block for the active harness (`applyHarnessOverride`, always by the
trusted merge). The user tier is merged by `mergeTrustedConfig`, where a supplied value replaces
the one before; a project tier by `mergeProjectConfig`, which reads only what a project may set.
-/

namespace Aft.Settings

/-! ## Lists of disabled tools -/

def hostToolNames : List String :=
  ["apply_patch", "bash", "edit", "glob", "grep", "read", "write"]

def defaultDisabledTools : List String := ["aft_delete", "aft_move"]

def isProjectProtectedTool (name : String) : Bool := name = "aft_safety" || name ∈ hostToolNames

/-- `normalize_tool_list`: the distinct names in increasing order. -/
def normalizeToolList (names : List String) : List String := names.dedup.mergeSort

def unionDisabledTools (base overrideTools : Option (List String)) : Option (List String) :=
  match overrideTools with
  | none => base
  | some tools => some (normalizeToolList (base.getD [] ++ tools))

/-- `merge_disabled_tools`: a project's list without the protected names. -/
def mergeDisabledTools (base project : Option (List String)) : Option (List String) :=
  unionDisabledTools base (project.map fun tools =>
    tools.filter fun tool => !isProjectProtectedTool tool)

/-! ## Sections -/

/-- One switch of `merge_indexes`. -/
def applyIndex (restricted : Bool) (slot value : Option Bool) : Option Bool :=
  match value with
  | some false => some false
  | some true => if restricted then slot else some true
  | none => slot

/-- `merge_indexes`: a restricted override can only turn an index off. -/
def mergeIndexes (base overrideIndexes : Option RawIndexes) (restricted : Bool) :
    Option RawIndexes :=
  match overrideIndexes with
  | none => base
  | some next =>
    let merged := base.getD {}
    some {
      trigram := applyIndex restricted merged.trigram next.trigram
      semantic := applyIndex restricted merged.semantic next.semantic
      callgraph := applyIndex restricted merged.callgraph next.callgraph }

def mergeSemanticConfig (base project : Option RawSemantic) : Option RawSemantic :=
  let semantic := base.getD {}
  let merged := match project with
    | none => semantic
    | some project => { semantic with
        model := project.model.or semantic.model
        timeoutMs := project.timeoutMs.or semantic.timeoutMs
        queryInstruction := project.queryInstruction.or semantic.queryInstruction
        maxBatchSize := project.maxBatchSize.or semantic.maxBatchSize
        maxInputTokens := project.maxInputTokens.or semantic.maxInputTokens
        maxFiles := project.maxFiles.or semantic.maxFiles }
  if merged.isEmpty then none else some merged

/-- `merge_project_search`: a project may only turn reranking off. -/
def mergeProjectSearch (base project : Option RawSearch) : Option RawSearch :=
  if (project.bind (·.rerank)).bind (·.backend) = some .off then
    let search := base.getD {}
    some { search with rerank := some { search.rerank.getD {} with backend := some .off } }
  else base

def mergeLspConfig (base project : Option RawLsp) : Option RawLsp :=
  let lsp := base.getD {}
  let merged := match project with
    | none => lsp
    | some project => { lsp with
        idleMinutes := match project.idleMinutes with
          | some idle =>
            if idle.tightens (lsp.idleMinutes.getD defaultLspIdleMinutes) then some idle
            else lsp.idleMinutes
          | none => lsp.idleMinutes
        python := project.python.or lsp.python
        diagnosticsOnEdit := project.diagnosticsOnEdit.or lsp.diagnosticsOnEdit }
  if merged.isEmpty then none else some merged

def mergeExperimentalBash (base above : Option RawExperimentalBash) : Option RawExperimentalBash :=
  match above with
  | none => base
  | some above =>
    let bash := base.getD {}
    let merged : RawExperimentalBash := {
      rewrite := above.rewrite.or bash.rewrite
      compress := above.compress.or bash.compress
      background := above.background.or bash.background
      longRunningReminderEnabled :=
        above.longRunningReminderEnabled.or bash.longRunningReminderEnabled
      longRunningReminderIntervalMs :=
        above.longRunningReminderIntervalMs.or bash.longRunningReminderIntervalMs }
    if merged.hasAnyValue then some merged else none

def mergeExperimentalConfig (base above : Option RawExperimental) : Option RawExperimental :=
  match above with
  | none => base
  | some above =>
    let experimental := base.getD {}
    let merged : RawExperimental := {
      lspTy := above.lspTy.or experimental.lspTy
      bash := mergeExperimentalBash experimental.bash above.bash }
    if merged.isEmpty then none else some merged

/-! ## The `bash` section -/

/-- `merge_env_maps`: the override adds or replaces names and never removes one. -/
def mergeEnvMaps (base above : Option (SortedMap String String)) :
    Option (SortedMap String String) :=
  match base, above with
  | none, none => none
  | some base, none => some base
  | none, some above => some above
  | some base, some above => some (base.extend above)

/-- `expand_bash_for_merge`: a boolean stands for its three features. -/
def expandBashForMerge : RawBash → RawBashFeatures
  | .bool enabled =>
    { rewrite := some enabled, compress := some enabled, background := some enabled }
  | .features features => features

def mergeBashConfig (base above : Option RawBash) : Option RawBash :=
  match base, above with
  | none, none => none
  | none, some above => some above
  | some base, none => some base
  | some base, some above =>
    let base := expandBashForMerge base
    let above := expandBashForMerge above
    some (.features {
      changedFiles := above.changedFiles.or base.changedFiles
      enabled := above.enabled.or base.enabled
      rewrite := above.rewrite.or base.rewrite
      compress := above.compress.or base.compress
      background := above.background.or base.background
      hostFallback := above.hostFallback.or base.hostFallback
      -- The one feature that no later tier may change.
      runonEnabled := base.runonEnabled
      subagentBackground := above.subagentBackground.or base.subagentBackground
      detachOnUserMessage := above.detachOnUserMessage.or base.detachOnUserMessage
      dbSchemaHints := above.dbSchemaHints.or base.dbSchemaHints
      longRunningReminderEnabled :=
        above.longRunningReminderEnabled.or base.longRunningReminderEnabled
      longRunningReminderIntervalMs :=
        above.longRunningReminderIntervalMs.or base.longRunningReminderIntervalMs
      foregroundWaitWindowMs := above.foregroundWaitWindowMs.or base.foregroundWaitWindowMs
      watchSyncMaxMs := above.watchSyncMaxMs.or base.watchSyncMaxMs
      workerWaitMaxMs := above.workerWaitMaxMs.or base.workerWaitMaxMs
      linuxScope := above.linuxScope.or base.linuxScope
      memoryLimitMib := above.memoryLimitMib.or base.memoryLimitMib
      disclaimPrivacy := above.disclaimPrivacy.or base.disclaimPrivacy
      powershellTool := above.powershellTool.or base.powershellTool
      env := mergeEnvMaps base.env above.env
      projectEnv := mergeEnvMaps base.projectEnv above.projectEnv
      runonEnv := above.runonEnv.or base.runonEnv })

/-- `project_safe_bash` on the object form. -/
def RawBashFeatures.projectSafe (features : RawBashFeatures) : RawBashFeatures :=
  { features with
    changedFiles := features.changedFiles.filter (· = .off)
    linuxScope := none
    runonEnabled := none
    projectEnv := features.env
    env := none
    runonEnv := none
    disclaimPrivacy := features.disclaimPrivacy.filter id }

/-- `project_safe_bash`: the part of a project's `bash` section that is merged. -/
def projectSafeBash : RawBash → RawBash
  | .bool enabled => .bool enabled
  | .features features => .features features.projectSafe

def capMemoryLimit (ceiling project : Option ℕ) : Option ℕ :=
  match ceiling, project with
  | some user, some project => some (min user project)
  | _, value => value

/-- A project's safe `bash` section with its memory limit capped. -/
def cappedBash (ceiling : Option ℕ) : RawBash → RawBash
  | .bool enabled => .bool enabled
  | .features features =>
    .features { features with memoryLimitMib := capMemoryLimit ceiling features.memoryLimitMib }

/-- The statements of `merge_project_config` about the `bash` section. -/
def mergeProjectBash (base project : Option RawBash) : Option RawBash :=
  let ceiling := base.bind fun bash => (expandBashForMerge bash).memoryLimitMib
  mergeBashConfig base (project.map fun bash => cappedBash ceiling (projectSafeBash bash))

/-! ## The `sandbox` section -/

structure SandboxRoles where
  worker : SandboxMode := .relaxed
  head : SandboxMode := .off
  deriving Repr, DecidableEq

structure SandboxConfig where
  profile : SandboxRoles := {}
  writeAllow : List String := []
  readDeny : List String := []
  deriving Repr, DecidableEq

def resolveSandboxConfig (raw : Option RawSandbox) : SandboxConfig :=
  match raw with
  | none => {}
  | some raw => {
      profile := {
        worker := (raw.profile.bind (·.worker)).getD .relaxed
        head := (raw.profile.bind (·.head)).getD .off }
      writeAllow := raw.writeAllow.getD []
      readDeny := raw.readDeny.getD [] }

/-- The loop of `merge_project_sandbox` over the project's `read_deny`. -/
def addDenies (denies : List String) : List String → List String
  | [] => denies
  | path :: rest => addDenies (if path ∈ denies then denies else denies ++ [path]) rest

/-- A mode that a project asks for, where it is at least as strict as the floor. -/
def atLeast (floor : SandboxMode) (next current : Option SandboxMode) : Option SandboxMode :=
  (next.filter fun mode => floor ≤ mode).or current

def mergeProjectSandbox (base project : Option RawSandbox) : Option RawSandbox :=
  match project with
  | none => base
  | some project =>
    let sandbox := base.getD {}
    let sandbox := match project.readDeny with
      | none => sandbox
      | some denies =>
        { sandbox with readDeny := some (addDenies (sandbox.readDeny.getD []) denies) }
    let sandbox := match project.profile with
      | none => sandbox
      | some next =>
        let floor := (resolveSandboxConfig (some sandbox)).profile
        let profile := sandbox.profile.getD {}
        { sandbox with profile := some {
            worker := atLeast floor.worker next.worker profile.worker
            head := atLeast floor.head next.head profile.head } }
    if sandbox.profile.isSome || sandbox.writeAllow.isSome || sandbox.readDeny.isSome then
      some sandbox
    else none

/-- The statements of `merge_trusted_config` about the `sandbox` section. -/
def mergeTrustedSandbox (base above : Option RawSandbox) : Option RawSandbox :=
  match above with
  | none => base
  | some next =>
    let sandbox := base.getD {}
    some {
      profile := match next.profile with
        | none => sandbox.profile
        | some roles =>
          let profile := sandbox.profile.getD {}
          some { worker := roles.worker.or profile.worker, head := roles.head.or profile.head }
      writeAllow := next.writeAllow.or sandbox.writeAllow
      readDeny := next.readDeny.or sandbox.readDeny }

/-- The statements of `merge_trusted_config` about the `remote_exec` section. -/
def mergeTrustedRemoteExec (base above : Option RawRemoteExec) : Option RawRemoteExec :=
  match above with
  | none => base
  | some next =>
    let merged := base.getD {}
    some {
      enabled := next.enabled.or merged.enabled
      defaultDemand := next.defaultDemand.or merged.defaultDemand }

/-! ## Whole tiers -/

def mergeTrustedConfig (base above : RawAftConfig) : RawAftConfig :=
  { base with
    storage := if (above.storage.bind (·.cacheDir)).isSome then above.storage else base.storage
    disabledTools := unionDisabledTools base.disabledTools above.disabledTools
    restrictToProjectRoot := above.restrictToProjectRoot.or base.restrictToProjectRoot
    indexes := mergeIndexes base.indexes above.indexes false
    index := above.index.or base.index
    github := above.github.or base.github
    ghShim := above.ghShim.or base.ghShim
    sandbox := mergeTrustedSandbox base.sandbox above.sandbox
    bash := if above.bash.isSome then mergeBashConfig base.bash above.bash else base.bash
    experimental := above.experimental.or base.experimental
    lsp := above.lsp.or base.lsp
    urlFetchAllowPrivate := above.urlFetchAllowPrivate.or base.urlFetchAllowPrivate
    semantic := above.semantic.or base.semantic
    search := above.search.or base.search
    autoUpdate := above.autoUpdate.or base.autoUpdate
    bridge := above.bridge.or base.bridge
    subc := above.subc.or base.subc
    remoteExec := mergeTrustedRemoteExec base.remoteExec above.remoteExec }

def mergeProjectConfig (base project : RawAftConfig) : RawAftConfig :=
  { base with
    indexes := mergeIndexes base.indexes project.indexes true
    disabledTools := mergeDisabledTools base.disabledTools project.disabledTools
    semantic := mergeSemanticConfig base.semantic project.semantic
    search := mergeProjectSearch base.search project.search
    lsp := mergeLspConfig base.lsp project.lsp
    experimental := mergeExperimentalConfig base.experimental project.experimental
    bash := mergeProjectBash base.bash project.bash
    sandbox := mergeProjectSandbox base.sandbox project.sandbox
    remoteExecProjectOff := base.remoteExecProjectOff ||
      (project.remoteExec.bind (·.enabled)) = some false }

/-! ## The block of the active harness -/

/-- `Harness`. -/
inductive Harness
  | opencode
  | pi
  | runner
  | mcp (client : String)
  | fed (fingerprint : String)
  deriving Repr, DecidableEq

def Harness.wireLabel : Harness → String
  | opencode => "opencode"
  | pi => "pi"
  | runner => "runner"
  | mcp client => "mcp:" ++ client
  | fed fingerprint => "fed:" ++ fingerprint

/-- `normalize_config_for_harness` on one object: Pi ignores `auto_update`. -/
def normalizeConfigForHarness (harness : Option Harness) (raw : RawAftConfig) : RawAftConfig :=
  if harness = some .pi then { raw with autoUpdate := none } else raw

def ConfigTier.activeBlock (tier : ConfigTier) (harness : Option Harness) : Option RawAftConfig :=
  match harness with
  | none => none
  | some active =>
    match tier.harnesses.bind (·.find? active.wireLabel) with
    | some (.config config) => some (normalizeConfigForHarness harness config)
    | _ => none

def refusedBashEnvError (tier : ConfigTier) (kind : BashEnvTier) (key : String)
    (harnessLabel : Option String) : String :=
  let whereSet := match harnessLabel with
    | some label => " in harnesses." ++ label
    | none => ""
  let scope := match kind with
    | .user => "cannot be configured"
    | .project => "cannot be configured by a project; set it in user config if you need it"
  tier.source ++ " has blocked bash.env key " ++ key ++ whereSet ++
    "; environment startup hooks, lookup roots, interpreter injectors, Git redirection, " ++
    "AFT controls, sandbox controls and credentials " ++ scope

/-- `raw_bash_env_refusal`: the refusal of a `bash.env` name that the tier may not set. -/
def rawBashEnvRefusal (raw : RawAftConfig) (tier : ConfigTier) (kind : BashEnvTier)
    (harnessLabel : Option String) : Option String :=
  match raw.bash with
  | some (.features features) => do
    let key ← firstRefusedEnvKey (← features.env) kind
    refusedBashEnvError tier kind key harnessLabel
  | _ => none

/-- The merge of `apply_harness_override`: the block without its `storage` replaces values of the
tier, but a project's can only turn an index off. -/
def mergeHarnessBlock (raw block : RawAftConfig) (trusted : Bool) : RawAftConfig :=
  let merged := mergeTrustedConfig raw { block with storage := none, indexes := none }
  { merged with indexes := mergeIndexes merged.indexes block.indexes !trusted }

/-- `apply_harness_override`: the tier with its active block, or the refusal of the block. -/
def applyHarnessOverride (tier : ConfigTier) (raw : RawAftConfig) (harness : Option Harness)
    (kind : BashEnvTier) : Except String RawAftConfig :=
  match tier.activeBlock harness with
  | none => .ok raw
  | some block =>
    match rawBashEnvRefusal block tier kind (harness.map Harness.wireLabel) with
    | some refusal => .error refusal
    | none => .ok (mergeHarnessBlock raw block tier.isUser)

end Aft.Settings
