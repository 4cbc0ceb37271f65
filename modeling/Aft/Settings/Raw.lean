import Aft.Lib.SortedMap

/-!
# Parsed configuration tiers

The raw shape of `aft.jsonc` after parsing, with every leaf an option. The sections modelled are
those that `security_config_section` lists, with `storage`, `bridge` and `experimental`; editing and
reporting preferences are not.
-/

namespace Aft.Settings

/-- `SandboxMode`, from least to most restrictive. -/
inductive SandboxMode
  | off
  | relaxed
  | strict
  deriving Repr, DecidableEq

def SandboxMode.rank : SandboxMode → ℕ
  | off => 0
  | relaxed => 1
  | strict => 2

theorem SandboxMode.rank_injective : Function.Injective SandboxMode.rank := by
  intro a b h
  cases a <;> cases b <;> first | rfl | exact absurd h (by decide)

instance : LinearOrder SandboxMode :=
  LinearOrder.lift' SandboxMode.rank SandboxMode.rank_injective

/-- Raw `storage` section. -/
structure RawStorage where
  cacheDir : Option String := none
  deriving Repr, DecidableEq

/-- Raw `indexes` section. -/
structure RawIndexes where
  trigram : Option Bool := none
  semantic : Option Bool := none
  callgraph : Option Bool := none
  deriving Repr, DecidableEq

/-- One standing index root of the raw `index` section. -/
structure RawIndexRoot where
  path : Option String := none
  indexes : Option (List String) := none
  deriving Repr, DecidableEq

/-- Raw `index` section. -/
structure RawIndex where
  roots : Option (List RawIndexRoot) := none
  deriving Repr, DecidableEq

inductive SemanticBackend
  | fastembed
  | openAiCompatible
  | ollama
  | synapse
  deriving Repr, DecidableEq

/-- Raw `semantic` section. -/
structure RawSemantic where
  backend : Option SemanticBackend := none
  model : Option String := none
  baseUrl : Option String := none
  apiKeyEnv : Option String := none
  timeoutMs : Option ℕ := none
  queryTimeoutMs : Option ℕ := none
  queryInstruction : Option String := none
  maxBatchSize : Option ℕ := none
  maxInputTokens : Option ℕ := none
  maxFiles : Option ℕ := none
  deriving Repr, DecidableEq

def RawSemantic.isEmpty (semantic : RawSemantic) : Bool := semantic = {}

inductive RerankBackendKind
  | off
  | onnx
  | remote
  | synapse
  deriving Repr, DecidableEq

/-- Raw `search.rerank`, carried unchanged into the resolved configuration. -/
structure RerankConfig where
  backend : Option RerankBackendKind := none
  model : Option String := none
  endpoint : Option String := none
  apiKeyEnv : Option String := none
  topN : Option ℕ := none
  timeoutMs : Option ℕ := none
  deriving Repr, DecidableEq

/-- Raw `search` section. -/
structure RawSearch where
  rerank : Option RerankConfig := none
  deriving Repr, DecidableEq

inductive LspIdleMinutes
  | minutes (value : ℕ)
  | never
  deriving Repr, DecidableEq

def defaultLspIdleMinutes : LspIdleMinutes := .minutes 60

/-- `LspIdleMinutes::tightens`: whether `next` keeps servers no longer than `floor` does. -/
def LspIdleMinutes.tightens : (next floor : LspIdleMinutes) → Bool
  | _, .never => true
  | .minutes next, .minutes before => next ≤ before
  | .never, .minutes _ => false

inductive RawPythonLsp
  | pyright
  | ty
  | auto
  deriving Repr, DecidableEq

/-- One entry of `lsp.servers`; the initialization options are kept as their text. -/
structure RawLspServerEntry where
  extensions : Option (List String) := none
  binary : Option String := none
  args : Option (List String) := none
  rootMarkers : Option (List String) := none
  disabled : Option Bool := none
  env : Option (SortedMap String String) := none
  initializationOptions : Option String := none
  deriving DecidableEq

/-- Raw `lsp` section. -/
structure RawLsp where
  idleMinutes : Option LspIdleMinutes := none
  servers : Option (SortedMap String RawLspServerEntry) := none
  disabled : Option (List String) := none
  python : Option RawPythonLsp := none
  diagnosticsOnEdit : Option Bool := none
  autoInstall : Option Bool := none
  graceDays : Option ℕ := none
  versions : Option (SortedMap String String) := none
  deriving DecidableEq

def RawLsp.isEmpty (lsp : RawLsp) : Bool := lsp = {}

inductive BashChangedFiles
  | off
  | list
  | diff
  deriving Repr, DecidableEq

/-- The object form of the raw `bash` section; only `projectSafeBash` fills `projectEnv`. -/
structure RawBashFeatures where
  changedFiles : Option BashChangedFiles := none
  enabled : Option Bool := none
  rewrite : Option Bool := none
  compress : Option Bool := none
  background : Option Bool := none
  hostFallback : Option Bool := none
  runonEnabled : Option Bool := none
  subagentBackground : Option Bool := none
  detachOnUserMessage : Option Bool := none
  dbSchemaHints : Option Bool := none
  longRunningReminderEnabled : Option Bool := none
  longRunningReminderIntervalMs : Option ℕ := none
  foregroundWaitWindowMs : Option ℕ := none
  watchSyncMaxMs : Option ℕ := none
  workerWaitMaxMs : Option ℕ := none
  linuxScope : Option Bool := none
  memoryLimitMib : Option ℕ := none
  disclaimPrivacy : Option Bool := none
  powershellTool : Option Bool := none
  env : Option (SortedMap String String) := none
  projectEnv : Option (SortedMap String String) := none
  runonEnv : Option (List String) := none
  deriving DecidableEq

/-- Raw `bash` section: a boolean or an object. -/
inductive RawBash
  | bool (enabled : Bool)
  | features (features : RawBashFeatures)
  deriving DecidableEq

/-- Raw `experimental.bash`. -/
structure RawExperimentalBash where
  rewrite : Option Bool := none
  compress : Option Bool := none
  background : Option Bool := none
  longRunningReminderEnabled : Option Bool := none
  longRunningReminderIntervalMs : Option ℕ := none
  deriving Repr, DecidableEq

def RawExperimentalBash.hasAnyValue (bash : RawExperimentalBash) : Bool := bash ≠ {}

def RawExperimentalBash.hasLegacyFeatureFlag (bash : RawExperimentalBash) : Bool :=
  bash.rewrite.isSome || bash.compress.isSome || bash.background.isSome

/-- Raw `experimental` section. -/
structure RawExperimental where
  bash : Option RawExperimentalBash := none
  lspTy : Option Bool := none
  deriving Repr, DecidableEq

def RawExperimental.isEmpty (experimental : RawExperimental) : Bool := experimental = {}

/-- Raw `bridge` section. -/
structure RawBridge where
  requestTimeoutMs : Option ℕ := none
  deriving Repr, DecidableEq

/-- Raw `subc` section. -/
structure RawSubc where
  connectionFile : Option String := none
  clientReaper : Option Bool := none
  deriving Repr, DecidableEq

/-- Raw `github` section. -/
structure RawGithub where
  shim : Option Bool := none
  read : Option Bool := none
  write : Option Bool := none
  deriving Repr, DecidableEq

/-- Raw `gh_shim` section. -/
structure RawGhShim where
  binaryPath : Option String := none
  deriving Repr, DecidableEq

/-- Raw `remote_exec` section. -/
structure RawRemoteExec where
  enabled : Option Bool := none
  defaultDemand : Option String := none
  deriving Repr, DecidableEq

structure RawSandboxRoles where
  worker : Option SandboxMode := none
  head : Option SandboxMode := none
  deriving Repr, DecidableEq

/-- Raw `sandbox` section. -/
structure RawSandbox where
  profile : Option RawSandboxRoles := none
  writeAllow : Option (List String) := none
  readDeny : Option (List String) := none
  deriving Repr, DecidableEq

/-- One parsed configuration object, without its `harnesses`; a merged project tier sets
`remoteExecProjectOff`. -/
structure RawAftConfig where
  storage : Option RawStorage := none
  disabledTools : Option (List String) := none
  restrictToProjectRoot : Option Bool := none
  indexes : Option RawIndexes := none
  index : Option RawIndex := none
  github : Option RawGithub := none
  ghShim : Option RawGhShim := none
  sandbox : Option RawSandbox := none
  bash : Option RawBash := none
  experimental : Option RawExperimental := none
  lsp : Option RawLsp := none
  urlFetchAllowPrivate : Option Bool := none
  semantic : Option RawSemantic := none
  search : Option RawSearch := none
  autoUpdate : Option Bool := none
  bridge : Option RawBridge := none
  subc : Option RawSubc := none
  remoteExec : Option RawRemoteExec := none
  remoteExecProjectOff : Bool := false
  deriving DecidableEq

/-- The value of one `harnesses.<name>` key: no object, one without the root shape, or a
configuration. -/
inductive HarnessBlock
  | notObject
  | invalid
  | config (config : RawAftConfig)
  deriving DecidableEq

/-- `ConfigTier` with its document parsed. A tier labelled `user` is trusted, any other is a
project. `nullCacheDir` says that `storage.cache_dir` is null. -/
structure ConfigTier where
  tier : String
  source : String := ""
  raw : RawAftConfig := {}
  harnesses : Option (SortedMap String HarnessBlock) := none
  nullCacheDir : Bool := false
  deriving DecidableEq

def ConfigTier.isUser (tier : ConfigTier) : Bool := tier.tier = "user"

/-! ## Names that `bash.env` may not set

All comparisons ignore the case of ASCII letters. -/

/-- Names refused at every tier. -/
def blockedEnvVars : List String :=
  ["LD_PRELOAD", "LD_LIBRARY_PATH", "LD_AUDIT", "DYLD_INSERT_LIBRARIES", "DYLD_LIBRARY_PATH",
   "DYLD_FALLBACK_LIBRARY_PATH", "BASH_ENV", "ENV", "IFS", "PATH", "SHELLOPTS", "BASHOPTS",
   "PROMPT_COMMAND", "PS4", "PYTHONSTARTUP", "PYTHONPATH", "PYTHONHOME", "PERL5OPT", "PERL5LIB",
   "PERLLIB", "PERL5DB", "RUBYOPT", "RUBYLIB", "NODE_OPTIONS", "GCONV_PATH", "LOCPATH",
   "NLSPATH", "HOSTALIASES", "RESOLV_HOST_CONF", "HOME", "SHELL", "TMPDIR", "TMP", "TEMP",
   "XDG_CONFIG_HOME", "XDG_DATA_HOME", "XDG_CACHE_HOME", "XDG_STATE_HOME", "XDG_RUNTIME_DIR",
   "CARGO_HOME", "RUSTUP_HOME", "USERPROFILE", "APPDATA", "LOCALAPPDATA", "COMSPEC", "PATHEXT",
   "SYSTEMROOT", "PSMODULEPATH", "NODE_PATH", "JAVA_TOOL_OPTIONS", "_JAVA_OPTIONS",
   "JDK_JAVA_OPTIONS", "PYTHONUSERBASE", "GIT_DIR", "GIT_WORK_TREE", "GIT_COMMON_DIR",
   "GIT_INDEX_FILE", "GIT_OBJECT_DIRECTORY", "GIT_ALTERNATE_OBJECT_DIRECTORIES",
   "GIT_CEILING_DIRECTORIES", "GIT_EXEC_PATH", "GIT_TEMPLATE_DIR", "GIT_SSH", "GIT_SSH_COMMAND",
   "GIT_ASKPASS", "SSH_ASKPASS", "GIT_EXTERNAL_DIFF", "GIT_PROXY_COMMAND", "RUSTC_WRAPPER",
   "CARGO_BUILD_RUSTC_WRAPPER", "RUSTC_WORKSPACE_WRAPPER", "RUST_TEST_THREADS",
   "NEXTEST_TEST_THREADS", "DBUS_SESSION_BUS_ADDRESS"]

/-- Beginnings refused at every tier. -/
def blockedEnvPrefixes : List String :=
  ["LD_", "DYLD_", "BASH_FUNC_", "GIT_CONFIG", "AFT_", "SUBC_", "CORTEXKIT_", "CORTEX_", "CK_",
   "SCCACHE_"]

/-- Startup hooks that run before a command enters its sandbox. -/
def preexecHijackNames : List String :=
  ["BASH_ENV", "ENV", "SHELLOPTS", "BASHOPTS", "PROMPT_COMMAND", "PS4", "IFS", "PYTHONSTARTUP",
   "PYTHONPATH", "PYTHONHOME", "PERL5OPT", "PERL5LIB", "PERLLIB", "PERL5DB", "RUBYOPT",
   "RUBYLIB", "NODE_OPTIONS", "GCONV_PATH", "LOCPATH", "NLSPATH", "HOSTALIASES",
   "RESOLV_HOST_CONF"]

def projectOnlyBlockedEnvVars : List String :=
  ["SSH_AUTH_SOCK", "GOOGLE_APPLICATION_CREDENTIALS", "KUBECONFIG", "DOCKER_HOST",
   "DOCKER_CONFIG", "HTTP_PROXY", "HTTPS_PROXY", "ALL_PROXY", "NO_PROXY", "SSL_CERT_FILE",
   "SSL_CERT_DIR", "NODE_EXTRA_CA_CERTS", "REQUESTS_CA_BUNDLE", "CURL_CA_BUNDLE",
   "GIT_SSL_NO_VERIFY", "NODE_TLS_REJECT_UNAUTHORIZED"]

def projectOnlyBlockedEnvSubstrings : List String :=
  ["TOKEN", "SECRET", "PASSWORD", "PASSWD", "PRIVATE_KEY", "API_KEY", "CREDENTIAL"]

def projectOnlyBlockedEnvPrefixes : List String :=
  ["AWS_", "GH_", "GITHUB_"]

/-- Which tier a `bash.env` map came from. -/
inductive BashEnvTier
  | user
  | project
  deriving Repr, DecidableEq

/-- `to_ascii_uppercase`, on characters. -/
def upper (text : String) : List Char := text.toList.map Char.toUpper

def matchesName (key name : String) : Bool := upper key = upper name

def startsWithPrefix (key start : String) : Bool := (upper start).isPrefixOf (upper key)

def isPreexecHijackEnvKey (key : String) : Bool :=
  ["LD_", "DYLD_", "BASH_FUNC_"].any (startsWithPrefix key) ||
    preexecHijackNames.any (matchesName key)

def isBlockedEnvKey (key : String) : Bool :=
  blockedEnvVars.any (matchesName key) || blockedEnvPrefixes.any (startsWithPrefix key) ||
    isPreexecHijackEnvKey key

/-- Whether `key` may not be set by a project. -/
def isProjectBlockedEnvKey (key : String) : Bool :=
  isBlockedEnvKey key || projectOnlyBlockedEnvVars.any (matchesName key) ||
    projectOnlyBlockedEnvPrefixes.any (startsWithPrefix key) ||
    projectOnlyBlockedEnvSubstrings.any fun part => part.toList <:+: upper key

/-- The first name of `env` that `tier` may not set. -/
def firstRefusedEnvKey (env : SortedMap String String) (tier : BashEnvTier) : Option String :=
  env.keys.find? fun key =>
    match tier with
    | .user => isBlockedEnvKey key
    | .project => isProjectBlockedEnvKey key

end Aft.Settings
