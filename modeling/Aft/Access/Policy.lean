import Mathlib

/-!
# The access policy of a route

The decisions of `AccessPolicy`: floors that refuse a path whatever else allows it, the roots,
exceptions and grants that allow it, and the decisions on a whole subtree. What the policy asks its
surroundings (`Host`) and how the platform compares names (`Platform`) are parameters.
-/

namespace Aft.Access

/-- The components of an absolute path. -/
abbrev Path := List String

/-- How names are compared where only a refusal may follow: exactly, or up to case and
decomposition. -/
structure Platform where
  sameName : String → String → Bool
  refl : ∀ name, sameName name name = true
  symm : ∀ {name other}, sameName name other = true → sameName other name = true
  trans : ∀ {name other third}, sameName name other = true → sameName other third = true →
    sameName name third = true

/-- `Path::starts_with`. -/
def startsWith (path root : Path) : Bool := root.isPrefixOf path

namespace Platform

/-- `floor_contains`: the path is at or below the prefix. -/
def floorContains (platform : Platform) : Path → Path → Bool
  | _, [] => true
  | [], _ :: _ => false
  | actual :: path, expected :: floor =>
    platform.sameName actual expected && platform.floorContains path floor

end Platform

inductive AccessOperation where
  | read
  | write
deriving DecidableEq, Repr

inductive ScopeGrantsDenial where
  | flow
  | unknownScopeKind
  | notSessionHost
deriving DecidableEq, Repr

inductive AccessDenial where
  | floor
  | outsideRoots
  | readOnly
  | unsafeTemp
  | scopeGrants (reason : ScopeGrantsDenial)
deriving DecidableEq, Repr

inductive AccessDecision where
  | allow
  | ask
  | deny (denial : AccessDenial)
deriving DecidableEq, Repr

inductive ApprovalMode where
  | fullAccess
  | ask
  | readOnly
deriving DecidableEq, Repr

inductive GrantKind where
  | file
  | subtree
deriving DecidableEq, Repr

structure AccessGrant where
  path : Path
  kind : GrantKind
  operation : AccessOperation
deriving DecidableEq, Repr

/-- Write implies read, and a subtree matches by whole path component. -/
def AccessGrant.covers (grant : AccessGrant) (operation : AccessOperation) (path : Path) : Bool :=
  (grant.operation = .write ∨ operation = .read) &&
    match grant.kind with
    | .file => path = grant.path
    | .subtree => startsWith path grant.path

inductive FloorRule where
  | credentialPath
  | cortexkitConfig
  | cortexkitModuleData
  | cortexkitModuleState
  | aftStorage
  | sessionStore
  | subcConnection
  | configuredReadDeny
  | taskEnvironment
  | policyFloor
deriving DecidableEq, Repr

structure PolicyFloor where
  path : Path
  rule : FloorRule
deriving DecidableEq, Repr

/-- The private stores: denied paths, and the exceptions for reading and writing. -/
structure SandboxDataPolicy where
  deny : List Path
  readAllow : List Path
  writeAllow : List Path
deriving DecidableEq, Repr

structure AccessPolicy where
  roots : List Path
  mode : ApprovalMode
  outside : AccessDecision
  absoluteFloor : List Path
  floorRules : List PolicyFloor
  privateStores : SandboxDataPolicy
  grants : List AccessGrant
  workerReadGrants : List AccessGrant
  scopeGrantsDenial : Option ScopeGrantsDenial
  privateStoreCarveouts : List Path
  standaloneTempRoots : List Path
  standaloneTempGuardRoots : List Path
  standaloneManagedTempRoots : List Path
  standaloneOwnedScratch : Bool
  standaloneMainRoots : List Path
deriving DecidableEq, Repr

/-- What a decision asks about a path, and the denial of scope grants for the calling thread. -/
structure Host where
  isTaskEnvironment : Path → Bool
  isLiveSqliteFile : Path → Bool
  isScratch : Path → Bool
  safeFile : Path → Bool
  safeTree : Path → List Path → Bool → Bool
  scopeGrantsDenial : Option ScopeGrantsDenial

namespace AccessPolicy

variable (platform : Platform) (host : Host)

/-! ## Floors -/

variable (policy : AccessPolicy)

def describeFloor (path : Path) : PolicyFloor :=
  (policy.floorRules.find? (·.path = path)).getD ⟨path, .policyFloor⟩

def exceptions : AccessOperation → List Path
  | .read => policy.privateStores.readAllow
  | .write => policy.privateStores.writeAllow

variable (operation : AccessOperation)

/-- The path is outside the private-store floor. -/
def exempt (path : Path) : Bool :=
  (policy.exceptions operation).any (startsWith path) ||
    policy.privateStoreCarveouts.any (startsWith path)

/-- What one denied path says about a path; the staging directory leaves the module-data floor
only. -/
def storeFloor (path floor : Path) : Option PolicyFloor :=
  if platform.floorContains path floor then
    let matched := policy.describeFloor floor
    if matched.rule = .cortexkitModuleData ∧ startsWith path (floor ++ ["staging"]) then
      policy.floorRules.find? fun other =>
        other.path = floor ∧ other.rule ≠ .cortexkitModuleData
    else some matched
  else none

def floorForPath (path : Path) (ownedArtifact : Bool) : Option PolicyFloor :=
  let ownedRead : Bool := operation = .read ∧ ownedArtifact
  if host.isTaskEnvironment path then some ⟨path, .taskEnvironment⟩
  else
    match policy.absoluteFloor.find? (platform.floorContains path) with
    | some floor => some (policy.describeFloor floor)
    | none =>
      match (if ownedRead then none else policy.floorRules.find? fun floor =>
          floor.rule = .aftStorage ∧ platform.floorContains path floor.path) with
      | some floor => some floor
      | none =>
        if host.isLiveSqliteFile path then some ⟨path, .aftStorage⟩
        else if ¬ policy.exempt operation path ∧ ¬ ownedRead then
          policy.privateStores.deny.findSome? (policy.storeFloor platform path)
        else none

/-! ## Decisions -/

def grantsDenial : Option ScopeGrantsDenial :=
  policy.scopeGrantsDenial.or host.scopeGrantsDenial

def unsafeTemp (path : Path) : Bool :=
  policy.standaloneTempGuardRoots ≠ [] ∧
    (((policy.standaloneManagedTempRoots.any (startsWith path) ∨ host.isScratch path) ∧
        ¬ policy.standaloneOwnedScratch) ∨
      (policy.standaloneTempGuardRoots.any (startsWith path) ∧ ¬ host.safeFile path))

/-- A path that needs no ask. -/
def allowed (path : Path) (ownedArtifact : Bool) : Bool :=
  policy.roots.any (startsWith path) ||
    (operation = .read && policy.standaloneMainRoots.any (startsWith path)) ||
    policy.standaloneOwnedScratch ||
    (policy.outside = .ask && policy.standaloneTempRoots.any (startsWith path)) ||
    (policy.exceptions operation).any (startsWith path) ||
    (operation = .read && ownedArtifact) ||
    policy.workerReadGrants.any (·.covers operation path) ||
    ((policy.grantsDenial host).isNone && policy.grants.any (·.covers operation path))

/-- The decision on a path that nothing allows. -/
def decideOutside : AccessDecision :=
  match policy.mode, policy.outside with
  | .fullAccess, .ask => .allow
  | _, .deny .outsideRoots =>
    (policy.grantsDenial host).elim policy.outside fun reason => .deny (.scopeGrants reason)
  | _, outside => outside

def decide (path : Path) (ownedArtifact : Bool) : AccessDecision :=
  if (policy.floorForPath platform host operation path ownedArtifact).isSome then .deny .floor
  else if policy.unsafeTemp host path then .deny .unsafeTemp
  else if policy.mode = .readOnly ∧ operation = .write ∧ ¬ policy.roots.any (startsWith path) then
    .deny .readOnly
  else if policy.allowed host operation path ownedArtifact then .allow
  else policy.decideOutside host

/-- The floor that rejects a capability: of the path, or of a protected descendant of a subtree. -/
def capabilityFloor (kind : GrantKind) (path : Path) : Option PolicyFloor :=
  let descendant := (policy.absoluteFloor ++ policy.privateStores.deny).findSome? fun floor =>
    if platform.floorContains floor path then policy.floorForPath platform host operation floor false
    else none
  (if kind = .subtree then descendant else none).or
    (policy.floorForPath platform host operation path false)

def decideTreeWrite (path : Path) : AccessDecision :=
  if (policy.capabilityFloor platform host .write .subtree path).isSome then .deny .floor
  else if policy.standaloneTempGuardRoots ≠ [] ∧
      ((policy.standaloneTempGuardRoots ++ policy.standaloneTempRoots).any (path = ·) ∨
        policy.standaloneManagedTempRoots.any fun root =>
          startsWith root path && !policy.standaloneOwnedScratch) then
    .deny .unsafeTemp
  else if policy.standaloneTempGuardRoots.any (startsWith path) ∧
      ¬ host.safeTree path policy.standaloneManagedTempRoots policy.standaloneOwnedScratch then
    .deny .unsafeTemp
  else policy.decide platform host .write path false

def decideCapability (kind : GrantKind) (path : Path) : AccessDecision :=
  match kind with
  | .file => policy.decide platform host operation path false
  | .subtree =>
    if (policy.capabilityFloor platform host operation kind path).isSome then .deny .floor
    else AccessPolicy.decide platform host
      { policy with grants := policy.grants.filter (·.kind = .subtree) } operation path false

end AccessPolicy

/-! ## Building a policy -/

/-- What `from_config` reads: the configuration, the environment and the file system. -/
structure BuildInput where
  home : Path
  storage : Path
  linux : Bool
  policyPath : Path → Path
  normalizePath : Path → Path
  expandHome : Path → Path
  readDeny : List Path
  /-- The cache root, when `cache_dir` is set. -/
  cacheRoot : Option Path
  /-- The configured connection file, made absolute. -/
  subcConnectionFile : Option Path
  environmentFloors : List PolicyFloor
  /-- `XDG_DATA_HOME`, when it is absolute. -/
  xdgDataHome : Option Path
  /-- The shims, hooks and binaries that exist and are in use. -/
  managedPaths : List Path
  restrictToProjectRoot : Bool
  hasProjectRoot : Bool

namespace BuildInput

variable (input : BuildInput)

/-- A floor at the resolved place of a path. -/
def floorAt (path : Path) (rule : FloorRule) : PolicyFloor := ⟨input.policyPath path, rule⟩

def shellWriteFloor : List PolicyFloor :=
  [input.floorAt (input.home ++ [".ssh"]) .credentialPath,
    input.floorAt (input.home ++ [".aws"]) .credentialPath,
    input.floorAt (input.home ++ [".gnupg"]) .credentialPath,
    input.floorAt (input.home ++ [".config", "gcloud"]) .credentialPath,
    input.floorAt (input.home ++ [".azure"]) .credentialPath,
    input.floorAt (input.home ++ [".config", "cortexkit"]) .cortexkitConfig] ++
  if input.linux then
    [input.floorAt ["run", "user"] .credentialPath,
      input.floorAt ["run", "credentials"] .credentialPath,
      input.floorAt ["run", "secrets"] .credentialPath]
  else []

def readDenyFloor : List PolicyFloor :=
  input.readDeny.map fun path => input.floorAt (input.expandHome path) .configuredReadDeny

def storeFloors : List PolicyFloor :=
  [input.floorAt (input.home ++ [".local", "share", "cortexkit"]) .cortexkitModuleData,
    input.floorAt (input.home ++ [".local", "state", "cortexkit"]) .cortexkitModuleState,
    input.floorAt input.storage .aftStorage,
    input.floorAt
      (input.home ++ [".local", "share", "cortexkit", "run", "subc-connection.json"])
      .subcConnection] ++
  (input.cacheRoot.map (input.floorAt · .aftStorage)).toList ++
  (input.subcConnectionFile.map (input.floorAt · .subcConnection)).toList ++
  input.environmentFloors

def carveouts : List Path :=
  (input.home ++ [".local", "share", "cortexkit", "alfonso", "worktrees"]) ::
    (input.xdgDataHome.map (· ++ ["cortexkit", "alfonso", "worktrees"])).toList

end BuildInput

/-- `OutsideRoots::from_config` and its decision. -/
def outsideDecision (restrictToProjectRoot hasProjectRoot : Bool) : AccessDecision :=
  if restrictToProjectRoot ∧ hasProjectRoot then .deny .outsideRoots else .ask

def AccessPolicy.fromConfig (input : BuildInput) (host : Host) (roots : List Path) : AccessPolicy :=
  let roots := roots.map input.normalizePath
  { roots := roots
    mode := .ask
    outside := outsideDecision input.restrictToProjectRoot input.hasProjectRoot
    absoluteFloor := (input.shellWriteFloor ++ input.readDenyFloor).map (·.path)
    floorRules := input.shellWriteFloor ++ input.readDenyFloor ++ input.storeFloors
    privateStores :=
      { deny := input.storeFloors.map (·.path)
        readAllow := roots ++ input.managedPaths.map input.policyPath
        writeAllow := roots }
    grants := []
    workerReadGrants := []
    scopeGrantsDenial := host.scopeGrantsDenial
    privateStoreCarveouts := input.carveouts.map input.policyPath
    standaloneTempRoots := []
    standaloneTempGuardRoots := []
    standaloneManagedTempRoots := []
    standaloneOwnedScratch := false
    standaloneMainRoots := [] }

/-- `install_scope_grants_from`; the worker grants are subtrees of the library sources. -/
def AccessPolicy.installScopeGrants (policy : AccessPolicy) (host : Host) (stored : List AccessGrant)
    (worker : Bool) (rustSources : List Path) : AccessPolicy :=
  let policy := { policy with
    workerReadGrants := if worker then rustSources.map (⟨·, .subtree, .read⟩) else []
    scopeGrantsDenial := policy.scopeGrantsDenial.or host.scopeGrantsDenial }
  { policy with grants := if policy.scopeGrantsDenial.isSome then [] else stored }

def AccessPolicy.addSessionStoreFloor (policy : AccessPolicy) (path : Path) : AccessPolicy :=
  { policy with
    floorRules := policy.floorRules ++ [⟨path, .sessionStore⟩]
    privateStores := { policy.privateStores with deny := policy.privateStores.deny ++ [path] } }

end Aft.Access
