import Aft.Access.Policy
import Aft.Lib.Decimal

/-!
# The stored scopes and their grants

The tables of the access store and the transactions on them. The row of an ended scope stays and
never becomes live again; what gives a scope authority is read through a live row, or was deleted at
the end and is written for live scopes only (`Tables.Ended`).
-/

namespace Aft.Access

open Function Relation

/-! ## Tables -/

structure ScopeKey where
  owner : String
  scopeRef : String
  epoch : ℕ
deriving DecidableEq, Repr

structure PolicyKey extends ScopeKey where
  projectRoot : String
  harness : String
  session : String
  principal : String
  preset : String
deriving DecidableEq, Repr

inductive AgentKind where
  | head
  | run
  | worker
deriving DecidableEq, Repr

/-- A row of `access_scopes`, with the text of its configuration. -/
structure ScopeRow where
  parent : Option ScopeKey
  config : String
  ended : Bool
deriving DecidableEq, Repr

structure Tables where
  scopes : AList fun _ : ScopeKey => ScopeRow := ∅
  grants : ScopeKey → List AccessGrant := fun _ => []
  launchParams : List (PolicyKey × String) := []
  materialized : List ScopeKey := []
  modes : ScopeKey → Option ApprovalMode := fun _ => none
  agents : ScopeKey → Option (String × AgentKind) := fun _ => none

/-- The order of the epochs, which are decimal texts: by length, then by text. -/
def epochBefore (epoch other : ℕ) : Bool :=
  let text := Nat.toDigits 10 epoch
  let otherText := Nat.toDigits 10 other
  text.length < otherText.length || text.length = otherText.length && decide (text < otherText)

theorem epochBefore_iff {epoch other : ℕ} : epochBefore epoch other = true ↔ epoch < other := by
  rw [← Nat.shortlex_toDigits_iff, List.shortlex_def]
  simp [epochBefore]

/-- `ORDER BY length(epoch) DESC, epoch DESC LIMIT 1`. -/
def newest {α : Type} (epoch : α → ℕ) (rows : List α) : Option α :=
  rows.find? fun row => !rows.any fun other => epochBefore (epoch row) (epoch other)

namespace Tables

section

variable (tables : Tables) (key : ScopeKey)

/-! ## Reads -/

/-- The row of a key, if it has not ended. -/
def liveRow : Option ScopeRow := (tables.scopes.lookup key).filter (!·.ended)

def scopeConfig : Option String := (tables.liveRow key).map (·.config)

def isKind (kind : AgentKind) : Bool :=
  (tables.agents key).any (·.2 = kind) && (tables.liveRow key).isSome

def isWorker : Bool := tables.isKind key .worker

def isHead : Bool := tables.isKind key .head

/-- The rows of one scope, by epoch. -/
def epochs (owner scopeRef : String) : List (Sigma fun _ : ScopeKey => ScopeRow) :=
  tables.scopes.entries.filter fun row => row.1.owner = owner ∧ row.1.scopeRef = scopeRef

/-- The newest epoch at or before the one asked for answers, ended or not. -/
def headPolicyScope : Option ScopeKey :=
  (newest (·.1.epoch) ((tables.epochs key.owner key.scopeRef).filter fun row =>
    row.1.epoch = key.epoch ∨ epochBefore row.1.epoch key.epoch)).bind fun row =>
      if row.2.ended then none else some row.1

def resolveScope (owner scopeRef : String) : Option ScopeKey :=
  (newest (·.1.epoch) ((tables.epochs owner scopeRef).filter (!·.2.ended))).map (·.1)

def authorized (caller target : ScopeKey) : Bool :=
  (tables.scopeConfig caller).isSome &&
    tables.resolveScope caller.owner caller.scopeRef = some caller &&
    (tables.liveRow target).any fun row => caller = target ∨ row.parent = some caller

/-- `ORDER BY path, kind`. -/
def list : List AccessGrant :=
  (tables.grants key).mergeSort fun grant other =>
    let text (path : Path) : String := "/" ++ "/".intercalate path
    text grant.path < text other.path ∨
      grant.path = other.path ∧ (grant.kind = .file ∨ other.kind = .subtree)

/-! ## Writes -/

/-- The row of an ended scope is left as it is. -/
def registerScope (parent : Option ScopeKey) (config : String) : Tables :=
  { tables with
    scopes := tables.scopes.insert key
      (((tables.scopes.lookup key).filter (·.ended)).getD ⟨parent, config, false⟩) }

def registerAgentKind (agentId : String) (kind : AgentKind) : Tables :=
  { tables with agents := update tables.agents key (some (agentId, kind)) }

def registerAgent (agentId : String) (head : Bool) : Tables :=
  tables.registerAgentKind key agentId (if head then .head else .run)

def registerWorker : Tables := tables.registerAgentKind key "" .worker

def setMode (mode : ApprovalMode) : Tables :=
  if (tables.liveRow key).isSome then { tables with modes := update tables.modes key (some mode) }
  else tables

def revoke (path : Path) : Tables × ℕ :=
  ({ tables with grants := update tables.grants key ((tables.grants key).filter (·.path ≠ path)) },
    (tables.grants key).countP (·.path = path))

def endScopeGrants : Tables where
  scopes := tables.scopes.insert key
    { (tables.scopes.lookup key).getD ⟨none, "\x7b\x7d", true⟩ with ended := true }
  grants := update tables.grants key []
  launchParams := tables.launchParams.filter (·.1.toScopeKey ≠ key)
  materialized := tables.materialized.filter (· ≠ key)
  modes := update tables.modes key none
  agents := update tables.agents key none

/-- The launch parameters of a key, with a row carried forward from its newest older epoch. -/
def catalogParams (key : PolicyKey) : Tables × Option String :=
  match tables.launchParams.find? (·.1 = key) with
  | some row => (tables, some row.2)
  | none =>
    match newest (·.1.epoch) (tables.launchParams.filter fun row =>
      { row.1 with epoch := key.epoch } = key ∧ epochBefore row.1.epoch key.epoch) with
    | none => (tables, none)
    | some older =>
      ({ tables with launchParams := tables.launchParams ++ [(key, older.2)] }, some older.2)

variable (policyPath : Path → Option Path)

/-- `policyPath` is nothing for a path that is not absolute. -/
def insert (grant : AccessGrant) : Option Tables :=
  (policyPath grant.path).map fun path =>
    if (tables.liveRow key).isNone then tables
    else
      let same (other : AccessGrant) : Bool := other.path = path ∧ other.kind = grant.kind
      let grants := tables.grants key
      { tables with
        grants := update tables.grants key
          (if grants.any same then
            grants.map fun other => if same other ∧ grant.operation = .write then
              { other with operation := .write } else other
          else grants ++ [{ grant with path }]) }

def materializeOn (grants : List AccessGrant) : Option Tables :=
  if key ∈ tables.materialized then some tables
  else
    grants.foldlM (·.insert key policyPath ·)
      { tables with materialized := tables.materialized ++ [key] }

def materialize (key : PolicyKey) (raw : String) (grants : List AccessGrant) : Option Tables :=
  if (tables.scopeConfig key.toScopeKey).isNone then none
  else
    { tables with
      launchParams :=
        if tables.launchParams.any (·.1 = key) then tables.launchParams
        else tables.launchParams ++ [(key, raw)] }.materializeOn key.toScopeKey policyPath grants

inductive LaunchRestore where
  | materialized
  | alreadyMaterialized
  | noParams
deriving DecidableEq, Repr

/-- `validate` may read the tables; an error and an early answer write nothing. -/
def restoreLaunch (key : PolicyKey) (validate : Tables → String → Option (List AccessGrant)) :
    Option (Tables × LaunchRestore) :=
  if key.toScopeKey ∈ tables.materialized then some (tables, .alreadyMaterialized)
  else
    match tables.catalogParams key with
    | (_, none) => some (tables, .noParams)
    | (carried, some params) => do
      let _ ← carried.scopeConfig key.toScopeKey
      let grants ← validate carried params
      let after ← carried.materializeOn key.toScopeKey policyPath grants
      some (after, .materialized)

/-- The transactions that commit. -/
inductive Step : Tables → Prop
  | registerScope (scope parent config) : Step (tables.registerScope scope parent config)
  | registerAgent (scope agentId head) : Step (tables.registerAgent scope agentId head)
  | registerWorker (scope) : Step (tables.registerWorker scope)
  | setMode (scope mode) : Step (tables.setMode scope mode)
  | insert {scope grant after} (h : tables.insert scope policyPath grant = some after) : Step after
  | revoke (scope path) : Step (tables.revoke scope path).1
  | launchParams (policy) : Step (tables.catalogParams policy).1
  | materialize {policy raw grants after}
      (h : tables.materialize policyPath policy raw grants = some after) : Step after
  | restoreLaunch {policy validate answer}
      (h : tables.restoreLaunch policyPath policy validate = some answer) : Step answer.1
  | endScopeGrants (scope) : Step (tables.endScopeGrants scope)

end

/-! ## An ended scope -/

/-- The scope has an ended row and no grants. -/
structure Ended (tables : Tables) (key : ScopeKey) : Prop where
  row : ∃ row ∈ tables.scopes.lookup key, row.ended = true
  grants : tables.grants key = []

variable {policyPath : Path → Option Path} {tables after : Tables} {key scope : ScopeKey}

theorem ended_endScopeGrants : (tables.endScopeGrants key).Ended key :=
  ⟨⟨_, AList.lookup_insert _, rfl⟩, update_self ..⟩

namespace Ended

section Steps

variable (h : tables.Ended key)

include h

theorem liveRow : tables.liveRow key = none := by
  obtain ⟨row, hrow, he⟩ := h.row
  rw [Tables.liveRow, Option.mem_def.1 hrow]
  simp [he]

theorem of_eq (hs : after.scopes = tables.scopes) (hg : after.grants = tables.grants) :
    after.Ended key :=
  ⟨hs ▸ h.row, hg ▸ h.grants⟩

theorem insert {grant : AccessGrant} (hi : tables.insert scope policyPath grant = some after) :
    after.Ended key := by
  obtain ⟨path, -, rfl⟩ := Option.map_eq_some_iff.1 hi
  by_cases hl : (tables.liveRow scope).isNone
  · rw [if_pos hl]
    exact h
  · rw [if_neg hl]
    refine ⟨h.row, (update_of_ne ?_ _ _).trans h.grants⟩
    rintro rfl
    simp [h.liveRow] at hl

theorem materializeOn {grants : List AccessGrant}
    (hm : tables.materializeOn scope policyPath grants = some after) : after.Ended key := by
  unfold Tables.materializeOn at hm
  split_ifs at hm
  · cases hm
    exact h
  · have hstart : Ended { tables with materialized := tables.materialized ++ [scope] } key :=
      h.of_eq rfl rfl
    generalize { tables with materialized := tables.materialized ++ [scope] } = start at hstart hm
    induction grants generalizing start with
    | nil =>
      cases hm
      exact hstart
    | cons grant grants ih =>
      obtain ⟨next, hi, hm⟩ := Option.bind_eq_some_iff.1 (List.foldlM_cons.symm.trans hm)
      exact ih _ (hstart.insert hi) hm

theorem catalogParams (policy : PolicyKey) : (tables.catalogParams policy).1.Ended key := by
  unfold Tables.catalogParams
  split
  · exact h
  · split
    · exact h
    · exact h.of_eq rfl rfl

theorem restoreLaunch {policy : PolicyKey} {validate : Tables → String → Option (List AccessGrant)}
    {answer : Tables × LaunchRestore}
    (hr : tables.restoreLaunch policyPath policy validate = some answer) :
    answer.1.Ended key := by
  unfold Tables.restoreLaunch at hr
  split_ifs at hr
  · cases hr
    exact h
  · have hc := h.catalogParams policy
    split at hr
    next =>
      cases hr
      exact h
    next carried params heq =>
      rw [heq] at hc
      obtain ⟨-, -, hr⟩ := Option.bind_eq_some_iff.1 hr
      obtain ⟨grants, -, hr⟩ := Option.bind_eq_some_iff.1 hr
      obtain ⟨after, hm, hr⟩ := Option.bind_eq_some_iff.1 hr
      cases hr
      exact hc.materializeOn hm

/-- Whatever commits, an ended scope stays ended. -/
theorem step (hs : Step tables policyPath after) : after.Ended key := by
  cases hs with
  | registerScope scope parent config =>
    refine ⟨?_, h.grants⟩
    obtain ⟨row, hrow, he⟩ := h.row
    by_cases hk : key = scope
    · subst hk
      refine ⟨row, ?_, he⟩
      simp [Tables.registerScope, Option.mem_def.1 hrow, Option.filter_some, he]
    · exact ⟨row, (AList.lookup_insert_ne hk).trans hrow, he⟩
  | registerAgent scope agentId head => exact h.of_eq rfl rfl
  | registerWorker scope => exact h.of_eq rfl rfl
  | setMode scope mode =>
    unfold setMode
    split_ifs
    · exact h.of_eq rfl rfl
    · exact h
  | insert hi => exact h.insert hi
  | revoke scope path =>
    refine ⟨h.row, ?_⟩
    by_cases hk : key = scope
    · subst hk
      simp [Tables.revoke, h.grants]
    · exact (update_of_ne hk _ _).trans h.grants
  | launchParams policy => exact h.catalogParams policy
  | materialize hm =>
    unfold materialize at hm
    split at hm
    · cases hm
    · refine Ended.materializeOn ?_ hm
      exact h.of_eq rfl rfl
  | restoreLaunch hr => exact h.restoreLaunch hr
  | endScopeGrants scope =>
    by_cases hk : key = scope
    · exact hk ▸ ended_endScopeGrants
    · obtain ⟨row, hrow, he⟩ := h.row
      exact ⟨⟨row, (AList.lookup_insert_ne hk).trans hrow, he⟩,
        (update_of_ne hk _ _).trans h.grants⟩

theorem run (hr : ReflTransGen (Step · policyPath) tables after) : after.Ended key := by
  induction hr with
  | refl => exact h
  | tail _ hs ih => exact ih.step hs

theorem headPolicyScope {epoch : ℕ} (hle : key.epoch ≤ epoch)
    (hnext : ∀ row ∈ tables.epochs key.owner key.scopeRef, key.epoch < row.1.epoch →
      epoch < row.1.epoch) :
    tables.headPolicyScope { key with epoch } = none := by
  obtain ⟨own, hown, he⟩ := h.row
  refine Option.bind_eq_none_iff.2 fun found hfound => ?_
  have hnew := List.find?_some hfound
  obtain ⟨hmem, hup⟩ := List.mem_filter.1 (List.mem_of_find?_eq_some hfound)
  obtain ⟨hen, hsame⟩ := List.mem_filter.1 hmem
  simp only [decide_eq_true_eq, Bool.not_eq_true', List.any_eq_false, epochBefore_iff]
    at hup hsame hnew
  -- The row of the ended scope was a candidate, so the newest one is not older.
  have hge : key.epoch ≤ found.1.epoch := by
    refine not_lt.1 (hnew ⟨key, own⟩ (List.mem_filter.2 ⟨List.mem_filter.2 ⟨?_, ?_⟩, ?_⟩))
    · exact AList.mem_lookup_iff.1 hown
    · simp
    · exact decide_eq_true hle.eq_or_lt
  have hlt : ¬ key.epoch < found.1.epoch := fun hlt => by
    have := hnext found hmem hlt
    omega
  have hk : found.1 = key := by
    obtain ⟨⟨owner, scopeRef, other⟩, row⟩ := found
    cases key
    simp_all
    omega
  obtain ⟨_, row⟩ := found
  subst hk
  obtain rfl := Option.mem_unique hown (AList.mem_lookup_iff.2 hen)
  exact if_pos he

end Steps

end Ended

/-- Whatever commits after the end of a scope, nothing gives it authority again, and its row hides
older epochs. -/
theorem ended_scope_stays_ended
    (hrun : ReflTransGen (Step · policyPath) (tables.endScopeGrants key) after) :
    after.list key = [] ∧ after.scopeConfig key = none ∧
      after.isHead key = false ∧ after.isWorker key = false ∧
      (∀ other, after.authorized key other = false ∧ after.authorized other key = false) ∧
      ∀ epoch ≥ key.epoch, (∀ row ∈ after.epochs key.owner key.scopeRef,
        key.epoch < row.1.epoch → epoch < row.1.epoch) →
          after.headPolicyScope { key with epoch } = none := by
  have h : after.Ended key := ended_endScopeGrants.run hrun
  have hconfig : after.scopeConfig key = none := by
    rw [scopeConfig, h.liveRow]
    rfl
  have hkind (kind : AgentKind) : after.isKind key kind = false := by simp [isKind, h.liveRow]
  refine ⟨?_, hconfig, hkind .head, hkind .worker, fun other => ⟨?_, ?_⟩, fun epoch hle hnext => ?_⟩
  · simp [list, h.grants]
  · simp [authorized, hconfig]
  · simp [authorized, h.liveRow]
  · exact h.headPolicyScope hle hnext

/-- A registration that comes after the end. -/
theorem late_registration_stays_ended :
    (((({} : Tables).endScopeGrants ⟨"head", "s", 10⟩).registerScope ⟨"head", "s", 10⟩ none
      "").scopeConfig ⟨"head", "s", 10⟩) = none :=
  (@ended_scope_stays_ended some _ _ _ (.single (.registerScope _ none ""))).2.1

end Tables

end Aft.Access
