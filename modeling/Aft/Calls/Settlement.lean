import Aft.Lib.Json
import Aft.Lib.SortedMap

/-!
# The call ledger

One row per admitted call, keyed by the carrier and the call key; one row per held update; and for
each custodian the last sequence number handed out. A frame's body is kept as the value that its
bytes parse to, `none` for bytes that are not JSON; a late entry as the fields of its object. The
transactions here are those other than withdrawal and the late results; one that fails is rolled
back, and returns `none`.
-/

namespace Aft.Calls

/-- `RETENTION_MS`: a day. -/
def retentionMs : ℤ := 24 * 60 * 60 * 1000

def unackedResultsMax : ℕ := 1000

def expiredEntriesMax : ℕ := 1000

/-! ## Rows -/

/-- The identity of a call. -/
structure Key where
  carrier : String
  callKey : String
  deriving DecidableEq, Repr

instance : LinearOrder Key :=
  LinearOrder.lift' (fun key => toLex (key.carrier, key.callKey)) fun a b h => by
    cases a
    cases b
    simpa using h

/-- The scope that a call was admitted under. -/
structure ScopeIdentity where
  owner : String
  scopeRef : String
  scopeEpoch : ℕ
  deriving DecidableEq, Repr

/-- How far a call has come. -/
inductive State
  | prepared
  | authorized
  | dispatchStarted
  | settled
  deriving DecidableEq, Repr

/-- The kind of a recorded frame: every other frame type is recorded as an error. -/
inductive FrameType
  | response
  | streamEnd
  | error
  deriving DecidableEq, Repr

/-- The frame that a call ended with, or the held reply that it waits under. -/
structure RecordedFrame where
  ty : FrameType
  body : Option Json

/-- One admitted call. -/
structure Row where
  digest : String
  state : State
  scope : Option ScopeIdentity
  taskId : Option String := none
  withdrawAnswer : Option (List Char) := none
  frame : Option RecordedFrame := none
  outcome : Option String := none
  eventId : String
  settledAt : Option ℤ := none
  seq : Option ℕ := none
  acked : Bool := false
  lateEntry : Option (List (String × Json)) := none
  recovered : Bool := false
  toolResultSource : Option (List UInt8) := none

/-- One held update; an entry that was served or dropped for good is cleared. -/
structure Update where
  key : Key
  approvalKey : String
  ordinal : ℕ
  custodian : String
  seq : ℕ
  eventId : String
  settledAt : ℤ
  entry : Option Json

structure Ledger where
  rows : SortedMap Key Row := .empty
  updates : List Update := []
  lastSeq : String → ℕ := fun _ => 0

def Row.custodian (row : Row) : Option String := row.scope.map ScopeIdentity.owner

/-- The `kind` of a row's late entry, as `json_extract` reads it: null counts as missing. -/
def Row.kind (row : Row) : Option Json :=
  match row.lateEntry.bind (Json.lookup · "kind") with
  | some .null => none
  | kind => kind

def Row.heldReason (row : Row) : Option String :=
  ((row.frame.bind RecordedFrame.body).getD .null |>.field "held" |>.field "reason").asStr

def Row.hasHeldReply (row : Row) : Bool :=
  (row.frame.bind RecordedFrame.body).any (Json.hasField · "held")

namespace Ledger

/-! ## Statements -/

variable (ledger : Ledger)

def get (key : Key) : Option Row := ledger.rows.find? key

def set (key : Key) (row : Row) : Ledger :=
  { ledger with rows := ledger.rows.insert key row }

/-- `UPDATE … WHERE carrier AND call_key AND …`: change the row if `change` gives one, and say
so. -/
def update (key : Key) (change : Row → Option Row) : Ledger × Bool :=
  match (ledger.get key).bind change with
  | some row => (ledger.set key row, true)
  | none => (ledger, false)

/-- `DELETE … WHERE carrier AND call_key`; the updates of the call go with it. -/
def delete (key : Key) : Ledger :=
  { ledger with
    rows := ledger.rows.erase key
    updates := ledger.updates.filter fun update => update.key ≠ key }

/-- Clear the entries of the updates that `cleared` selects. -/
def clearUpdates (cleared : Update → Bool) : Ledger :=
  { ledger with
    updates := ledger.updates.map fun update =>
      if cleared update then { update with entry := none } else update }

/-- Hand out the next number of a custodian; one past the range of the column fails the
transaction. -/
def allocate (custodian : String) : Option (Ledger × ℕ) :=
  let seq := ledger.lastSeq custodian + 1
  if seq < 2 ^ 63 then
    some ({ ledger with lastSeq := Function.update ledger.lastSeq custodian seq }, seq)
  else none

/-! ## Retention -/

def newestFirst (custodian : String) : List (Key × Row) :=
  (ledger.rows.entries.filter fun entry =>
    entry.2.custodian = some custodian ∧ entry.2.lateEntry.isSome).insertionSort
      fun a b => b.2.seq.getD 0 ≤ a.2.seq.getD 0

/-- Whether the entry of a row has expired, which needs an error frame; `none` without a kind. -/
def expiredKind (row : Row) : Option Bool :=
  if row.frame.any fun frame => frame.ty = .error then
    row.kind.map fun kind => kind.asStr = some "expired"
  else some false

/-- The keys past the bounds, newest first, after so many unexpired and expired entries. -/
def overBounds : List (Key × Row) → (unexpired expired : ℕ) → List Key
  | [], _, _ => []
  | (key, row) :: rest, unexpired, expired =>
    match expiredKind row with
    | some false =>
      if unexpired < unackedResultsMax then overBounds rest (unexpired + 1) expired
      else key :: overBounds rest (unexpired + 1) expired
    | some true =>
      if expired < expiredEntriesMax then overBounds rest unexpired (expired + 1)
      else key :: overBounds rest unexpired (expired + 1)
    | none => overBounds rest unexpired expired

def dropLateEntriesOverBounds (custodian : String) : Ledger :=
  (overBounds (ledger.newestFirst custodian) 0 0).foldl delete ledger

/-- The stored updates of a custodian past the newest `unackedResultsMax`. -/
def oldUpdates (custodian : String) : List Update :=
  ((ledger.updates.filter fun update => update.custodian = custodian ∧ update.entry.isSome)
    |>.insertionSort fun a b => b.seq ≤ a.seq).drop unackedResultsMax

def enforceRetentionBounds (custodian : String) : Ledger :=
  let overEitherBound := min unackedResultsMax expiredEntriesMax <
    (ledger.rows.entries.filter fun entry => entry.2.custodian = some custodian).length
  let ledger := if overEitherBound then ledger.dropLateEntriesOverBounds custodian else ledger
  let overUpdateBound := unackedResultsMax <
    (ledger.updates.filter fun update => update.custodian = custodian).length
  if overUpdateBound then
    let old := (ledger.oldUpdates custodian).map fun update => (update.key, update.approvalKey)
    ledger.clearUpdates fun update => (update.key, update.approvalKey) ∈ old
  else ledger

end Ledger

/-! ## Limits -/

def sweepBatch : ℕ := 64

/-- `MAX_TOOL_RESULT_SOURCE_BYTES`: three mebibytes. -/
def maxToolResultSourceBytes : ℕ := 3145728

/-! ## Frames and answers -/

/-- `not_started`: the error frame of a call that never ran. -/
def notStarted (key : Key) (reason : String) : RecordedFrame :=
  ⟨.error, some (.object [("code", .string "not_started"),
    ("message", .string "call was not started"),
    ("detail", .object [("call_key", .string key.callKey), ("reason", .string reason)])])⟩

/-- `not_retained`: the error frame of a call whose result is gone. -/
def notRetained (key : Key) (outcome : String) : RecordedFrame :=
  ⟨.error, some (.object [("code", .string "result_not_retained"),
    ("message", .string "call result is no longer retained"),
    ("detail", .object [("call_key", .string key.callKey), ("outcome", .string outcome)])])⟩

def unknownHeldResult : RecordedFrame :=
  ⟨.response, some (.object [
    ("content", .array [.object [("type", .string "text"), ("text", .string "")]]),
    ("isError", .bool true), ("errorCode", .string "outcome_unknown")])⟩

/-- Why a call that never ran was refused. -/
inductive RefusalReason
  | denied
  | expired
  | scopeEnded
  deriving DecidableEq, Repr

/-- The result in a `completed` answer. -/
inductive CompletedResult
  | retained (body : Json)
  | outcomeOnly (outcome : String)

/-- An answer to `tool.withdraw`; the only outcome of a started call is that it is unknown. -/
inductive WithdrawAnswer
  | withdrawn
  | refused (reason : RefusalReason)
  | alreadyStarted
  | completed (result : CompletedResult)

def RefusalReason.word : RefusalReason → String
  | .denied => "denied"
  | .expired => "expired"
  | .scopeEnded => "scope_ended"

/-- The reply body of an answer. -/
def WithdrawAnswer.encode : WithdrawAnswer → Json
  | .withdrawn => .object [("answer", .string "withdrawn")]
  | .refused reason => .object [("answer", .string "refused"), ("reason", .string reason.word)]
  | .alreadyStarted => .object [("answer", .string "already_started"),
      ("outcome", .string "unknown")]
  | .completed (.retained body) => .object [("answer", .string "completed"), ("result", body),
      ("result_retained", .bool true)]
  | .completed (.outcomeOnly outcome) => .object [("answer", .string "completed"),
      ("outcome", .string outcome), ("result_retained", .bool false)]

def answerBytes (answer : WithdrawAnswer) : List Char := answer.encode.render

def neverRanAnswer (reason : String) : WithdrawAnswer :=
  if reason = "denied" then .refused .denied
  else if reason = "expired" then .refused .expired
  else if reason = "scope_ended" then .refused .scopeEnded
  else .withdrawn

/-! ## Admission and dispatch -/

/-- What `admit` found. -/
inductive Admission
  | new
  | repeated (row : Row)
  | conflict

namespace Ledger

variable (ledger : Ledger) (key : Key)

/-- `admit`, with the event id that a new row gets. -/
def admitCall (digest : String) (scope : Option ScopeIdentity) (state : State) (eventId : String) :
    Ledger × Admission :=
  match ledger.get key with
  | some row =>
    (ledger, if row.digest = digest ∧ row.scope = scope then .repeated row else .conflict)
  | none => (ledger.set key { digest, state, scope, eventId }, .new)

def transition (source target : State) : Ledger × Bool :=
  ledger.update key fun row => if row.state = source then some { row with state := target } else none

/-- The held body, noting whether the caller may see structured data; only an object or null takes a
field. -/
def retained (body : Option Json) (includeStructured : Bool) : Option Json :=
  match body with
  | some (.object fields) =>
    some (.object (Json.setField fields "_aft_include_structured" (.bool includeStructured)))
  | some .null => some (.object [("_aft_include_structured", .bool includeStructured)])
  | _ => none

def holdPermission (body : Option Json) (includeStructured : Bool) : Option (Ledger × Bool) :=
  (retained body includeStructured).map fun kept =>
    ledger.update key fun row =>
      if (row.state = .prepared ∨ row.state = .dispatchStarted) ∧ row.taskId = none then
        some { row with state := .prepared, frame := some ⟨.response, some kept⟩ }
      else none

def principalOwner (owner : String) : Bool :=
  owner = "direct" ∨ owner = "unverified" ∨ "reserved:".toList.isPrefixOf owner.toList

/-- `begin_approved`; `ended` is what the access grants say about the scope. -/
def beginApproved (ended : Bool) : Option (Ledger × Bool) :=
  match (ledger.get key).filter fun row => row.state = .prepared with
  | none => some (ledger, false)
  | some row =>
    if row.scope.any fun scope => !principalOwner scope.owner then none
    else if row.scope.isSome && ended then some (ledger, false)
    else
      let (ledger, first) := ledger.transition key .prepared .authorized
      let (ledger, second) := if first then ledger.transition key .authorized .dispatchStarted
        else (ledger, false)
      some (ledger, second)

/-- `hold_running`: keep the frame of an earlier consent hold. -/
def holdRunning (taskId : String) (body : Option Json) (includeStructured : Bool) :
    Option (Ledger × Bool) := do
  let row ← ledger.get key
  let consent := row.heldReason = some "consent"
  if row.state ≠ .dispatchStarted ∨ row.taskId ≠ some taskId then none
  else
    let kept ← retained body includeStructured
    let frame := if consent then row.frame.map fun frame => ⟨.response, frame.body⟩
      else some ⟨.response, some kept⟩
    some (ledger.set key { row with recovered := true, frame }, !consent)

def linkTask (taskId : String) : Ledger :=
  (ledger.update key fun row =>
    if row.state = .dispatchStarted ∧ row.taskId = none then
      some { row with taskId := some taskId }
    else none).1

/-- `note_native_outcome`, with the code of the native response. -/
def noteNativeOutcome (code : String) : Ledger :=
  (ledger.update key fun row =>
    if row.state = .dispatchStarted then some { row with outcome := some code } else none).1

/-! ## Settlement -/

variable (row : Row)

def lateEntry (scope : ScopeIdentity) (frame : RecordedFrame) (outcome : String)
    (reason : Option String) (now : ℤ) : List (String × Json) :=
  [("kind", .string (if reason.isSome then "not_started" else "result")),
    ("owner", .string scope.owner), ("ref", .string scope.scopeRef),
    ("scope_epoch", .ofNat scope.scopeEpoch), ("custodian", .string scope.owner),
    ("call_key", .string key.callKey), ("event_id", .string row.eventId),
    ("settled_at", .ofInt now), ("reduced", .bool (outcome = "unknown"))] ++
  match reason with
  | some reason => [("reason", .string reason)]
  | none => if outcome = "unknown" then [("outcome", .string outcome)]
    else [("result", frame.body.getD .null)]

def settledRow (frame : RecordedFrame) (outcome : String) (reason : Option String) (now : ℤ)
    (source : Option (List UInt8)) (seq : Option ℕ) (entry : Option (List (String × Json))) : Row :=
  { row with
    state := .settled
    frame := some frame
    outcome := some outcome
    settledAt := some now
    seq
    lateEntry := entry
    withdrawAnswer := row.withdrawAnswer.or (reason.map fun reason =>
      answerBytes (neverRanAnswer reason))
    toolResultSource := source }

/-- `settle_row`, inside the caller's transaction. -/
def settleRow (frame : RecordedFrame) (outcome : String) (reason : Option String) (now : ℤ)
    (source : Option (List UInt8)) : Option Ledger :=
  match row.scope with
  | none => some (ledger.set key (settledRow row frame outcome reason now source none none))
  | some scope => do
    let (ledger, seq) ← ledger.allocate scope.owner
    let entry := lateEntry key row scope frame outcome reason now
    let ledger := ledger.set key
      (settledRow row frame outcome reason now source (some seq) (some entry))
    some (ledger.enforceRetentionBounds scope.owner)

/-- Whether a result source may be stored with a frame. -/
def sourceAllowed (frame : RecordedFrame) (source : Option (List UInt8)) : Bool :=
  source.all fun source =>
    !source.isEmpty && source.length < maxToolResultSourceBytes && frame.ty = .response

def settle (frame : RecordedFrame) (outcome : String) (reason : Option String) (now : ℤ)
    (source : Option (List UInt8)) : Option (Ledger × Bool) :=
  if sourceAllowed frame source then
    match ledger.get key with
    | none => some (ledger, false)
    | some row =>
      if row.state = .settled then some (ledger, false)
      else (ledger.settleRow key row frame outcome reason now source).map (·, true)
  else none

/-- The calls of a scope that have not dispatched. -/
def undispatched (scope : ScopeIdentity) : List Key :=
  (ledger.rows.entries.filter fun entry => entry.2.scope = some scope ∧
    (entry.2.state = .prepared ∨ entry.2.state = .authorized)).map Prod.fst

variable (now : ℤ)

/-- What `end_scope` does with one of them. -/
def endScopeKey (ledger : Ledger) (key : Key) : Option Ledger :=
  match ledger.get key with
  | some row => ledger.settleRow key row (notStarted key "scope_ended") "not_started"
      (some "scope_ended") now none
  | none => some ledger

def endScope (scope : ScopeIdentity) (now : ℤ) : Option (Ledger × List Key) :=
  let keys := ledger.undispatched scope
  (keys.foldlM (endScopeKey now) ledger).map (·, keys)

/-! ## Expiry -/

/-- The row without its payload, as an expired entry. -/
def expiredRow : Row :=
  { row with
    frame := some (notRetained key (row.outcome.getD "unknown"))
    lateEntry := row.lateEntry.map fun fields =>
      Json.removeField (Json.removeField (Json.setField (Json.setField fields
        "kind" (.string "expired")) "reduced" (.bool true)) "result") "reason"
    toolResultSource := none }

def reduceExpired : Ledger :=
  (ledger.update key fun row =>
    if row.state = .settled ∧ row.settledAt.any (· + retentionMs ≤ now) then
      some (expiredRow key row)
    else none).1

/-- The row without a result that is too large for one reply. -/
def reducedRow : Row :=
  let outcome := row.outcome.getD "unknown"
  { row with
    frame := some (notRetained key outcome)
    lateEntry := row.lateEntry.map fun fields =>
      if (Json.lookup fields "result").isSome then
        Json.setField (Json.setField (Json.removeField fields "result") "reduced" (.bool true))
          "outcome" (.string outcome)
      else fields
    toolResultSource := none }

/-- `reduce_payload`, with the outcome that is kept. -/
def reducePayload : Ledger × String :=
  (ledger.set key (reducedRow key row), row.outcome.getD "unknown")

def sweepable (row : Row) : Bool :=
  row.state = .settled && (row.acked || row.settledAt.any (· ≤ now - retentionMs) &&
    (row.scope.isNone || row.kind.any fun kind => kind.asStr ≠ some "expired"))

def sweepKeys : List Key :=
  (((ledger.rows.entries.filter fun entry => sweepable now entry.2).insertionSort fun a b =>
    toLex (a.2.settledAt.elim (⊥ : WithBot ℤ) (↑·), a.1) ≤
      toLex (b.2.settledAt.elim (⊥ : WithBot ℤ) (↑·), b.1)).take sweepBatch).map Prod.fst

def sweepKey (ledger : Ledger) (key : Key) : Ledger :=
  let ledger := match ledger.get key with
    | some row => if row.acked || row.scope.isNone then ledger.delete key else ledger
    | none => ledger
  ledger.reduceExpired key now

def sweep : Ledger :=
  (ledger.sweepKeys now).foldl (sweepKey now) ledger

def dropEntry : Ledger :=
  match ledger.get key with
  | some row => if row.state = .settled then ledger.delete key else ledger
  | none => ledger

/-- `ack`: delete the rows and clear the updates of the custodian through a number. -/
def ack (custodian : String) (through : ℕ) : Ledger :=
  let keys := (ledger.rows.entries.filter fun entry =>
    entry.2.custodian = some custodian ∧ entry.2.seq.any (· ≤ through)).map Prod.fst
  (keys.foldl delete ledger).clearUpdates fun update =>
    update.custodian = custodian && update.seq ≤ through

/-! ## Recovery -/

/-- What `recover` does with a dispatched row; `task` is its durable task, if the table still has
it. -/
def recoverStarted (task : Option String) (now : ℤ) : Option Ledger :=
  match task with
  | some task => some (ledger.set key { row with taskId := some task, recovered := true })
  | none =>
    if row.hasHeldReply then
      (ledger.settle key unknownHeldResult "outcome_unknown" none now none).map Prod.fst
    else (ledger.settle key (notRetained key "unknown") "unknown" none now none).map Prod.fst

/-- What `recover` does with one unsettled row. -/
def recoverRow (task : Option String) (now : ℤ) : Option Ledger :=
  match ledger.get key with
  | none => some ledger
  | some row =>
    if row.state = .prepared ∨ row.state = .authorized then
      (ledger.settle key (notStarted key "restart_before_dispatch") "not_started"
        (some "restart_before_dispatch") now none).map Prod.fst
    else ledger.recoverStarted key row task now

/-! ## Held updates -/

def heldEntry (scope : ScopeIdentity) (eventId : String) (now : ℤ) : Json :=
  .object [("kind", .string "held"), ("owner", .string scope.owner),
    ("ref", .string scope.scopeRef), ("scope_epoch", .ofNat scope.scopeEpoch),
    ("custodian", .string scope.owner), ("call_key", .string key.callKey),
    ("event_id", .string eventId), ("settled_at", .ofInt (max now 0)),
    ("held", .object [("reason", .string "running")])]

/-- `record_running_update`, with the event id that the call's identity digests to. -/
def recordRunningUpdate (approvalKey eventId : String) (now : ℤ) : Option (Ledger × Bool) :=
  if ledger.updates.any fun update => update.key = key ∧ update.approvalKey = approvalKey then
    some (ledger, false)
  else do
    let row ← ledger.get key
    if row.heldReason ≠ some "consent" ∨ row.state ≠ .prepared then none
    else
      let scope ← row.scope
      let ordinal := (((ledger.updates.filter fun update => update.key = key).map
        Update.ordinal).max?.getD 0) + 1
      let (ledger, seq) ← ledger.allocate scope.owner
      let held : Update := ⟨key, approvalKey, ordinal, scope.owner, seq, eventId, now,
        some (heldEntry key scope eventId now)⟩
      let ledger := { ledger with updates := ledger.updates ++ [held] }
      some (ledger.enforceRetentionBounds scope.owner, true)

end Ledger

end Aft.Calls
