import Aft.Calls.Settlement

/-!
# Requests, and the ledger as a transition system

`withdraw` answers from the record and stores its answer there; `lateResults` serves one page of a
custodian's late entries and held updates after a cursor, oldest first, within the size of one
reply. `Op` lists the transactions of the ledger and `Ledger.step` carries one out; a failed
transaction leaves the ledger as it was.
-/

namespace Aft.Calls

def withdrawnReason : String := "withdrawn"

def lateResultsPageMax : ℕ := 256

/-! ## Withdrawal -/

/-- What a withdrawal found. With a task to kill the answer is not stored yet. -/
inductive Withdrawal
  | unknownCall
  | notPermitted
  | answer (body : List Char) (killTask : Option String) (heldWithdrawn : Bool)

def settledAnswer (row : Row) : WithdrawAnswer :=
  let outcome := row.outcome.getD "unknown"
  match row.frame with
  | none => .alreadyStarted
  | some frame =>
    let body := frame.body.getD .null
    let code := (body.field "code").asStr
    if frame.ty = .error ∧ code = some "not_started" then
      neverRanAnswer (((body.field "detail").field "reason").asStr.getD "")
    else if frame.ty = .error ∧ code = some "result_not_retained" then
      if outcome = "unknown" then .alreadyStarted
      else if outcome = "not_started" then .withdrawn
      else .completed (.outcomeOnly outcome)
    else .completed (.retained body)

namespace Ledger

section

variable (ledger : Ledger) (key : Key)

def storeAnswer (body : List Char) : Ledger :=
  (ledger.update key fun row => some { row with withdrawAnswer := some body }).1

def firstAnswer (row : Row) (now : ℤ) (maxBody : ℕ) : Option (Ledger × Withdrawal) :=
  match row.state with
  | .prepared | .authorized => do
    let ledger ← ledger.settleRow key row (notStarted key withdrawnReason) "not_started"
      (some withdrawnReason) now none
    let body := answerBytes .withdrawn
    some (ledger.storeAnswer key body, .answer body none true)
  | .dispatchStarted =>
    let body := answerBytes .alreadyStarted
    match row.taskId with
    | some task => some (ledger, .answer body (some task) false)
    | none => some (ledger.storeAnswer key body, .answer body none false)
  | .settled =>
    let answer := answerBytes (settledAnswer row)
    if maxBody < byteLength answer then
      let (ledger, outcome) := ledger.reducePayload key row
      let body := answerBytes (.completed (.outcomeOnly outcome))
      some (ledger.storeAnswer key body, .answer body none false)
    else some (ledger.storeAnswer key answer, .answer answer none false)

def withdraw (stamp : Option ScopeIdentity) (now : ℤ)
    (maxBody : ℕ) : Option (Ledger × Withdrawal) :=
  let ledger := ledger.reduceExpired key now
  match ledger.get key with
  | none => some (ledger, .unknownCall)
  | some row =>
    if row.scope ≠ stamp then some (ledger, .notPermitted)
    else match row.withdrawAnswer with
      | some body => some (ledger, .answer body none false)
      | none => ledger.firstAnswer key row now maxBody

def freezeWithdrawAnswer (body : List Char) : Ledger × List Char :=
  let ledger := (ledger.update key fun row =>
    some { row with withdrawAnswer := row.withdrawAnswer.or (some body) }).1
  (ledger, ((ledger.get key).bind Row.withdrawAnswer).getD body)

end

end Ledger

/-! ## Pages -/

/-- A position in the late results, good for one run of the provider. -/
structure Cursor where
  providerIncarnation : String
  seq : ℕ
  deriving DecidableEq, Repr

/-- `check_since`: a cursor of another run of the provider or past the log is refused. -/
def checkSince (incarnation : String) (head : ℕ) (since : Option Cursor) : Bool :=
  since.all fun cursor => cursor.providerIncarnation = incarnation && cursor.seq ≤ head

/-- A row of the page's query: a settled call, or a held update of one. -/
structure Candidate where
  key : Key
  seq : ℕ
  update : Bool
  deriving DecidableEq, Repr

structure Served where
  candidate : Candidate
  entry : Json

structure Page where
  served : List Served
  cursor : Cursor
  more : Bool

def Page.reply (page : Page) : Json :=
  .object [("entries", .array (page.served.map Served.entry)),
    ("cursor", .object [("provider_incarnation", .string page.cursor.providerIncarnation),
      ("seq", .ofNat page.cursor.seq)]),
    ("more", .bool page.more)]

/-- The largest wrapper a page can have: the longest number and `false`. -/
def overhead (incarnation : String) : ℕ :=
  (Page.reply ⟨[], ⟨incarnation, 2 ^ 64 - 1⟩, false⟩).size

/-- A page in the making. -/
structure Serving where
  ledger : Ledger
  size : ℕ
  last : ℕ
  served : List Served := []

namespace Serving

/-- The size that an entry adds to the page, with the comma before it. -/
def added (serving : Serving) (entry : Json) : ℕ :=
  entry.size + if serving.served.isEmpty then 0 else 1

/-- Add an entry to the page if it fits; the truth value says whether the page goes on. -/
def add (serving : Serving) (maxBody : ℕ) (candidate : Candidate) (entry : Json) : Serving × Bool :=
  if maxBody < serving.size + serving.added entry then (serving, false)
  else ({ serving with
    size := serving.size + serving.added entry
    last := candidate.seq
    served := serving.served ++ [⟨candidate, entry⟩] }, true)

/-- Serve a held update, or drop one that is too old or too large for any page. -/
def serveUpdate (serving : Serving) (overhead maxBody : ℕ) (now : ℤ) (candidate : Candidate) :
    Option (Serving × Bool) := do
  let update ← serving.ledger.updates.find? fun update =>
    update.key = candidate.key ∧ update.seq = candidate.seq
  let entry ← update.entry
  if update.settledAt + retentionMs ≤ now ∨ maxBody < overhead + entry.size then
    some ({ serving with
      ledger := serving.ledger.clearUpdates fun update =>
        update.key = candidate.key ∧ update.seq = candidate.seq
      last := candidate.seq }, true)
  else some (serving.add maxBody candidate entry)

def expireDue (ledger : Ledger) (key : Key) (row : Row) (now : ℤ) : Option (Ledger × Row) :=
  if row.settledAt.any (· + retentionMs ≤ now) ∧ row.kind.bind Json.asStr ≠ some "expired" then do
    let ledger := ledger.reduceExpired key now
    let row ← ledger.get key
    some (ledger, row)
  else some (ledger, row)

section

variable (serving : Serving) (overhead maxBody : ℕ) (now : ℤ) (candidate : Candidate)

/-- Serve a settled call: expired when due, reduced to its outcome when too large for any page. -/
def serveRow : Option (Serving × Bool) :=
  match serving.ledger.get candidate.key with
  | none => some (serving, true)
  | some row => do
    let (ledger, row) ← expireDue serving.ledger candidate.key row now
    let entry ← row.lateEntry
    if maxBody < overhead + (Json.object entry).size then
      let ledger := (ledger.reducePayload candidate.key row).1
      let row ← ledger.get candidate.key
      let entry ← row.lateEntry
      some ({ serving with ledger }.add maxBody candidate (.object entry))
    else some ({ serving with ledger }.add maxBody candidate (.object entry))

def serveOne : Option (Serving × Bool) :=
  if candidate.update then serving.serveUpdate overhead maxBody now candidate
  else serving.serveRow overhead maxBody now candidate

end

/-- Serve the candidates until one does not fit; the truth value says whether all were served. -/
def serve (overhead maxBody : ℕ) (now : ℤ) : List Candidate → Serving → Option (Serving × Bool)
  | [], serving => some (serving, true)
  | candidate :: rest, serving => do
    let (serving, continues) ← serving.serveOne overhead maxBody now candidate
    if continues then serve overhead maxBody now rest serving else some (serving, false)

end Serving

namespace Ledger

variable (ledger : Ledger)

def lateRows (custodian : String) : List Candidate :=
  ledger.rows.entries.filterMap fun entry =>
    if entry.2.custodian = some custodian ∧ entry.2.lateEntry.isSome then
      entry.2.seq.map fun seq => ⟨entry.1, seq, false⟩
    else none

def heldUpdates (custodian : String) : List Candidate :=
  ledger.updates.filterMap fun update =>
    if update.custodian = custodian ∧ update.entry.isSome then some ⟨update.key, update.seq, true⟩
    else none

/-- Everything a consumer may still be owed. -/
def outstanding (custodian : String) (withHeld : Bool) : List Candidate :=
  ledger.lateRows custodian ++ if withHeld then ledger.heldUpdates custodian else []

/-- The query of a page, without its limit. -/
def after (custodian : String) (withHeld : Bool) (since : ℕ) : List Candidate :=
  ((ledger.outstanding custodian withHeld).filter fun candidate =>
    since < candidate.seq).insertionSort fun a b => a.seq ≤ b.seq

/-- `late_results_for_consumer`: `none` inside for a refused cursor. -/
def lateResults (custodian incarnation : String) (since : Option Cursor) (limit : Option ℕ)
    (now : ℤ) (maxBody : ℕ) (withHeld : Bool) : Option (Ledger × Option Page) :=
  if checkSince incarnation (ledger.lastSeq custodian) since then do
    let ledger := ledger.enforceRetentionBounds custodian
    let sinceSeq := (since.map Cursor.seq).getD 0
    let cap := min (limit.getD lateResultsPageMax) lateResultsPageMax
    let rows := (ledger.after custodian withHeld sinceSeq).take (cap + 1)
    let overhead := overhead incarnation
    let (serving, complete) ← Serving.serve overhead maxBody now (rows.take cap)
      { ledger, size := overhead, last := sinceSeq }
    some (serving.ledger, some ⟨serving.served, ⟨incarnation, serving.last⟩,
      cap < rows.length || !complete⟩)
  else some (ledger, none)

def ackThrough (custodian incarnation : String) (through : Cursor) : Ledger :=
  if checkSince incarnation (ledger.lastSeq custodian) (some through) then
    ledger.ack custodian through.seq
  else ledger

end Ledger

/-! ## Transactions -/

/-- One transaction. -/
inductive Op
  | admitCall (key : Key) (digest : String) (scope : Option ScopeIdentity) (state : State)
      (eventId : String)
  | authorize (key : Key)
  | startDispatch (key : Key)
  | beginApproved (key : Key) (ended : Bool)
  | holdPermission (key : Key) (body : Option Json) (includeStructured : Bool)
  | holdRunning (key : Key) (taskId : String) (body : Option Json) (includeStructured : Bool)
  | linkTask (key : Key) (taskId : String)
  | noteNativeOutcome (key : Key) (code : String)
  | settle (key : Key) (frame : RecordedFrame) (outcome : String) (reason : Option String) (now : ℤ)
      (source : Option (List UInt8))
  | endScope (scope : ScopeIdentity) (now : ℤ)
  | reduceExpired (key : Key) (now : ℤ)
  | sweep (now : ℤ)
  | dropEntry (key : Key)
  | ackThrough (custodian incarnation : String) (through : Cursor)
  | enforceRetentionBounds (custodian : String)
  | recordRunningUpdate (key : Key) (approvalKey eventId : String) (now : ℤ)
  | recoverRow (key : Key) (task : Option String) (now : ℤ)
  | withdraw (key : Key) (stamp : Option ScopeIdentity) (now : ℤ) (maxBody : ℕ)
  | freezeWithdrawAnswer (key : Key) (body : List Char)
  | lateResults (custodian incarnation : String) (since : Option Cursor) (limit : Option ℕ)
      (now : ℤ) (maxBody : ℕ) (withHeld : Bool)

/-- What a transaction replies. -/
inductive Reply
  | done
  | failed
  | withdrawal (found : Withdrawal)
  | frozen (body : List Char)
  | page (page : Option Page)

namespace Ledger

/-- The outcome of a fallible transaction. -/
def commit {α : Type} (ledger : Ledger) (result : Option (Ledger × α)) (reply : α → Reply) :
    Ledger × Reply :=
  match result with
  | some (next, value) => (next, reply value)
  | none => (ledger, .failed)

/-- Carry out one transaction. -/
def step (ledger : Ledger) : Op → Ledger × Reply
  | .admitCall key digest scope state eventId =>
    ((ledger.admitCall key digest scope state eventId).1, .done)
  | .authorize key => ((ledger.transition key .prepared .authorized).1, .done)
  | .startDispatch key => ((ledger.transition key .authorized .dispatchStarted).1, .done)
  | .beginApproved key ended => ledger.commit (ledger.beginApproved key ended) fun _ => .done
  | .holdPermission key body includeStructured =>
    ledger.commit (ledger.holdPermission key body includeStructured) fun _ => .done
  | .holdRunning key taskId body includeStructured =>
    ledger.commit (ledger.holdRunning key taskId body includeStructured) fun _ => .done
  | .linkTask key taskId => (ledger.linkTask key taskId, .done)
  | .noteNativeOutcome key code => (ledger.noteNativeOutcome key code, .done)
  | .settle key frame outcome reason now source =>
    ledger.commit (ledger.settle key frame outcome reason now source) fun _ => .done
  | .endScope scope now => ledger.commit (ledger.endScope scope now) fun _ => .done
  | .reduceExpired key now => (ledger.reduceExpired key now, .done)
  | .sweep now => (ledger.sweep now, .done)
  | .dropEntry key => (ledger.dropEntry key, .done)
  | .ackThrough custodian incarnation through =>
    (ledger.ackThrough custodian incarnation through, .done)
  | .enforceRetentionBounds custodian => (ledger.enforceRetentionBounds custodian, .done)
  | .recordRunningUpdate key approvalKey eventId now =>
    ledger.commit (ledger.recordRunningUpdate key approvalKey eventId now) fun _ => .done
  | .recoverRow key task now =>
    ledger.commit ((ledger.recoverRow key task now).map (·, ())) fun _ => .done
  | .withdraw key stamp now maxBody =>
    ledger.commit (ledger.withdraw key stamp now maxBody) .withdrawal
  | .freezeWithdrawAnswer key body =>
    let (next, stored) := ledger.freezeWithdrawAnswer key body
    (next, .frozen stored)
  | .lateResults custodian incarnation since limit now maxBody withHeld =>
    ledger.commit (ledger.lateResults custodian incarnation since limit now maxBody withHeld) .page

def run (ledger : Ledger) (ops : List Op) : Ledger :=
  ops.foldl (fun ledger op => (ledger.step op).1) ledger

/-! ## Reading and writing -/

section Lookup

variable (ledger : Ledger) (key other : Key)

@[simp] theorem get_set_self (row : Row) : (ledger.set key row).get key = some row :=
  SortedMap.find?_insert_self ..

theorem get_set_of_ne (row : Row) (h : other ≠ key) : (ledger.set key row).get other = ledger.get other :=
  SortedMap.find?_insert_of_ne _ _ h

end Lookup

variable {ledger : Ledger}

theorem get_of_get_delete {key deleted : Key} {row : Row}
    (h : (ledger.delete deleted).get key = some row) : ledger.get key = some row := by
  by_cases hkey : key = deleted
  · subst hkey
    cases (SortedMap.find?_erase_self ..).symm.trans h
  · exact (SortedMap.find?_erase_of_ne _ hkey).symm.trans h

theorem get_of_get_foldl_delete {keys : List Key} {key : Key} {row : Row}
    (h : (keys.foldl delete ledger).get key = some row) : ledger.get key = some row := by
  induction keys generalizing ledger with
  | nil => exact h
  | cons deleted rest ih => exact get_of_get_delete (ih h)

theorem get_of_get_enforceRetentionBounds {custodian : String} {key : Key} {row : Row}
    (h : (ledger.enforceRetentionBounds custodian).get key = some row) :
    ledger.get key = some row := by
  have hd : ∀ {ledger : Ledger}, (ledger.dropLateEntriesOverBounds custodian).get key =
      some row → ledger.get key = some row := get_of_get_foldl_delete
  unfold enforceRetentionBounds at h
  dsimp only at h
  split_ifs at h
  · exact hd h
  · exact hd h
  · exact h
  · exact h

theorem get_allocate {next : Ledger} {custodian : String} {seq : ℕ}
    (h : ledger.allocate custodian = some (next, seq)) (key : Key) :
    next.get key = ledger.get key := by
  unfold allocate at h
  dsimp only at h
  split_ifs at h
  cases h
  rfl

end Ledger

end Aft.Calls
