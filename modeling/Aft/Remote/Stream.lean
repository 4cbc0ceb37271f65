import Aft.Lib.SortedMap

/-!
# The consumer of a remote stream

The records a runner streams for one job, the terminal proof and how it is graded, and what becomes
of them. Records are buffered until every number before them is present, a truncation mark or an
expired manifest moves the cursor over numbers that will not come, and a terminal record that finds
a gap asks for another attach before it gives the gap up. The sink never fails here, so its calls
are the list `Session.calls`. `Session.gaps` is not in the source: it lists the gaps accepted before
an expired manifest.
-/

namespace Aft.Remote

/-! ## Terminal proof -/

/-- Where the executor says a command ran. -/
inductive Ran
  | remote
  | none
  | other
  deriving DecidableEq, Repr

/-- Why the executor killed a command. -/
inductive Killed
  | deadline
  | cancel
  | other
  deriving DecidableEq, Repr

/-- A reason for refusing a command before its start. -/
structure RefusalReason where
  label : String
  deriving DecidableEq, Repr

/-- How a command ended; `future` is an outcome this version does not know. -/
inductive Outcome
  | refusedBeforeStart (reason : RefusalReason)
  | outcomeUnknown
  | unknown
  | historyExpired
  | exit (code : ℤ)
  | windowsExit (code : ℤ)
  | signal (number : ℤ)
  | cancelled
  | future
  deriving DecidableEq, Repr

structure TerminalRecord where
  jobId : ℕ
  ran : Option Ran
  outcome : Outcome
  killed : Option Killed
  refusalDetail : Option String
  executionEnded : Bool
  deriving DecidableEq, Repr

inductive Verdict
  | runLocally (reason : RefusalReason) (refusalDetail : Option String)
  | exited (code : ℤ)
  | signalled (number : ℤ)
  | cancelled
  | deadlineKilled
  | cancelKilled
  | outcomeUnknown
  | historyExpired
  deriving DecidableEq, Repr

/-- The verdict of an outcome that is neither a refusal, nor expired, nor unknown. -/
def gradeEnded (outcome : Outcome) (killed : Option Killed) : Verdict :=
  match killed with
  | some .deadline => .deadlineKilled
  | some .cancel => .cancelKilled
  | some .other => .outcomeUnknown
  | none =>
    match outcome with
    | .exit code => .exited code
    | .windowsExit code => .exited code
    | .signal number => .signalled number
    | .cancelled => .cancelled
    | _ => .outcomeUnknown

/-- Grade the terminal proof without inferring missing execution metadata. -/
def grade (terminal : TerminalRecord) : Verdict :=
  if terminal.ran = some .other then .outcomeUnknown
  else
    match terminal.outcome with
    | .refusedBeforeStart reason => .runLocally reason terminal.refusalDetail
    | .outcomeUnknown =>
      if terminal.killed = some .cancel ∧ terminal.executionEnded then .cancelKilled
      else .outcomeUnknown
    | .unknown => .outcomeUnknown
    | .historyExpired => .historyExpired
    | .future => .outcomeUnknown
    | outcome => gradeEnded outcome terminal.killed

/-! ## Sequenced records -/

/-- The descriptor some output was written to; `other` is one this version does not know. -/
inductive OutputStream
  | stdout
  | stderr
  | other (label : String)
  deriving DecidableEq, Repr

/-- A piece of output. Its bytes stand in a buffer that may have spare room. -/
structure Output where
  seq : ℕ
  stream : OutputStream
  bytes : List UInt8
  capacity : ℕ
  truncatedBeforeSeq : Option ℕ
  fits : bytes.length ≤ capacity
  deriving DecidableEq

def Output.clone (output : Output) : Output :=
  { output with capacity := output.bytes.length, fits := le_rfl }

structure Started where
  seq : ℕ
  details : String
  deriving DecidableEq, Repr

/-- One piece of a file that the request asked for. -/
structure ReturnChunk where
  jobId : ℕ
  seq : ℕ
  data : List UInt8
  deriving DecidableEq

inductive FailureCause
  | expired
  | readError
  | other
  deriving DecidableEq, Repr

inductive ManifestOutcome
  | returned (size : ℕ)
  | failed (cause : FailureCause) (size : Option ℕ)
  deriving DecidableEq, Repr

structure ManifestEntry where
  path : String
  outcome : ManifestOutcome
  chunks : Option ℕ
  deriving DecidableEq, Repr

/-- The outcome of every requested file, sent before the terminal record. -/
structure ReturnManifest where
  jobId : ℕ
  seq : ℕ
  totalBytes : ℕ
  capBytes : ℕ
  files : List ManifestEntry
  deriving DecidableEq, Repr

structure Accepted where
  jobId : ℕ
  deriving DecidableEq, Repr

/-- What the runner sends; `future` is a record of an unknown type without a sequence number. -/
inductive StreamRecord
  | progress (text : String)
  | accepted (accepted : Accepted)
  | started (started : Started)
  | output (output : Output)
  | returnChunk (chunk : ReturnChunk)
  | returnManifest (manifest : ReturnManifest)
  | terminal (record : TerminalRecord)
  | unknown (seq : Option ℕ)
  | future

/-- What the consumer takes from the contract crate: the lengths of encoded values, the size charged
for a buffered record, the largest chunk of a file, and the check of an expired replay against its
chunk counts. -/
structure Contract where
  streamBytes : OutputStream → ℕ
  startedBytes : Started → ℕ
  manifestBytes : ReturnManifest → ℕ
  recordBytes : ℕ
  chunkMaxBytes : ℕ
  finishExpiredReplay : ReturnManifest → ℕ → Bool

/-! ## Expired replays -/

/-- A file whose bytes the runner no longer keeps. -/
def ManifestEntry.isExpired (entry : ManifestEntry) : Bool :=
  match entry.outcome with
  | .failed .expired _ => true
  | _ => false

/-- Whether the manifest is a replay after the runner stopped keeping the job's files. -/
def ReturnManifest.hasExpiredEntry (manifest : ReturnManifest) : Bool :=
  manifest.files.any ManifestEntry.isExpired

/-- An expired replay whose entries carry no chunk counts. -/
def ReturnManifest.uncountedExpiredReplay (manifest : ReturnManifest) : Bool :=
  manifest.hasExpiredEntry && manifest.files.all fun entry => entry.chunks.isNone

def ReturnManifest.derivedExpiredChunkCount (contract : Contract) (manifest : ReturnManifest) : ℕ :=
  (manifest.files.filterMap fun entry =>
    match entry.outcome with
    | .failed .expired size =>
      some ((size.getD 0 + contract.chunkMaxBytes - 1) / contract.chunkMaxBytes)
    | _ => none).foldl (fun total count => min (2 ^ 64 - 1) (total + count)) 0

/-- Whether the numbers from the last output to the manifest are the chunks no longer sent. -/
def ReturnManifest.expiredGapMatches (contract : Contract) (manifest : ReturnManifest)
    (lastOutputSeq : ℕ) : Bool :=
  if manifest.uncountedExpiredReplay then
    lastOutputSeq < manifest.seq &&
      manifest.seq - lastOutputSeq - 1 == manifest.derivedExpiredChunkCount contract
  else contract.finishExpiredReplay manifest lastOutputSeq

/-! ## Buffered records -/

/-- A record that waits for the ones before it. -/
inductive Pending
  | output (output : Output)
  | started (started : Started)
  | returnChunk (chunk : ReturnChunk)
  | returnManifest (manifest : ReturnManifest)
  | unknown
  deriving DecidableEq

namespace Pending

def bufferBytes (contract : Contract) : Pending → ℕ
  | .output piece => piece.capacity + contract.streamBytes piece.stream + contract.recordBytes
  | .returnChunk chunk => chunk.data.length + contract.recordBytes
  | .started start => contract.startedBytes start * 8 + contract.recordBytes
  | .returnManifest manifest => contract.manifestBytes manifest * 8 + contract.recordBytes
  | .unknown => contract.recordBytes

def clone : Pending → Pending
  | .output piece => .output piece.clone
  | record => record

/-- Whether the record counts as output for the expired replays after it. -/
def isOutput : Pending → Bool
  | .output _ => true
  | .started _ => true
  | _ => false

theorem bufferBytes_clone_le (contract : Contract) (record : Pending) :
    record.clone.bufferBytes contract ≤ record.bufferBytes contract := by
  cases record with
  | output piece =>
    have := piece.fits
    simp only [clone, bufferBytes, Output.clone]
    omega
  | _ => exact le_rfl

end Pending

/-- The buffered records of a stream, by sequence number. -/
def bufferedBytes (contract : Contract) (pending : SortedMap ℕ Pending) : ℕ :=
  pending.sumValues (Pending.bufferBytes contract)

def maxPendingBytes : ℕ := 8 * 1024 * 1024

/-- Attaches without progress before a gap counts as lost output. -/
def maxGapReattaches : ℕ := 3

/-! ## State -/

/-- A terminal that arrived while output had a gap, with the records buffered behind it. -/
structure GapRecovery where
  fromSeq : ℕ
  reattaches : ℕ
  terminal : TerminalRecord
  pending : SortedMap ℕ Pending
  deriving DecidableEq

/-- Durable resume cursor: `lastSeq` is the last number committed by the sink. -/
structure ResumePoint where
  jobId : ℕ
  lastSeq : Option ℕ
  gapRecovery : Option GapRecovery
  lastOutputSeq : Option ℕ
  deriving DecidableEq

structure StreamConsumer where
  runCursor : Option ℕ
  point : Option ResumePoint
  accepted : Bool
  pending : SortedMap ℕ Pending
  pendingBytes : ℕ
  terminal : Option Verdict
  recoveringGap : Bool
  deriving DecidableEq

inductive Error
  | protocol (message : String)
  | recoveryRequired (resume : Option ResumePoint) (reason : String)
  deriving DecidableEq

inductive SinkCall
  | admissionProgress (text : String)
  | accepted (accepted : Accepted)
  | started (started : Started)
  | output (seq : ℕ) (stream : OutputStream) (bytes : List UInt8)
  | truncated (beforeSeq : ℕ)
  | gapRecovery (recovery : GapRecovery)
  | undelivered (beforeSeq : ℕ)
  | unknownOutput (seq : ℕ) (bytes : List UInt8)
  | returnChunk (chunk : ReturnChunk)
  | returnManifest (manifest : ReturnManifest) (expiredReplay : Option ℕ)
  | expiredGapUnverified (beforeSeq : ℕ)
  | terminal (record : TerminalRecord) (verdict : Verdict)
  deriving DecidableEq

/-- A gap accepted before an expired manifest: the numbers from `fromSeq` up to the manifest's. -/
structure ExpiredGap where
  fromSeq : ℕ
  lastOutputSeq : ℕ
  manifest : ReturnManifest
  deriving DecidableEq

/-- A consumer with the calls its sink received so far. -/
structure Session where
  consumer : StreamConsumer
  calls : List SinkCall
  gaps : List ExpiredGap
  deriving DecidableEq

def clonePending (pending : SortedMap ℕ Pending) : SortedMap ℕ Pending :=
  pending.mapValues Pending.clone

def GapRecovery.clone (gap : GapRecovery) : GapRecovery :=
  { gap with pending := clonePending gap.pending }

def ResumePoint.clone (point : ResumePoint) : ResumePoint :=
  { point with gapRecovery := point.gapRecovery.map GapRecovery.clone }

/-- The number that an attach asks for first. -/
def ResumePoint.fromSeq (point : ResumePoint) : Except Error ℕ :=
  match point.lastSeq with
  | none => .ok 0
  | some seq => if seq + 1 < 2 ^ 64 then .ok (seq + 1) else .error (.protocol "sequence exhausted")

/-- The call that hands a record to the sink. -/
def Pending.call (next : ℕ) (lastOutputSeq : Option ℕ) : Pending → SinkCall
  | .output piece =>
    match piece.stream with
    | .stdout => .output next .stdout piece.bytes
    | .stderr => .output next .stderr piece.bytes
    | .other _ => .unknownOutput next piece.bytes
  | .returnChunk chunk => .returnChunk chunk
  | .returnManifest manifest =>
    .returnManifest manifest (if manifest.hasExpiredEntry then lastOutputSeq else none)
  | .unknown => .unknownOutput next []
  | .started start => .started start

namespace StreamConsumer

/-- A consumer of a run that was submitted with a key and may resume behind a cursor. -/
def keyedRun (runCursor : Option ℕ) : StreamConsumer :=
  ⟨runCursor, none, false, SortedMap.empty, 0, none, false⟩

def new : StreamConsumer := keyedRun none

/-- Drop saved records over the budget: they are fetched again from the committed cursor. -/
def boundGap (contract : Contract) (gap : GapRecovery) : GapRecovery :=
  if maxPendingBytes < bufferedBytes contract gap.pending then
    { gap with pending := SortedMap.empty }
  else gap

def resume (contract : Contract) (point : ResumePoint) : StreamConsumer :=
  let gap := point.gapRecovery.map (boundGap contract)
  let saved := (gap.map fun gap => clonePending gap.pending).getD SortedMap.empty
  let pending :=
    match point.lastSeq with
    | some last => saved.filterKeys fun seq => last < seq
    | none => saved
  { runCursor := none
    point := some { point with gapRecovery := gap }
    accepted := false
    pending
    pendingBytes := bufferedBytes contract pending
    terminal := none
    recoveringGap := gap.isSome }

variable (consumer : StreamConsumer)

def resumePoint : Option ResumePoint :=
  consumer.point.map ResumePoint.clone

def recovery (reason : String) : Error :=
  .recoveryRequired consumer.resumePoint reason

def finish : Except Error Verdict :=
  match consumer.terminal with
  | some verdict => .ok verdict
  | none => .error (consumer.recovery
      "stream ended without a known terminal record; re-attach to the job")

def checkJob (jobId : ℕ) : Except Error Unit :=
  if consumer.point.any fun point => point.jobId ≠ jobId then
    .error (.protocol "record belongs to another job")
  else .ok ()

def nextSeq : Except Error ℕ :=
  match consumer.point with
  | none => .error (.protocol "output before acceptance or attach")
  | some point => point.fromSeq

def modifyPoint (f : ResumePoint → ResumePoint) : StreamConsumer :=
  { consumer with point := consumer.point.map f }

def setLastSeq (lastSeq : Option ℕ) : StreamConsumer :=
  consumer.modifyPoint fun point => { point with lastSeq }

section

variable (contract : Contract) (consumer : StreamConsumer)

/-- Buffer a record, in place of one at the same number, within the budget. -/
def insertPending (seq : ℕ) (record : Pending) : Except Error StreamConsumer :=
  let previous := ((consumer.pending.find? seq).map (Pending.bufferBytes contract)).getD 0
  let bytes := consumer.pendingBytes - previous + record.bufferBytes contract
  if maxPendingBytes < bytes then
    .error (consumer.recovery "output sequence gap before terminal")
  else
    .ok { consumer with
      pending := consumer.pending.insert seq record
      pendingBytes := bytes }

/-- Take the record at `next` out of the buffer once the sink has it. -/
def commit (next : ℕ) (record : Pending) : StreamConsumer :=
  { consumer with
    pending := consumer.pending.erase next
    pendingBytes := consumer.pendingBytes - record.bufferBytes contract
    point := consumer.point.map fun point =>
      { point with
        lastSeq := some next
        lastOutputSeq := if record.isOutput then some next else point.lastOutputSeq } }

/-- Forget the buffered records before a truncation mark and move the cursor to it. -/
def truncate (before : ℕ) : StreamConsumer :=
  let consumer := consumer.setLastSeq (if before = 0 then none else some (before - 1))
  let pending := consumer.pending.filterKeys fun seq => before ≤ seq
  { consumer with pending, pendingBytes := bufferedBytes contract pending }

/-- The gap before an expired manifest, when it is the one that the contract asks to accept. -/
def expiredGap (manifest : ReturnManifest) : Except Error (Option ExpiredGap) :=
  match consumer.nextSeq with
  | .error error => .error error
  | .ok next =>
    if manifest.totalBytes ≠ 0 ∨ manifest.seq ≤ next ∨
        (consumer.pending.entries.any fun entry => entry.1 < manifest.seq) ∨
        ¬manifest.hasExpiredEntry then .ok none
    else
      match consumer.point.bind ResumePoint.lastOutputSeq with
      | none => .ok none
      | some last =>
        if manifest.expiredGapMatches contract last then .ok (some ⟨next, last, manifest⟩)
        else .ok none

end

/-- The saved recovery of a terminal that finds buffered records. -/
def gapAt (fromSeq : ℕ) (record : TerminalRecord) : GapRecovery :=
  let previous := consumer.point.bind ResumePoint.gapRecovery
  { fromSeq
    reattaches := ((previous.filter fun gap => gap.fromSeq = fromSeq).map fun gap =>
      min 255 (gap.reattaches + consumer.recoveringGap.toNat)).getD 0
    terminal := (previous.map GapRecovery.terminal).getD record
    pending := clonePending consumer.pending }

end StreamConsumer

/-! ## Sessions -/

namespace Session

def start (consumer : StreamConsumer) : Session := ⟨consumer, [], []⟩

def call (session : Session) (call : SinkCall) : Session :=
  { session with calls := session.calls ++ [call] }

def withConsumer (session : Session) (consumer : StreamConsumer) : Session :=
  { session with consumer }

variable (contract : Contract)

/-- Hand the record at `next` to the sink and commit it. -/
def deliver (session : Session) (next : ℕ) (record : Pending) : Session :=
  let lastOutputSeq := session.consumer.point.bind ResumePoint.lastOutputSeq
  (session.call (record.call next lastOutputSeq)).withConsumer
    (session.consumer.commit contract next record)

def drainLoop (contract : Contract) : ℕ → Session → Except Error Unit × Session
  | 0, session => (.ok (), session)
  | fuel + 1, session =>
    match session.consumer.nextSeq with
    | .error error => (.error error, session)
    | .ok next =>
      match session.consumer.pending.find? next with
      | none => (.ok (), session)
      | some record => drainLoop contract fuel (session.deliver contract next record)

/-- Deliver buffered records as long as the next one is there; every round takes one out. -/
def drain (session : Session) : Except Error Unit × Session :=
  drainLoop contract (session.consumer.pending.size + 1) session

def enqueue (session : Session) (seq : ℕ) (record : Pending) : Except Error Unit × Session :=
  match session.consumer.nextSeq with
  | .error error => (.error error, session)
  | .ok next =>
    if seq < next then (.ok (), session)
    else if (session.consumer.pending.find? seq).isSome then session.drain contract
    else
      match session.consumer.insertPending contract seq record with
      | .error error => (.error error, session)
      | .ok consumer => (session.withConsumer consumer).drain contract

/-- Report the numbers before the first buffered record as lost and move the cursor to it. -/
def lose (session : Session) (before : ℕ) (record : Pending) : Session :=
  let call :=
    match record with
    | .returnManifest manifest =>
      if manifest.uncountedExpiredReplay then SinkCall.expiredGapUnverified before
      else .undelivered before
    | _ => .undelivered before
  (session.call call).withConsumer
    (session.consumer.setLastSeq (if before = 0 then none else some (before - 1)))

def losePendingLoop (contract : Contract) : ℕ → Session → Except Error Unit × Session
  | 0, session => (.ok (), session)
  | fuel + 1, session =>
    match session.consumer.pending.entries.head? with
    | none => (.ok (), session)
    | some (before, record) =>
      match (session.lose before record).drain contract with
      | (.error error, session) => (.error error, session)
      | (.ok _, session) => losePendingLoop contract fuel session

section

variable (session : Session)

/-- Give up on every gap, keeping the order of what is buffered. -/
def losePending : Except Error Unit × Session :=
  match session.drain contract with
  | (.error error, session) => (.error error, session)
  | (.ok _, session) =>
    losePendingLoop contract (session.consumer.pending.size + 1) session

/-- Commit the terminal proof, the saved one when a gap was being recovered. -/
def endWith (record : TerminalRecord) : Session :=
  let point := session.consumer.point.getD ⟨record.jobId, none, none, none⟩
  let record := (point.gapRecovery.map GapRecovery.terminal).getD record
  (session.call (.terminal record (grade record))).withConsumer
    { session.consumer with
      point := some { point with gapRecovery := none }
      terminal := some (grade record) }

def saveGap (gap : GapRecovery) : Session :=
  (session.call (.gapRecovery gap)).withConsumer
    (session.consumer.modifyPoint fun point => { point with gapRecovery := some gap })

def consumeTerminal (record : TerminalRecord) : Except Error Unit × Session :=
  match session.consumer.checkJob record.jobId with
  | .error error => (.error error, session)
  | .ok _ =>
    if session.consumer.pending.entries = [] then (.ok (), session.endWith record)
    else
      match session.consumer.nextSeq with
      | .error error => (.error error, session)
      | .ok fromSeq =>
        let gap := session.consumer.gapAt fromSeq record
        let session := session.saveGap gap
        if gap.reattaches < maxGapReattaches then
          (.error (session.consumer.recovery "output sequence gap before terminal"), session)
        else
          match session.losePending contract with
          | (.error error, session) => (.error error, session)
          | (.ok _, session) => (.ok (), session.endWith record)

def consumeAccepted (accepted : Accepted) : Except Error Unit × Session :=
  if session.consumer.accepted ∨ session.consumer.pending.entries ≠ [] ∨
      (session.consumer.point.any fun point => point.lastSeq.isSome) then
    (.error (.protocol "acceptance is not first"), session)
  else
    match session.consumer.checkJob accepted.jobId with
    | .error error => (.error error, session)
    | .ok _ =>
      (.ok (), (session.call (.accepted accepted)).withConsumer
        { session.consumer with
          point := some ⟨accepted.jobId, session.consumer.runCursor, none, none⟩
          accepted := true })

def consumeOutput (output : Output) : Except Error Unit × Session :=
  match output.truncatedBeforeSeq with
  | none => session.enqueue contract output.seq (.output output)
  | some before =>
    if output.seq < before then (.error (.protocol "invalid truncation cursor"), session)
    else
      match session.consumer.nextSeq with
      | .error error => (.error error, session)
      | .ok next =>
        let session :=
          if next < before then
            (session.call (.truncated before)).withConsumer
              (session.consumer.truncate contract before)
          else session
        session.enqueue contract output.seq (.output output)

def skip (gap : ExpiredGap) : Session :=
  { session with
    consumer := session.consumer.setLastSeq (some (gap.manifest.seq - 1))
    gaps := session.gaps ++ [gap] }

/-- Deliver an expired manifest in place of the retained version that may be buffered. -/
def consumeExpired (manifest : ReturnManifest) : Except Error Unit × Session :=
  match session.consumer.pending.find? manifest.seq with
  | some (.returnManifest buffered) =>
    if buffered.hasExpiredEntry then
      session.enqueue contract manifest.seq (.returnManifest manifest)
    else
      match session.consumer.insertPending contract manifest.seq (.returnManifest manifest) with
      | .error error => (.error error, session)
      | .ok consumer => (session.withConsumer consumer).drain contract
  | _ => session.enqueue contract manifest.seq (.returnManifest manifest)

def consumeManifest (manifest : ReturnManifest) : Except Error Unit × Session :=
  match session.consumer.checkJob manifest.jobId with
  | .error error => (.error error, session)
  | .ok _ =>
    match session.consumer.expiredGap contract manifest with
    | .error error => (.error error, session)
    | .ok (some gap) => (session.skip gap).consumeExpired contract manifest
    | .ok none => session.enqueue contract manifest.seq (.returnManifest manifest)

/-- A record after the terminal is refused; the rest by kind. -/
def consume (record : StreamRecord) : Except Error Unit × Session :=
  match record with
  | .progress text =>
    if ¬session.consumer.accepted ∧ session.consumer.point.isNone ∧
        session.consumer.terminal.isNone then (.ok (), session.call (.admissionProgress text))
    else (.ok (), session)
  | record =>
    if session.consumer.terminal.isSome then
      (.error (.protocol "record after terminal"), session)
    else
      match record with
      | .progress _ => (.ok (), session)
      | .accepted accepted => session.consumeAccepted accepted
      | .started started => session.enqueue contract started.seq (.started started)
      | .output output => session.consumeOutput contract output
      | .terminal record => session.consumeTerminal contract record
      | .returnChunk chunk =>
        match session.consumer.checkJob chunk.jobId with
        | .error error => (.error error, session)
        | .ok _ => session.enqueue contract chunk.seq (.returnChunk chunk)
      | .returnManifest manifest => session.consumeManifest contract manifest
      | .unknown none => (.ok (), session)
      | .unknown (some seq) => session.enqueue contract seq .unknown
      | .future => (.error (.protocol
          "unknown typed record requires consume_bytes for its sequence"), session)

/-- The end of an attach: a saved terminal counts as received again. -/
def finishRecovery : Except Error Verdict × Session :=
  match session.consumer.terminal, session.consumer.point.bind ResumePoint.gapRecovery with
  | none, some gap =>
    match session.consume contract (.terminal gap.terminal) with
    | (.error error, session) => (.error error, session)
    | (.ok _, session) => (session.consumer.finish, session)
  | _, _ => (session.consumer.finish, session)

/-- The end of every attempt to recover: the gaps are lost, the saved terminal stands. -/
def finishLostOutput : Except Error Verdict × Session :=
  match session.consumer.point.bind ResumePoint.gapRecovery with
  | none =>
    (.error (session.consumer.recovery "no terminal proof for output recovery"), session)
  | some gap =>
    match session.losePending contract with
    | (.error error, session) => (.error error, session)
    | (.ok _, session) =>
      match session.consume contract (.terminal gap.terminal) with
      | (.error error, session) => (.error error, session)
      | (.ok _, session) => (session.consumer.finish, session)

end

/-- What happens to the consumers of one job. A connection that ends is followed by one that resumes
from its resume point, if there is one. -/
inductive Event
  | consume (record : StreamRecord)
  | finishRecovery
  | finishLostOutput
  | resume

def step (session : Session) : Event → Session
  | .consume record => (session.consume contract record).2
  | .finishRecovery => (session.finishRecovery contract).2
  | .finishLostOutput => (session.finishLostOutput contract).2
  | .resume =>
    match session.consumer.resumePoint with
    | none => session
    | some point => session.withConsumer (StreamConsumer.resume contract point)

def run (session : Session) (events : List Event) : Session :=
  events.foldl (step contract) session

end Session

end Aft.Remote
