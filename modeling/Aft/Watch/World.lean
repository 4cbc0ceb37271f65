import Mathlib

/-!
# The watcher thread and the drain of its events

The thread takes changed paths into a flush window, filters a full window by the ignore rules and
dispatches what is left to the drain over a bounded channel. While the channel is full, events wait
in a backlog that merges, drops and replaces them. One iteration of its loop is an agenda of tasks,
so that the drain may run between any two of them, each with the room that the channel has for it.
`World.notes` records what happened, the newest note first, and `CookieObserved` carries the number
of notes at its creation; neither is read by the code.

The drain applies changed paths in slices of any size. It records changes and overflows with the
checkout views, and acknowledges a cookie once the changes before it are recorded. What the matcher
becomes, which paths are git HEAD metadata and how many paths a slice takes are inputs of the steps.
-/

namespace Aft.Watch

/-! ## Events -/

inductive RescanReason
  | kernelDropped
  | userDropped
  | unknown
  | bufferOverflow
  deriving DecidableEq, Repr

inductive WatcherDispatchEvent (Path : Type)
  | paths (paths : List Path)
  | contentOnlyPaths (paths : List Path)
  | cookieObserved (cookie : Path) (stamp : ℕ)
  | rescanRequired (reason : RescanReason)
  | ignoreRulesChanged (paths : List Path)
  deriving DecidableEq, Repr

namespace WatcherDispatchEvent

variable {Path : Type}

def batch : WatcherDispatchEvent Path → List Path
  | .paths changed => changed
  | .contentOnlyPaths changed => changed
  | _ => []

def isPathBatch : WatcherDispatchEvent Path → Bool
  | .paths _ => true
  | .contentOnlyPaths _ => true
  | _ => false

def isCookie : WatcherDispatchEvent Path → Bool
  | .cookieObserved _ _ => true
  | _ => false

def isRescan : WatcherDispatchEvent Path → Bool
  | .rescanRequired _ => true
  | _ => false

def ofPaths (paths : List Path) (contentOnly : Bool) : WatcherDispatchEvent Path :=
  if contentOnly then .contentOnlyPaths paths else .paths paths

end WatcherDispatchEvent

/-- What an ignore matcher decides: the paths that a flush drops, the rule files, and the paths that
the drain drops. -/
structure Matcher (Path : Type) where
  ignores : Path → Bool
  isRuleChange : Path → Bool
  ignoresQueued : Path → Bool

/-- A matcher that ignores nothing. -/
def Matcher.permissive : Matcher ℕ := ⟨fun _ => false, fun _ => false, fun _ => false⟩

/-- What happened, for statements about runs. -/
inductive Note (Path : Type)
  | took (path : Path) (contentOnly : Bool)
  | ignored (path : Path)
  | dispatched (event : WatcherDispatchEvent Path)
  | sent (event : WatcherDispatchEvent Path)
  | marked
  | change (path : Path)
  | overflow
  | dropped (path : Path)
  | acked (cookie : Path) (stamp : ℕ)
  deriving DecidableEq, Repr

/-- A running rescan may be told to run again. -/
inductive RescanState
  | idle
  | running
  | rerun
  deriving DecidableEq, Repr

/-- What one iteration of the thread's loop still has to do. -/
inductive Task (Path : Type)
  | take (paths : List Path) (contentOnly : Bool)
  | flush
  | awaitRules (observed : ℕ) (raw contentOnly : List Path)
  | dispatch (event : WatcherDispatchEvent Path)
  deriving DecidableEq, Repr

/-- A slice of watcher work that the drain applies. -/
inductive DrainPhase (Path : Type)
  | collect
  | apply (recorded remaining : List Path)
  deriving DecidableEq, Repr

structure Drain (Path : Type) where
  rescanRequired : Bool
  pendingPaths : List Path
  phase : DrainPhase Path
  deriving DecidableEq, Repr

/-- The watcher thread, the drain and what they share. -/
structure World (Path : Type) where
  rawPaths : List Path
  contentOnlyPaths : List Path
  backlog : List (WatcherDispatchEvent Path)
  agenda : List (Task Path)
  channel : List (WatcherDispatchEvent Path)
  matcher : Matcher Path
  generation : ℕ
  rescan : RescanState
  gapPending : Bool
  drain : Drain Path
  notes : List (Note Path)

def watcherMaxBatchPaths : ℕ := 1024

def watcherDispatchBacklogMaxPaths : ℕ := 16 * watcherMaxBatchPaths

/-- How a dispatched event left the thread. -/
inductive Dispatch
  | sent
  | held
  deriving DecidableEq, Repr

namespace World

variable {Path : Type} [DecidableEq Path]

def start (matcher : Matcher Path) : World Path :=
  { rawPaths := []
    contentOnlyPaths := []
    backlog := []
    agenda := []
    channel := []
    matcher
    generation := 0
    rescan := .idle
    gapPending := false
    drain := ⟨false, [], .collect⟩
    notes := [] }

def note (world : World Path) (note : Note Path) : World Path :=
  { world with notes := note :: world.notes }

/-! ## The backlog -/

variable (world : World Path)

def put (event : WatcherDispatchEvent Path) : World Path :=
  { world with channel := world.channel ++ [event] }.note (.sent event)

/-- Count an overflow: a rescan that is running is told to run again. -/
def noteOverflow : Bool × World Path :=
  match world.rescan with
  | .idle => (false, world)
  | _ => (true, { world with rescan := .rerun, gapPending := true }.note .marked)

/-- Move held events into the channel, oldest first, as long as it has room. -/
def retryBacklog (world : World Path) : ℕ → World Path × ℕ
  | 0 => (world, 0)
  | room + 1 =>
    match world.backlog with
    | [] => (world, room + 1)
    | event :: backlog => retryBacklog ({ world with backlog }.put event) room

def mergePaths (held more : List Path) : List Path := (held ++ more).dedup

section

variable (backlog : List (WatcherDispatchEvent Path))

/-- The backlog without path batches and cookies, whose proof goes with the paths before them. -/
def withoutPaths : List (WatcherDispatchEvent Path) :=
  backlog.filter fun held => !held.isPathBatch && !held.isCookie

def joinPaths (paths : List Path) (contentOnly : Bool) : List (WatcherDispatchEvent Path) :=
  match backlog.getLast? with
  | some (.paths held) => backlog.dropLast ++ [.paths (mergePaths held paths)]
  | some (.contentOnlyPaths held) =>
    backlog.dropLast ++ [.ofPaths (mergePaths held paths) contentOnly]
  | _ => backlog ++ [.ofPaths paths contentOnly]

def heldPaths : ℕ :=
  (backlog.map fun held => held.batch.length).sum

end

def holdPaths (paths : List Path) (contentOnly : Bool) : World Path :=
  let world := { world with backlog := joinPaths world.backlog paths contentOnly }
  if heldPaths world.backlog ≤ watcherDispatchBacklogMaxPaths then world
  else
    match world.noteOverflow with
    | (true, world) => { world with backlog := withoutPaths world.backlog }
    | (false, world) =>
      { world with
        backlog := withoutPaths world.backlog ++
          [WatcherDispatchEvent.rescanRequired .bufferOverflow] }

/-- Add an event to the backlog. A rescan request replaces every held path batch and keeps later
ones out. -/
def holdEvent (event : WatcherDispatchEvent Path) : World Path :=
  let rescanHeld := world.backlog.any WatcherDispatchEvent.isRescan
  match event with
  | .paths paths => if rescanHeld then world else world.holdPaths paths false
  | .contentOnlyPaths paths => if rescanHeld then world else world.holdPaths paths true
  | .rescanRequired reason =>
    if rescanHeld then { world with backlog := withoutPaths world.backlog }
    else
      { world with
        backlog := withoutPaths world.backlog ++ [WatcherDispatchEvent.rescanRequired reason] }
  | .cookieObserved cookie stamp =>
    if rescanHeld then world
    else { world with backlog := world.backlog ++ [.cookieObserved cookie stamp] }
  | .ignoreRulesChanged paths =>
    match world.backlog.getLast? with
    | some (.ignoreRulesChanged held) =>
      { world with
        backlog := world.backlog.dropLast ++ [.ignoreRulesChanged (mergePaths held paths)] }
    | _ => { world with backlog := world.backlog ++ [.ignoreRulesChanged paths] }

/-- Hand an event to the channel without waiting; without room it joins the backlog. -/
def sendDispatch (room : ℕ) (event : WatcherDispatchEvent Path) : Dispatch × World Path :=
  match (world.note (.dispatched event)).retryBacklog room with
  | (world, 0) => (.held, world.holdEvent event)
  | (world, _ + 1) => (.sent, world.put event)

/-! ## The flush window -/

/-- Take one path into the window. A create followed by a write is still a create. -/
def pushRawPath (contentOnly : Bool) (world : World Path) (path : Path) : World Path :=
  let fresh := path ∉ world.rawPaths
  let keep := contentOnly && (fresh || path ∈ world.contentOnlyPaths)
  { world with
    rawPaths := world.rawPaths.insert path
    contentOnlyPaths :=
      if keep then world.contentOnlyPaths.insert path
      else world.contentOnlyPaths.filter fun other => other ≠ path }.note (.took path contentOnly)

def pushRawPathsWithKind (paths : List Path) (contentOnly : Bool) : World Path :=
  let world := paths.foldl (pushRawPath contentOnly) world
  if watcherMaxBatchPaths ≤ world.rawPaths.length then
    { world with agenda := .flush :: world.agenda }
  else world

/-- Dispatch what a matcher leaves of a window. -/
def finishFlush (raw contentOnly : List Path) : World Path :=
  let ignored := raw.filter world.matcher.ignores
  let changed := raw.filter fun path => !world.matcher.ignores path
  let world := { world with notes := ignored.map Note.ignored ++ world.notes }
  if changed = [] then world
  else
    let event := WatcherDispatchEvent.ofPaths changed
      (changed.all fun path => path ∈ contentOnly)
    { world with agenda := .dispatch event :: world.agenda }

/-- Empty the window. A changed rule file is dispatched first, and the rest waits for the new
matcher; a rescan takes over when the rules cannot be handed over at once. -/
def flushRawPaths (room : ℕ) : World Path :=
  if world.rawPaths = [] then world
  else
    let raw := world.rawPaths
    let contentOnly := world.contentOnlyPaths
    let rules := raw.filter world.matcher.isRuleChange
    let world := { world with rawPaths := [], contentOnlyPaths := [] }
    if rules = [] then world.finishFlush raw contentOnly
    else
      let observed := world.generation
      match world.sendDispatch room (.ignoreRulesChanged rules) with
      | (.held, world) =>
        { world with agenda := .dispatch (.rescanRequired .unknown) :: world.agenda }
      | (.sent, world) =>
        { world with agenda := .awaitRules observed raw contentOnly :: world.agenda }

/-- The end of the wait for the matcher: without a new one the window is kept and a rescan
requested. -/
def afterRules (observed : ℕ) (raw contentOnly : List Path) : World Path :=
  if world.generation = observed then
    { world with
      rawPaths := raw.foldl (fun paths path => paths.insert path) world.rawPaths
      contentOnlyPaths := contentOnly.foldl (fun paths path => paths.insert path)
        world.contentOnlyPaths
      agenda := .dispatch (.rescanRequired .unknown) :: world.agenda }
  else world.finishFlush raw contentOnly

/-! ## The loop -/

def perform (room : ℕ) : Task Path → World Path
  | .take paths contentOnly => world.pushRawPathsWithKind paths contentOnly
  | .flush => world.flushRawPaths room
  | .awaitRules observed raw contentOnly => world.afterRules observed raw contentOnly
  | .dispatch event => (world.sendDispatch room event).2

/-- The next task of an iteration, or its start with a raw event, a rescan notice, the end of the
window or a retry of the backlog. -/
inductive ThreadStep (Path : Type)
  | work (room : ℕ)
  | receive (paths : List Path) (contentOnly : Bool) (cookies : List Path)
  | rescanNotice (reason : RescanReason)
  | flushDue
  | retry (room : ℕ)
  deriving DecidableEq, Repr

/-- A rescan notice discards the window: the rescan reads the files as they are then. -/
def takeRescanNotice (reason : RescanReason) : World Path :=
  let overflow := world.noteOverflow
  let world := { overflow.2 with rawPaths := [], contentOnlyPaths := [] }
  if overflow.1 then world
  else { world with agenda := [.dispatch (.rescanRequired reason)] }

def receiveEvent (paths : List Path) (contentOnly : Bool) (cookies : List Path) : World Path :=
  let stamp := world.notes.length
  let intake : List (Task Path) := if paths = [] then [] else [.take paths contentOnly]
  { world with
    agenda := intake ++ cookies.flatMap fun cookie =>
      [.flush, .dispatch (.cookieObserved cookie stamp)] }

def threadStep (step : ThreadStep Path) : World Path :=
  match world.agenda, step with
  | task :: agenda, .work room => { world with agenda }.perform room task
  | [], .receive paths contentOnly cookies => world.receiveEvent paths contentOnly cookies
  | [], .rescanNotice reason => world.takeRescanNotice reason
  | [], .flushDue => { world with agenda := [.flush] }
  | [], .retry room => (world.retryBacklog room).1
  | _, _ => world

end World

variable {Path : Type} [DecidableEq Path]

def DrainPhase.paths : DrainPhase Path → List Path
  | .collect => []
  | .apply recorded remaining => recorded ++ remaining

def DrainPhase.retain (keep : Path → Bool) : DrainPhase Path → DrainPhase Path
  | .collect => .collect
  | .apply recorded remaining => .apply (recorded.filter keep) (remaining.filter keep)

namespace World

/-! ## Records -/

variable (world : World Path)

def recordCheckoutWatcherChanges (paths : List Path) : World Path :=
  { world with notes := paths.reverse.map Note.change ++ world.notes }

def recordCheckoutWatcherOverflow : World Path := world.note .overflow

/-- A gap that the thread left behind is recorded as an overflow, once. -/
def recordCheckoutPendingWatcherGap : World Path :=
  if world.gapPending then { world with gapPending := false }.recordCheckoutWatcherOverflow
  else world

def recordCheckoutWatcherCookie (cookie : Path) (stamp : ℕ) : World Path :=
  world.recordCheckoutPendingWatcherGap.note (.acked cookie stamp)

/-! ## Ignore rules -/

/-- Publish a matcher; queued paths that it ignores are retired. -/
def publishMatcher (matcher : Matcher Path) : World Path :=
  let keep := fun path => !matcher.ignoresQueued path
  let queued := world.drain.pendingPaths ++ world.drain.phase.paths
  { world with
    matcher
    generation := world.generation + 1
    drain := { world.drain with
      pendingPaths := world.drain.pendingPaths.filter keep
      phase := world.drain.phase.retain keep }
    notes := (queued.filter matcher.ignoresQueued).map Note.dropped ++ world.notes }

/-- Changed rules rebuild the matcher and queue the paths that they affect. -/
def receiveRules (rules : Option (Matcher Path)) (affected : List Path) : World Path :=
  if world.drain.rescanRequired then world
  else
    let world :=
      match rules with
      | none => world
      | some matcher => world.publishMatcher matcher
    { world with
      drain := { world.drain with pendingPaths := world.drain.pendingPaths ++ affected } }

/-! ## Receiving -/

/-- A batch is skipped while a rescan is required. -/
def receivePaths (paths : List Path) : World Path :=
  if world.drain.rescanRequired then world
  else
    { world with
      drain := { world.drain with
        pendingPaths := world.drain.pendingPaths ++
          paths.filter fun path => !world.matcher.ignoresQueued path }
      notes := (paths.filter world.matcher.ignoresQueued).map Note.dropped ++ world.notes }

def receiveRescan : World Path :=
  { world.recordCheckoutWatcherOverflow with drain := ⟨true, [], .collect⟩ }

/-- Changes that still wait for their slice are recorded before the cookie. -/
def receiveCookie (cookie : Path) (stamp : ℕ) : World Path :=
  (world.recordCheckoutWatcherChanges
    (world.drain.pendingPaths ++ world.drain.phase.paths)).recordCheckoutWatcherCookie cookie stamp

inductive DrainStep (Path : Type)
  | begin
  | receive (rules : Option (Matcher Path)) (affected : List Path)
  | publishRescan (matcher : Matcher Path)
  | startRescan
  | finishRescan
  | refreshIgnored
  | collect (maxPaths : ℕ) (heads : List Path)
  | applyPath
  | applyDone

def receive (rules : Option (Matcher Path)) (affected : List Path) : World Path :=
  match world.channel with
  | [] => world
  | event :: channel =>
    let world := { world with channel }
    match event with
    | .paths paths => world.receivePaths paths
    | .contentOnlyPaths paths => world.receivePaths paths
    | .rescanRequired _ => world.receiveRescan
    | .cookieObserved cookie stamp => world.receiveCookie cookie stamp
    | .ignoreRulesChanged _ => world.receiveRules rules affected

/-! ## Slices -/

/-- A rescan that was told to run again stays required. -/
def finishRescan : World Path :=
  match world.rescan with
  | .rerun => { world with rescan := .running }
  | _ => { world with rescan := .idle, drain := { world.drain with rescanRequired := false } }

/-- Take pending paths into a slice, each once and without git HEAD metadata. -/
def collectPaths (maxPaths : ℕ) (heads : List Path) : World Path :=
  let taken := (world.drain.pendingPaths.take maxPaths).dedup
  let left := world.drain.pendingPaths.drop maxPaths
  if taken = [] then { world with drain := { world.drain with pendingPaths := left } }
  else
    { world with
      drain := { world.drain with
        pendingPaths := left
        phase := .apply [] (taken.filter fun path => path ∉ heads) } }

def drainStep : DrainStep Path → World Path
  | .begin => world.recordCheckoutPendingWatcherGap
  | .receive rules affected => world.receive rules affected
  | .publishRescan matcher =>
    if world.drain.rescanRequired then world.publishMatcher matcher else world
  | .startRescan =>
    if world.drain.rescanRequired ∧ world.rescan = .idle then { world with rescan := .running }
    else world
  | .finishRescan => if world.drain.rescanRequired then world.finishRescan else world
  | .refreshIgnored =>
    if world.drain.rescanRequired then world else world.recordCheckoutWatcherOverflow
  | .collect maxPaths heads =>
    match world.drain.rescanRequired, world.drain.phase with
    | false, .collect => world.collectPaths maxPaths heads
    | _, _ => world
  | .applyPath =>
    match world.drain.phase with
    | .apply recorded (path :: remaining) =>
      { world with
        drain := { world.drain with
          phase := .apply (recorded ++ [path]) remaining } }.recordCheckoutWatcherChanges [path]
    | _ => world
  | .applyDone =>
    match world.drain.phase with
    | .apply _ [] => { world with drain := { world.drain with phase := .collect } }
    | _ => world

/-! ## Runs -/

inductive Step (Path : Type)
  | thread (step : ThreadStep Path)
  | drain (step : DrainStep Path)

def step (world : World Path) : Step Path → World Path
  | .thread step => world.threadStep step
  | .drain step => world.drainStep step

def run (steps : List (Step Path)) : World Path := steps.foldl step world

end World

end Aft.Watch
