import Mathlib

/-!
# The relay of push frames

The frame loop of a module hands push frames to the writer of its connection. A reliable frame goes
to the writer, waits in the retry buffer of its route while the writer is full, or waits in the
detach buffer of its owner while no route is bound. Maps of buffers are functions. A buffered
frame carries its root and its number in the order of emission, which no function reads. Each event
comes with what the writer answers, by channel and by attempt, and a bind with the order in which
the keys of the detach buffer are visited.
-/

namespace Aft.Push

open Function

/-! ## Identities and frames -/

structure ProjectRootId where
  path : String
  deriving DecidableEq, Repr

/-- A route: the daemon's channel and its generation. -/
structure RouteChannel where
  channel : ℕ
  epoch : ℕ
  deriving DecidableEq, Repr

inductive BindTrust
  | firstParty
  | untrusted
  deriving DecidableEq, Repr

def BindTrust.allowsBashObservation : BindTrust → Bool
  | .firstParty => true
  | .untrusted => false

inductive AuthenticatedPrincipal
  | firstParty
  | routeBind (principalId : Option String)
  deriving DecidableEq, Repr

/-- A consumer's session namespace, without the route, so that reconnects keep ownership. -/
structure TaskIdentity where
  principal : Option String
  harness : String
  session : String
  deriving DecidableEq, Repr

structure RouteIdentity where
  root : ProjectRootId
  harness : String
  session : String
  trust : BindTrust
  spawnPrincipal : AuthenticatedPrincipal
  deriving DecidableEq, Repr

def RouteIdentity.taskIdentity (identity : RouteIdentity) : TaskIdentity :=
  let principal :=
    match identity.spawnPrincipal with
    | .routeBind principalId => principalId
    | .firstParty => none
  ⟨principal, identity.harness, identity.session⟩

/-- Whose frames a detach buffer holds. -/
structure ReplayKey where
  root : ProjectRootId
  principal : Option String
  harness : String
  session : String
  deriving DecidableEq, Repr

def ReplayKey.fromIdentity (identity : RouteIdentity) : ReplayKey :=
  ⟨identity.root, identity.taskIdentity.principal, identity.harness, identity.session⟩

def ReplayKey.ofOwner (root : ProjectRootId) (owner : TaskIdentity) : ReplayKey :=
  ⟨root, owner.principal, owner.harness, owner.session⟩

structure RetainedSessionIdentity where
  principal : Option String
  harness : String
  trust : BindTrust
  deriving DecidableEq, Repr

inductive PushFrame
  | bashCompleted (taskId sessionId : String) (launchingIdentity : Option TaskIdentity)
  | bashLongRunning (taskId sessionId : String) (launchingIdentity : Option TaskIdentity)
  | bashPatternMatch (taskId sessionId : String) (launchingIdentity : Option TaskIdentity)
  | configureWarnings (sessionId : Option String)
  | statusChanged (sessionId : Option String)
  | progress (origin : Option RouteChannel)
  deriving DecidableEq, Repr

namespace PushFrame

def session : PushFrame → Option String
  | .bashCompleted _ sessionId _ => some sessionId
  | .bashLongRunning _ sessionId _ => some sessionId
  | .bashPatternMatch _ sessionId _ => some sessionId
  | .configureWarnings sessionId => sessionId
  | .statusChanged sessionId => sessionId
  | .progress _ => none

def taskIdentity : PushFrame → Option TaskIdentity
  | .bashCompleted _ _ launchingIdentity => launchingIdentity
  | .bashLongRunning _ _ launchingIdentity => launchingIdentity
  | .bashPatternMatch _ _ launchingIdentity => launchingIdentity
  | _ => none

def isReliable : PushFrame → Bool
  | .bashCompleted _ _ _ => true
  | .bashPatternMatch _ _ _ => true
  | .configureWarnings _ => true
  | _ => false

def isBashObservation : PushFrame → Bool
  | .bashCompleted _ _ _ => true
  | .bashLongRunning _ _ _ => true
  | .bashPatternMatch _ _ _ => true
  | _ => false

end PushFrame

/-- A frame on its way, with the root it was emitted for and its number. -/
structure Notice where
  root : ProjectRootId
  number : ℕ
  frame : PushFrame
  deriving DecidableEq, Repr

/-! ## Queues -/

def pushBufferMaxPerKey : ℕ := 256

/-- Append to a queue; a full one first loses its oldest item. -/
def boundedPushBack {α : Type*} (queue : List α) (item : α) : List α × Option α :=
  if pushBufferMaxPerKey ≤ queue.length then (queue.tail ++ [item], queue.head?)
  else (queue ++ [item], none)

inductive PushSendOutcome
  | sent
  | backpressure
  | permanentFailure
  deriving DecidableEq, Repr

/-- What the writer answers to each attempt on a channel. -/
abbrev Writer := RouteChannel → ℕ → PushSendOutcome

/-- Hand a queue over from its front until the writer is full, dropping what `skip` names: what was
tried and what is left. -/
def drainQueue {α : Type*} (skip : α → Bool) (answer : ℕ → PushSendOutcome) (attempt : ℕ) :
    List α → List (α × PushSendOutcome) × List α
  | [] => ([], [])
  | item :: rest =>
    if skip item then drainQueue skip answer attempt rest
    else
      match answer attempt with
      | .backpressure => ([(item, .backpressure)], item :: rest)
      | outcome =>
        let drained := drainQueue skip answer (attempt + 1) rest
        ((item, outcome) :: drained.1, drained.2)

/-! ## State -/

/-- An attempt to hand a frame to the writer, with the route that its channel had. -/
structure Handed where
  channel : RouteChannel
  route : Option RouteIdentity
  notice : Notice
  outcome : PushSendOutcome
  deriving DecidableEq, Repr

/-- The routing tables and buffers of the loop; `handed` and `evicted` record what it did. -/
structure Relay where
  routes : AList fun _ : RouteChannel => RouteIdentity
  rootChannels : ProjectRootId → List RouteChannel
  sessionIdentity : ProjectRootId × String → Option RetainedSessionIdentity
  retryBuffer : RouteChannel → List (ReplayKey × Notice)
  pushBuffer : ReplayKey → List Notice
  emitted : ℕ
  handed : List Handed
  evicted : List Notice

namespace Relay

def new : Relay := ⟨∅, fun _ => [], fun _ => none, fun _ => [], fun _ => [], 0, [], []⟩

variable (relay : Relay) (channel : RouteChannel)

def hand (attempt : Notice × PushSendOutcome) : Relay :=
  let record := ⟨channel, relay.routes.lookup channel, attempt.1, attempt.2⟩
  { relay with handed := relay.handed ++ [record] }

def bufferPushFrame (key : ReplayKey) (notice : Notice) : Relay :=
  let pushed := boundedPushBack (relay.pushBuffer key) notice
  { relay with
    pushBuffer := update relay.pushBuffer key pushed.1
    evicted := relay.evicted ++ pushed.2.toList }

def bufferRetryFrame (key : ReplayKey) (notice : Notice) : Relay :=
  let pushed := boundedPushBack (relay.retryBuffer channel) (key, notice)
  { relay with
    retryBuffer := update relay.retryBuffer channel pushed.1
    evicted := relay.evicted ++ (pushed.2.map Prod.snd).toList }

def migrateRetryBufferToPushBuffer : Relay :=
  (relay.retryBuffer channel).foldl (fun relay entry => relay.bufferPushFrame entry.1 entry.2)
    { relay with retryBuffer := update relay.retryBuffer channel [] }

/-! ## Replay and retry -/

/-- A frame of a task that was saved without its launching identity. -/
def isLegacy (notice : Notice) : Bool :=
  notice.frame.isBashObservation && notice.frame.taskIdentity.isNone

/-- Move the legacy frames of one key behind those of another. -/
def moveLegacy (key : ReplayKey) (relay : Relay) (legacyKey : ReplayKey) : Relay :=
  let queue := relay.pushBuffer legacyKey
  (queue.filter isLegacy).foldl (fun relay notice => relay.bufferPushFrame key notice)
    { relay with
      pushBuffer := update relay.pushBuffer legacyKey
        (queue.filter fun notice => !isLegacy notice) }

def mergeLegacy (key : ReplayKey) (keys : List ReplayKey) : Relay :=
  (keys.filter fun candidate =>
    candidate.root = key.root ∧ candidate.harness = key.harness ∧
      candidate.session = key.session ∧ candidate ≠ key).foldl (moveLegacy key) relay

variable (writer : Writer)

def replayBufferedPushFrames (channel : RouteChannel) (keys : List ReplayKey) (key : ReplayKey)
    (trust : BindTrust) : Relay :=
  let relay := if trust.allowsBashObservation then relay.mergeLegacy key keys else relay
  let drained := drainQueue
    (fun notice => notice.frame.isBashObservation && !trust.allowsBashObservation)
    (writer channel) 0 (relay.pushBuffer key)
  drained.1.foldl (fun relay attempt => relay.hand channel attempt)
    { relay with pushBuffer := update relay.pushBuffer key drained.2 }

def drainRetryBufferForChannel (relay : Relay) (channel : RouteChannel) : Relay :=
  let drained := drainQueue (fun _ => false) (writer channel) 0 (relay.retryBuffer channel)
  drained.1.foldl (fun relay attempt => relay.hand channel (attempt.1.2, attempt.2))
    { relay with retryBuffer := update relay.retryBuffer channel drained.2 }

def drainRetryBuffersForBoundRoutes : Relay :=
  relay.routes.keys.foldl (drainRetryBufferForChannel writer) relay

/-! ## Fan-out -/

def matchingSessionRouteChannels (root : ProjectRootId) (session : Option String)
    (bashObservation : Bool) : List RouteChannel :=
  (relay.rootChannels root).filter fun channel =>
    match relay.routes.lookup channel with
    | none => !bashObservation && session.isNone
    | some identity =>
      !(bashObservation && !identity.trust.allowsBashObservation) &&
        session.all fun session => identity.session = session

def matchingRouteChannels (root : ProjectRootId) (frame : PushFrame) : List RouteChannel :=
  match frame with
  | .progress none => []
  | .progress (some route) =>
    if route ∈ relay.rootChannels root ∧
        (relay.routes.lookup route).any fun identity => identity.root = root then [route]
    else []
  | frame =>
    (relay.matchingSessionRouteChannels root frame.session frame.isBashObservation).filter
      fun channel => frame.taskIdentity.all fun owner =>
        (relay.routes.lookup channel).any fun identity => identity.taskIdentity = owner

def replayKeyForSession (root : ProjectRootId) (session : String) :
    Option (ReplayKey × BindTrust) :=
  (relay.sessionIdentity (root, session)).map fun retained =>
    (⟨root, retained.principal, retained.harness, session⟩, retained.trust)

/-- Keep a reliable frame that no route takes, under the key of its owner or of its session. -/
def bufferDetachedReliablePushFrame (notice : Notice) : Relay :=
  match notice.frame.session with
  | none => relay
  | some session =>
    match notice.frame.taskIdentity with
    | some owner => relay.bufferPushFrame (.ofOwner notice.root owner) notice
    | none =>
      match relay.replayKeyForSession notice.root session with
      | none => relay
      | some (key, trust) =>
        if notice.frame.isBashObservation ∧ ¬trust.allowsBashObservation then relay
        else relay.bufferPushFrame key notice

/-- Send a reliable frame on one route, behind the frames that wait there. -/
def offerReliable (notice : Notice) (relay : Relay) (channel : RouteChannel) : Relay :=
  match relay.routes.lookup channel with
  | none => relay
  | some identity =>
    let key := ReplayKey.fromIdentity identity
    if relay.retryBuffer channel ≠ [] then relay.bufferRetryFrame channel key notice
    else
      match writer channel 0 with
      | .backpressure =>
        (relay.hand channel (notice, .backpressure)).bufferRetryFrame channel key notice
      | outcome => relay.hand channel (notice, outcome)

def fanOutReliablePushFrame (notice : Notice) : Relay :=
  match relay.matchingRouteChannels notice.root notice.frame with
  | [] => relay.bufferDetachedReliablePushFrame notice
  | channels => channels.foldl (offerReliable writer notice) relay

/-- Send a frame that may be lost once on every matching route. -/
def fanOutLossyPushFrame (notice : Notice) : Relay :=
  (relay.matchingRouteChannels notice.root notice.frame).foldl
    (fun relay channel => relay.hand channel (notice, writer channel 0)) relay

/-! ## Routes -/

def removeRootChannel (root : ProjectRootId) (channel : RouteChannel) : Relay :=
  { relay with
    rootChannels := update relay.rootChannels root
      ((relay.rootChannels root).filter fun other => other ≠ channel) }

def removeRouteChannel : Relay :=
  match relay.routes.lookup channel with
  | none => relay
  | some identity =>
    { relay with routes := relay.routes.erase channel }.removeRootChannel identity.root channel

def insertRouteChannel (identity : RouteIdentity) : Relay :=
  let replaced := { relay with routes := relay.routes.insert channel identity }
  let relay :=
    match relay.routes.lookup channel with
    | none => replaced
    | some previous => replaced.removeRootChannel previous.root channel
  { relay with
    rootChannels := update relay.rootChannels identity.root
      ((relay.rootChannels identity.root).insert channel) }

/-- An untrusted bind never takes the place of a first-party identity. -/
def rememberSessionIdentity (identity : RouteIdentity) : Relay :=
  let key := (identity.root, identity.session)
  if identity.trust = .untrusted ∧
      (relay.sessionIdentity key).any fun retained => retained.trust = .firstParty then relay
  else
    { relay with
      sessionIdentity := update relay.sessionIdentity key
        (some ⟨identity.taskIdentity.principal, identity.harness, identity.trust⟩) }

/-- A bind whose configure succeeded: the route is installed and its owner's frames replayed. -/
def handleRouteBindCompletion (keys : List ReplayKey) (channel : RouteChannel)
    (identity : RouteIdentity) : Relay :=
  ((relay.rememberSessionIdentity identity).insertRouteChannel channel
    identity).replayBufferedPushFrames writer channel keys (.fromIdentity identity) identity.trust

def teardownInstalledRoute : Relay :=
  (relay.migrateRetryBufferToPushBuffer channel).removeRouteChannel channel

def dropRoute : Relay :=
  let removed := relay.removeRouteChannel channel
  { removed with retryBuffer := update removed.retryBuffer channel [] }

/-- Forget everything of a root whose directory was removed. -/
def purgeDeletedRootResidents (root : ProjectRootId) : Relay :=
  let stale := relay.rootChannels root ++ relay.routes.keys.filter fun channel =>
    (relay.routes.lookup channel).any fun identity => identity.root = root
  let relay := stale.foldl dropRoute relay
  { relay with
    rootChannels := update relay.rootChannels root []
    sessionIdentity := fun key => if key.1 = root then none else relay.sessionIdentity key
    pushBuffer := fun key => if key.root = root then [] else relay.pushBuffer key }

/-! ## Runs -/

inductive Event
  | emit (root : ProjectRootId) (frame : PushFrame) (writer : Writer)
  | bind (channel : RouteChannel) (identity : RouteIdentity) (keys : List ReplayKey)
      (writer : Writer)
  | goodbye (channel : RouteChannel)
  | tick (writer : Writer)
  | reclaim (root : ProjectRootId)

def Event.bound : Event → Option RouteChannel
  | .bind channel _ _ _ => some channel
  | _ => none

def step : Event → Relay
  | .emit root frame writer =>
    let notice := ⟨root, relay.emitted, frame⟩
    let relay := { relay with emitted := relay.emitted + 1 }
    if frame.isReliable then relay.fanOutReliablePushFrame writer notice
    else relay.fanOutLossyPushFrame writer notice
  | .bind channel identity keys writer =>
    relay.handleRouteBindCompletion writer keys channel identity
  | .goodbye channel => relay.teardownInstalledRoute channel
  | .tick writer => relay.drainRetryBuffersForBoundRoutes writer
  | .reclaim root => relay.purgeDeletedRootResidents root

def run (events : List Event) : Relay := events.foldl step relay

end Relay

/-! ## What the relay does to its queues and tables

Only binds, goodbyes and reclaimed roots change the routes. -/

open List

theorem mem_boundedPushBack {α : Type*} {queue : List α} {item other : α}
    (h : other ∈ (boundedPushBack queue item).1) : other ∈ queue ∨ other = item := by
  unfold boundedPushBack at h
  split_ifs at h
  · rcases mem_append.1 h with hold | hnew
    · exact .inl (mem_of_mem_tail hold)
    · exact .inr (mem_singleton.1 hnew)
  · rcases mem_append.1 h with hold | hnew
    · exact .inl hold
    · exact .inr (mem_singleton.1 hnew)

section Drain

variable {α : Type*} {queue : List α} {item : α} {skip : α → Bool} {answer : ℕ → PushSendOutcome}

theorem mem_drainQueue_left {attempt : ℕ} (h : item ∈ (drainQueue skip answer attempt queue).2) :
    item ∈ queue := by
  induction queue generalizing attempt with
  | nil => exact h
  | cons first rest ih =>
    unfold drainQueue at h
    split_ifs at h
    · exact mem_cons_of_mem _ (ih h)
    · split at h
      · exact h
      · exact mem_cons_of_mem _ (ih h)

theorem mem_drainQueue_tried {attempt : ℕ} {tried : α × PushSendOutcome}
    (h : tried ∈ (drainQueue skip answer attempt queue).1) :
    tried.1 ∈ queue ∧ skip tried.1 = false := by
  induction queue generalizing attempt with
  | nil => cases h
  | cons first rest ih =>
    unfold drainQueue at h
    split_ifs at h with hs
    · obtain ⟨hmem, hk⟩ := ih h
      exact ⟨mem_cons_of_mem _ hmem, hk⟩
    · have hf : skip first = false := by simpa using hs
      split at h
      · rw [mem_singleton.1 h]
        exact ⟨mem_cons_self, hf⟩
      · rcases mem_cons.1 h with rfl | hr
        · exact ⟨mem_cons_self, hf⟩
        · obtain ⟨hmem, hk⟩ := ih hr
          exact ⟨mem_cons_of_mem _ hmem, hk⟩

end Drain

namespace Relay

/-- The tables that say where a frame goes. -/
def tables (relay : Relay) :
    (AList fun _ : RouteChannel => RouteIdentity) × (ProjectRootId → List RouteChannel) :=
  (relay.routes, relay.rootChannels)

section Tables

variable {relay : Relay} {channel : RouteChannel} {key : ReplayKey} {notice : Notice}

section

variable {root root' : ProjectRootId} {other : RouteChannel}

theorem mem_removeRootChannel : other ∈ (relay.removeRootChannel root' channel).rootChannels root ↔
    other ∈ relay.rootChannels root ∧ (root = root' → other ≠ channel) := by
  unfold removeRootChannel
  by_cases h : root = root' <;> simp [h]

theorem mem_update_insert {channels : ProjectRootId → List RouteChannel} :
    other ∈ update channels root' ((channels root').insert channel) root ↔
      root = root' ∧ other = channel ∨ other ∈ channels root := by
  by_cases h : root = root' <;> simp [h]

end

theorem tables_foldl {α : Type*} {f : Relay → α → Relay} (items : List α) (relay : Relay)
    (hf : ∀ relay item, (f relay item).tables = relay.tables) :
    (items.foldl f relay).tables = relay.tables := by
  induction items generalizing relay with
  | nil => rfl
  | cons first rest ih => exact (ih _).trans (hf relay first)

theorem tables_migrate : (relay.migrateRetryBufferToPushBuffer channel).tables = relay.tables := by
  exact tables_foldl _ _ fun _ _ => rfl

theorem tables_moveLegacy (legacyKey : ReplayKey) :
    (moveLegacy key relay legacyKey).tables = relay.tables := by
  exact tables_foldl _ _ fun _ _ => rfl

theorem tables_mergeLegacy (keys : List ReplayKey) :
    (relay.mergeLegacy key keys).tables = relay.tables := by
  exact tables_foldl _ _ fun _ _ => tables_moveLegacy _

variable (writer : Writer)

theorem tables_replay (keys : List ReplayKey) (trust : BindTrust) :
    (relay.replayBufferedPushFrames writer channel keys key trust).tables = relay.tables := by
  refine (tables_foldl (f := fun relay attempt => relay.hand channel attempt) _ _
    fun _ _ => rfl).trans ?_
  split_ifs
  · exact tables_mergeLegacy keys
  · rfl

theorem tables_drainRetry :
    (relay.drainRetryBufferForChannel writer channel).tables = relay.tables := by
  exact tables_foldl _ _ fun _ _ => rfl

theorem tables_drainRetries :
    (relay.drainRetryBuffersForBoundRoutes writer).tables = relay.tables := by
  exact tables_foldl _ _ fun _ _ => tables_drainRetry writer

theorem tables_offerReliable :
    (relay.offerReliable writer notice channel).tables = relay.tables := by
  unfold offerReliable
  split
  · rfl
  · dsimp only
    split_ifs
    · rfl
    · split <;> rfl

theorem tables_fanOutReliable :
    (relay.fanOutReliablePushFrame writer notice).tables = relay.tables := by
  unfold fanOutReliablePushFrame
  split
  · unfold bufferDetachedReliablePushFrame
    split
    · rfl
    · split
      · rfl
      · split
        · rfl
        · split_ifs <;> rfl
  · exact tables_foldl _ _ fun _ _ => tables_offerReliable writer

theorem tables_fanOutLossy : (relay.fanOutLossyPushFrame writer notice).tables = relay.tables := by
  exact tables_foldl _ _ fun _ _ => rfl

theorem tables_emit (root : ProjectRootId) (frame : PushFrame) (writer : Writer) :
    (relay.step (.emit root frame writer)).tables = relay.tables := by
  unfold step
  dsimp only
  split_ifs
  · exact tables_fanOutReliable writer
  · exact tables_fanOutLossy writer

theorem tables_rememberSessionIdentity (identity : RouteIdentity) :
    (relay.rememberSessionIdentity identity).tables = relay.tables := by
  unfold rememberSessionIdentity
  dsimp only
  split_ifs <;> rfl

theorem routes_insertRouteChannel (identity : RouteIdentity) :
    (relay.insertRouteChannel channel identity).routes = relay.routes.insert channel identity := by
  unfold insertRouteChannel
  cases relay.routes.lookup channel <;> rfl

theorem routes_removeRouteChannel :
    (relay.removeRouteChannel channel).routes = relay.routes.erase channel := by
  unfold removeRouteChannel
  split
  · next hn =>
      refine (AList.ext ?_).symm
      exact kerase_of_notMem_keys (AList.lookup_eq_none.1 hn)
  · rfl

theorem routes_bind (keys : List ReplayKey) (identity : RouteIdentity) :
    (relay.handleRouteBindCompletion writer keys channel identity).routes =
      relay.routes.insert channel identity := by
  refine (congrArg Prod.fst (tables_replay writer keys _)).trans ?_
  refine (routes_insertRouteChannel identity).trans ?_
  exact congrArg (AList.insert channel identity)
    (congrArg Prod.fst (tables_rememberSessionIdentity identity))

theorem routes_teardown :
    (relay.teardownInstalledRoute channel).routes = relay.routes.erase channel :=
  routes_removeRouteChannel.trans
    (congrArg (AList.erase channel) (congrArg Prod.fst tables_migrate))

theorem mem_routes_dropRoutes {stale : List RouteChannel}
    (h : channel ∈ (stale.foldl dropRoute relay).routes) : channel ∈ relay.routes := by
  induction stale generalizing relay with
  | nil => exact h
  | cons first rest ih =>
    have hr : channel ∈ (relay.dropRoute first).routes := ih h
    have hro : (relay.dropRoute first).routes = relay.routes.erase first :=
      routes_removeRouteChannel
    rw [hro] at hr
    exact (AList.mem_erase.1 hr).2

theorem mem_routes_step {event : Event} (h : channel ∈ (relay.step event).routes) :
    channel ∈ relay.routes ∨ event.bound = some channel := by
  cases event with
  | emit root frame writer =>
    have hr : (relay.step (.emit root frame writer)).routes = relay.routes :=
      congrArg Prod.fst (tables_emit root frame writer)
    exact .inl (hr ▸ h)
  | bind other identity keys writer =>
    have hr : (relay.step (.bind other identity keys writer)).routes =
        relay.routes.insert other identity := routes_bind writer keys identity
    rw [hr, AList.mem_insert] at h
    rcases h with rfl | hold
    · exact .inr rfl
    · exact .inl hold
  | goodbye other =>
    have hr : (relay.step (.goodbye other)).routes = relay.routes.erase other :=
      routes_teardown
    rw [hr, AList.mem_erase] at h
    exact .inl h.2
  | tick writer =>
    have hr : (relay.step (.tick writer)).routes = relay.routes :=
      congrArg Prod.fst (tables_drainRetries writer)
    exact .inl (hr ▸ h)
  | reclaim root => exact .inl (mem_routes_dropRoutes h)

end Tables

end Relay

end Aft.Push
