import Aft.Push.Relay

/-!
# The line of a caller's reliable frames

`InOrder` is the abstract line of one caller's frames: those accepted and those waiting are in the
order of emission, and every frame was accepted, waits or was evicted. A frame joins it, the oldest
is evicted, or the oldest is accepted. The waiting frames stand in the detach buffer while no route
of the caller is bound and in the retry buffer of the route otherwise (`Waits`).
-/

namespace Aft.Push

open List Function Relay

/-! ## Lines -/

/-- The numbers accepted, waiting and evicted, of `emitted` frames. -/
structure InOrder (accepted waiting evicted : List ℕ) (emitted : ℕ) : Prop where
  ordered : (accepted ++ waiting).Pairwise (· < ·)
  below : ∀ n ∈ accepted ++ waiting, n < emitted
  complete : ∀ n < emitted, n ∈ accepted ∨ n ∈ waiting ∨ n ∈ evicted

variable {answer : ℕ → PushSendOutcome}

namespace InOrder

variable {accepted waiting evicted : List ℕ} {emitted n : ℕ}

theorem emit (h : InOrder accepted waiting evicted emitted) :
    InOrder accepted (waiting ++ [emitted]) evicted (emitted + 1) := by
  refine ⟨?_, fun n hn => ?_, fun n hn => ?_⟩
  · rw [← append_assoc]
    refine pairwise_append.2 ⟨h.ordered, pairwise_singleton _ _, fun n hn m hm => ?_⟩
    rw [mem_singleton.1 hm]
    exact h.below n hn
  · rw [← append_assoc] at hn
    rcases mem_append.1 hn with hold | hnew
    · exact (h.below n hold).trans (Nat.lt_succ_self _)
    · exact (mem_singleton.1 hnew).trans_lt (Nat.lt_succ_self _)
  · rcases Nat.lt_succ_iff_lt_or_eq.1 hn with hold | rfl
    · exact (h.complete n hold).imp_right (Or.imp_left (mem_append_left _))
    · exact .inr (.inl (mem_append_right _ (mem_singleton_self _)))

theorem evict (h : InOrder accepted (n :: waiting) evicted emitted) :
    InOrder accepted waiting (evicted ++ [n]) emitted := by
  have hsub : (accepted ++ waiting).Sublist (accepted ++ n :: waiting) :=
    (sublist_cons_self n waiting).append_left accepted
  refine ⟨h.ordered.sublist hsub, fun m hm => h.below m (hsub.subset hm), fun m hm => ?_⟩
  rcases h.complete m hm with hac | hw | hev
  · exact .inl hac
  · rcases mem_cons.1 hw with rfl | hr
    · exact .inr (.inr (mem_append_right _ (mem_singleton_self _)))
    · exact .inr (.inl hr)
  · exact .inr (.inr (mem_append_left _ hev))

theorem accept (h : InOrder accepted (n :: waiting) evicted emitted) :
    InOrder (accepted ++ [n]) waiting evicted emitted := by
  have hs : accepted ++ [n] ++ waiting = accepted ++ n :: waiting := by simp
  refine ⟨hs ▸ h.ordered, fun m hm => h.below m (hs ▸ hm), fun m hm => ?_⟩
  rcases h.complete m hm with hac | hw | hev
  · exact .inl (mem_append_left _ hac)
  · rcases mem_cons.1 hw with rfl | hr
    · exact .inl (mem_append_right _ (mem_singleton_self _))
    · exact .inr (.inl hr)
  · exact .inr (.inr hev)

section Queues

variable {α : Type*} {number : α → ℕ} {queue : List α} {item : α}

/-- A frame moves from the front of the frames behind a queue to the end of the queue. -/
theorem pushBack (number : α → ℕ) (item : α) {rest : List ℕ}
    (h : InOrder accepted (queue.map number ++ number item :: rest) evicted emitted) :
    InOrder accepted ((boundedPushBack queue item).1.map number ++ rest)
      (evicted ++ (boundedPushBack queue item).2.toList.map number) emitted := by
  unfold boundedPushBack
  split_ifs with hf
  · cases queue with
    | nil => simp [pushBufferMaxPerKey] at hf
    | cons first queue =>
      simp only [map_append, append_assoc]
      exact evict h
  · simpa using h

/-- Draining a queue without skips and without a closed writer. -/
theorem drain (ho : ∀ n, answer n ≠ .permanentFailure) (attempt : ℕ)
    (h : InOrder accepted (queue.map number) evicted emitted) :
    InOrder (accepted ++ ((drainQueue (fun _ => false) answer attempt queue).1.filter
        fun tried => tried.2 = .sent).map fun tried => number tried.1)
      ((drainQueue (fun _ => false) answer attempt queue).2.map number) evicted emitted := by
  induction queue generalizing accepted attempt with
  | nil => simpa [drainQueue] using h
  | cons first queue ih =>
    unfold drainQueue
    cases han : answer attempt with
    | sent => simpa using ih (attempt + 1) (accept h)
    | backpressure => simpa using h
    | permanentFailure => exact absurd han (ho attempt)

end Queues

end InOrder

/-- A writer that accepts everything empties a queue. -/
theorem drainQueue_sent {α : Type*} {skip : α → Bool} {attempt : ℕ} {queue : List α}
    (h : ∀ n < queue.length, answer (attempt + n) = .sent) :
    (drainQueue skip answer attempt queue).2 = [] := by
  induction queue generalizing attempt with
  | nil => rfl
  | cons first queue ih =>
    unfold drainQueue
    split_ifs
    · exact ih fun n hn => h n (Nat.lt_succ_of_lt hn)
    · have hf : answer attempt = .sent := h 0 (Nat.succ_pos _)
      rw [hf]
      refine ih fun n hn => ?_
      rw [Nat.add_assoc, Nat.add_comm 1]
      exact h (n + 1) (Nat.succ_lt_succ hn)

/-! ## Callers -/

structure Caller where
  root : ProjectRootId
  owner : TaskIdentity

def Caller.key (caller : Caller) : ReplayKey := .ofOwner caller.root caller.owner

def Caller.Routes (caller : Caller) (identity : RouteIdentity) : Prop :=
  ReplayKey.fromIdentity identity = caller.key

/-- A reliable frame that carries the caller's launching identity. -/
def Caller.Sends (caller : Caller) (frame : PushFrame) : Prop :=
  frame.isReliable = true ∧ frame.taskIdentity = some caller.owner ∧
    frame.session = some caller.owner.session

/-- The writer may be full, but it is not closed. -/
def Writer.Open (writer : Writer) : Prop := ∀ channel n, writer channel n ≠ .permanentFailure

/-- What may happen to a relay that serves the caller, which is first-party and has at most one
route: its reliable frames, binds of unbound channels, goodbyes and retry ticks. -/
def Caller.Serves (caller : Caller) (relay : Relay) : Relay.Event → Prop
  | .emit root frame writer => root = caller.root ∧ caller.Sends frame ∧ writer.Open
  | .bind channel identity _ writer => writer.Open ∧ channel ∉ relay.routes ∧
      (caller.Routes identity → identity.trust.allowsBashObservation = true ∧
        ∀ other route, relay.routes.lookup other = some route → ¬caller.Routes route)
  | .goodbye _ => True
  | .tick writer => writer.Open
  | .reclaim _ => False

def Caller.ReplaysWhole (caller : Caller) (relay : Relay) : Relay.Event → Prop
  | .bind channel identity _ writer => caller.Routes identity →
      ∀ n < (relay.pushBuffer caller.key).length, writer channel n = .sent
  | _ => True

/-- A condition on each event of a run and the state before it. -/
def Along (condition : Relay → Relay.Event → Prop) : Relay → List Relay.Event → Prop
  | _, [] => True
  | relay, event :: events => condition relay event ∧ Along condition (relay.step event) events

/-- The numbers of the frames that the writer accepted, in order. -/
def Relay.accepted (relay : Relay) : List ℕ :=
  (relay.handed.filter fun handed => handed.outcome = .sent).map fun handed => handed.notice.number

/-- The numbers of the frames evicted from a full buffer. -/
def Relay.lost (relay : Relay) : List ℕ := relay.evicted.map Notice.number

/-! ## The buffers of a caller -/

/-- The tables agree, and nothing but the caller's frames is buffered. -/
structure Serving (caller : Caller) (relay : Relay) : Prop where
  rooted : ∀ root channel, channel ∈ relay.rootChannels root ↔
    ∃ identity ∈ relay.routes.lookup channel, identity.root = root
  distinct : ∀ root, (relay.rootChannels root).Nodup
  others : ∀ key, key ≠ caller.key → relay.pushBuffer key = []
  detached : ∀ notice ∈ relay.pushBuffer caller.key, notice.frame.taskIdentity = some caller.owner
  retried : ∀ channel, ∀ entry ∈ relay.retryBuffer channel,
    entry.1 = caller.key ∧ entry.2.frame.taskIdentity = some caller.owner
  trusted : ∀ channel identity, relay.routes.lookup channel = some identity →
    caller.Routes identity → identity.trust.allowsBashObservation = true

/-- Where the caller's frames wait. -/
inductive Waits (caller : Caller) (relay : Relay) : List ℕ → Prop
  | detached
      (hroutes : ∀ channel identity, relay.routes.lookup channel = some identity →
        ¬caller.Routes identity)
      (hretry : ∀ channel, relay.retryBuffer channel = []) :
      Waits caller relay ((relay.pushBuffer caller.key).map Notice.number)
  | attached {channel identity} (hroute : relay.routes.lookup channel = some identity)
      (hcaller : caller.Routes identity)
      (honly : ∀ other route, relay.routes.lookup other = some route → caller.Routes route →
        other = channel) (hpush : relay.pushBuffer caller.key = [])
      (hretry : ∀ other, other ≠ channel → relay.retryBuffer other = []) :
      Waits caller relay ((relay.retryBuffer channel).map fun entry => entry.2.number)

/-- The caller's frames are in order. -/
def Ordered (caller : Caller) (relay : Relay) : Prop :=
  Serving caller relay ∧ ∃ waiting, Waits caller relay waiting ∧
    InOrder relay.accepted waiting relay.lost relay.emitted

/-! ## Emission -/

section Emission

variable {caller : Caller} {relay : Relay} {frame : PushFrame} {channel : RouteChannel}
  {identity : RouteIdentity}

theorem Caller.routes_iff :
    caller.Routes identity ↔
      identity.root = caller.root ∧ identity.taskIdentity = caller.owner := by
  obtain ⟨root, principal, harness, session⟩ := caller
  simp [Routes, key, ReplayKey.fromIdentity, ReplayKey.ofOwner, RouteIdentity.taskIdentity]

/-- A frame with an owner goes to trusted routes of its session that are the owner's. -/
theorem matchingRouteChannels_of_owner {owner : TaskIdentity} {root : ProjectRootId}
    (h : frame.taskIdentity = some owner) :
    relay.matchingRouteChannels root frame =
      (relay.matchingSessionRouteChannels root frame.session true).filter fun channel =>
        (relay.routes.lookup channel).any fun identity => identity.taskIdentity = owner := by
  cases frame with
  | bashCompleted taskId sessionId launchingIdentity =>
    obtain rfl : launchingIdentity = some owner := h
    rfl
  | bashLongRunning taskId sessionId launchingIdentity =>
    obtain rfl : launchingIdentity = some owner := h
    rfl
  | bashPatternMatch taskId sessionId launchingIdentity =>
    obtain rfl : launchingIdentity = some owner := h
    rfl
  | configureWarnings | statusChanged | progress => cases h

theorem foldl_hand_eq {α : Type*} (attempt : α → Notice × PushSendOutcome) (items : List α)
    (relay : Relay) :
    items.foldl (fun relay item => relay.hand channel (attempt item)) relay =
      { relay with
        handed := relay.handed ++ items.map fun item =>
          ⟨channel, relay.routes.lookup channel, (attempt item).1, (attempt item).2⟩ } := by
  induction items generalizing relay with
  | nil => simp
  | cons first rest ih =>
    rw [foldl_cons, ih]
    simp [hand]

variable {relay' : Relay}

theorem accepted_of_handed {α : Type*} {route : Option RouteIdentity} {items : List α}
    (attempt : α → Notice × PushSendOutcome)
    (h : relay'.handed = relay.handed ++ items.map fun item =>
      ⟨channel, route, (attempt item).1, (attempt item).2⟩) :
    relay'.accepted = relay.accepted ++
      (items.filter fun item => (attempt item).2 = .sent).map fun item =>
        (attempt item).1.number := by
  simp [accepted, h, filter_map, comp_def]

theorem accepted_hand (notice : Notice) (outcome : PushSendOutcome) :
    (relay.hand channel (notice, outcome)).accepted =
      relay.accepted ++ if outcome = .sent then [notice.number] else [] := by
  unfold accepted hand
  split_ifs with hs <;> simp [hs]

theorem lost_bufferPushFrame (key : ReplayKey) (notice : Notice) :
    (relay.bufferPushFrame key notice).lost = relay.lost ++
      (boundedPushBack (relay.pushBuffer key) notice).2.toList.map Notice.number := by
  simp [lost, bufferPushFrame]

theorem lost_bufferRetryFrame (key : ReplayKey) (notice : Notice) :
    (relay.bufferRetryFrame channel key notice).lost = relay.lost ++
      (boundedPushBack (relay.retryBuffer channel) (key, notice)).2.toList.map
        fun entry => entry.2.number := by
  unfold lost bufferRetryFrame
  generalize boundedPushBack (relay.retryBuffer channel) (key, notice) = pushed
  cases hp : pushed.2 <;> simp [hp]

variable {notice : Notice}

section

variable (h : Serving caller relay)
include h

theorem mem_matchingRouteChannels (hs : caller.Sends frame) :
    channel ∈ relay.matchingRouteChannels caller.root frame ↔
      ∃ identity ∈ relay.routes.lookup channel, caller.Routes identity := by
  obtain ⟨-, ho, hse⟩ := hs
  rw [matchingRouteChannels_of_owner ho, hse, mem_filter,
    matchingSessionRouteChannels, mem_filter, h.rooted]
  constructor
  · rintro ⟨⟨⟨bound, hb, hr⟩, -⟩, hany⟩
    obtain ⟨identity, hid, ho⟩ := (Option.any_eq_true _ _).1 hany
    rw [Option.mem_unique hb hid] at hr
    exact ⟨identity, hid, Caller.routes_iff.2 ⟨hr, by simpa using ho⟩⟩
  · rintro ⟨identity, hid, hc⟩
    obtain ⟨hr, ho⟩ := Caller.routes_iff.1 hc
    have ht := h.trusted channel identity hid hc
    have hse : identity.session = caller.owner.session := congrArg TaskIdentity.session ho
    refine ⟨⟨⟨identity, hid, hr⟩, ?_⟩, ?_⟩
    · simp [Option.mem_def.1 hid, ht, hse]
    · simp [Option.mem_def.1 hid, ho]

theorem nodup_matchingRouteChannels (hs : caller.Sends frame) :
    (relay.matchingRouteChannels caller.root frame).Nodup := by
  rw [matchingRouteChannels_of_owner hs.2.1]
  exact ((h.distinct _).filter _).filter _

theorem Serving.bufferPushFrame (hn : notice.frame.taskIdentity = some caller.owner) :
    Serving caller (relay.bufferPushFrame caller.key notice) := by
  refine ⟨h.rooted, h.distinct, fun key hkey => ?_, fun other ho => ?_, h.retried, h.trusted⟩
  · exact (update_of_ne hkey _ _).trans (h.others key hkey)
  · simp only [Relay.bufferPushFrame, update_self] at ho
    rcases mem_boundedPushBack ho with hold | rfl
    · exact h.detached other hold
    · exact hn

theorem Serving.bufferRetryFrame (hn : notice.frame.taskIdentity = some caller.owner) :
    Serving caller (relay.bufferRetryFrame channel caller.key notice) := by
  refine ⟨h.rooted, h.distinct, h.others, h.detached, fun other entry hen => ?_, h.trusted⟩
  by_cases ho : other = channel
  · subst ho
    simp only [Relay.bufferRetryFrame, update_self] at hen
    rcases mem_boundedPushBack hen with hold | rfl
    · exact h.retried other entry hold
    · exact ⟨rfl, hn⟩
  · simp only [Relay.bufferRetryFrame, update_of_ne ho] at hen
    exact h.retried other entry hen

theorem Serving.of_eq (ht : relay'.tables = relay.tables)
    (hp : relay'.pushBuffer = relay.pushBuffer) (hr : relay'.retryBuffer = relay.retryBuffer) :
    Serving caller relay' := by
  obtain ⟨hro, hroo⟩ := Prod.mk.inj ht
  refine ⟨?_, ?_, ?_, ?_, ?_, ?_⟩
  · rw [hroo, hro]
    exact h.rooted
  · rw [hroo]
    exact h.distinct
  · rw [hp]
    exact h.others
  · rw [hp]
    exact h.detached
  · rw [hr]
    exact h.retried
  · rw [hro]
    exact h.trusted

end

/-- A frame that no route takes goes behind those that are detached. -/
theorem Ordered.keep (hs : Serving caller relay)
    (hn : notice.frame.taskIdentity = some caller.owner)
    (hr : ∀ channel identity, relay.routes.lookup channel = some identity →
      ¬caller.Routes identity) (hre : ∀ channel, relay.retryBuffer channel = [])
    (hl : InOrder relay.accepted
      ((relay.pushBuffer caller.key).map Notice.number ++ [notice.number]) relay.lost
      relay.emitted) : Ordered caller (relay.bufferPushFrame caller.key notice) := by
  refine ⟨hs.bufferPushFrame hn, _, .detached hr hre, ?_⟩
  rw [lost_bufferPushFrame]
  simp only [bufferPushFrame, update_self]
  have hp := InOrder.pushBack Notice.number notice hl
  rw [append_nil] at hp
  exact hp

variable {writer : Writer}

/-- A frame offered on the caller's route goes behind the frames that wait there. -/
theorem Ordered.offer (hs : Serving caller relay) (ho : writer.Open)
    (hn : notice.frame.taskIdentity = some caller.owner)
    (hr : relay.routes.lookup channel = some identity) (hc : caller.Routes identity)
    (hon : ∀ other route, relay.routes.lookup other = some route → caller.Routes route →
      other = channel) (hp : relay.pushBuffer caller.key = [])
    (hre : ∀ other, other ≠ channel → relay.retryBuffer other = [])
    (hl : InOrder relay.accepted
      ((relay.retryBuffer channel).map (fun entry => entry.2.number) ++ [notice.number])
      relay.lost relay.emitted) : Ordered caller (relay.offerReliable writer notice channel) := by
  have hkey : ReplayKey.fromIdentity identity = caller.key := hc
  -- The frame waits on the route, whether or not the writer was asked first.
  have hb : ∀ relay' : Relay, relay'.tables = relay.tables →
      relay'.pushBuffer = relay.pushBuffer → relay'.retryBuffer = relay.retryBuffer →
      relay'.accepted = relay.accepted → relay'.lost = relay.lost →
      relay'.emitted = relay.emitted →
      Ordered caller (relay'.bufferRetryFrame channel caller.key notice) := by
    intro relay' ht hp' hr' hac hlo hem
    have hro : relay'.routes = relay.routes := congrArg Prod.fst ht
    refine ⟨(hs.of_eq ht hp' hr').bufferRetryFrame hn, _,
      @Waits.attached _ _ channel _ ?_ hc ?_ ?_ ?_, ?_⟩
    · exact (congrArg (AList.lookup channel) hro).trans hr
    · intro other route hot
      exact hon other route ((congrArg (AList.lookup other) hro).symm.trans hot)
    · exact (congrFun hp' _).trans hp
    · intro other hot
      refine (update_of_ne hot _ _).trans ?_
      exact (congrFun hr' other).trans (hre other hot)
    · rw [lost_bufferRetryFrame]
      simp only [bufferRetryFrame, update_self]
      rw [hr', hlo]
      have hpu := InOrder.pushBack (fun entry : ReplayKey × Notice => entry.2.number)
        (caller.key, notice) hl
      rw [append_nil] at hpu
      exact hac ▸ hem ▸ hpu
  unfold offerReliable
  rw [hr]
  dsimp only
  rw [hkey]
  split_ifs with hemp
  · exact hb relay rfl rfl rfl rfl rfl rfl
  · have hnil : relay.retryBuffer channel = [] := not_not.1 hemp
    cases han : writer channel 0 with
    | sent =>
      refine ⟨hs.of_eq rfl rfl rfl, _, .attached hr hc hon hp hre, ?_⟩
      rw [accepted_hand]
      rw [hnil] at hl
      simp only [hand, hnil]
      exact hl.accept
    | backpressure =>
      refine hb (relay.hand channel (notice, .backpressure)) rfl rfl rfl ?_ rfl rfl
      rw [accepted_hand]
      simp
    | permanentFailure => exact absurd han (ho channel 0)

/-- An emitted frame joins the caller's line. -/
theorem Ordered.emit (h : Ordered caller relay) (ho : writer.Open) (hs : caller.Sends frame) :
    Ordered caller (relay.step (.emit caller.root frame writer)) := by
  obtain ⟨hse, waiting, hw, hl⟩ := h
  have hown := hs.2.1
  have hc : Serving caller { relay with emitted := relay.emitted + 1 } :=
    hse.of_eq rfl rfl rfl
  have hmem : ∀ channel, channel ∈ ({ relay with emitted := relay.emitted + 1 } :
      Relay).matchingRouteChannels caller.root frame ↔
      ∃ identity ∈ relay.routes.lookup channel, caller.Routes identity :=
    fun channel => mem_matchingRouteChannels hc hs
  have hst : relay.step (.emit caller.root frame writer) =
      ({ relay with emitted := relay.emitted + 1 } : Relay).fanOutReliablePushFrame writer
        ⟨caller.root, relay.emitted, frame⟩ := if_pos hs.1
  rw [hst]
  unfold fanOutReliablePushFrame
  cases hw with
  | detached hr hre =>
    have hn : ({ relay with emitted := relay.emitted + 1 } : Relay).matchingRouteChannels
        caller.root frame = [] := by
      refine eq_nil_iff_forall_not_mem.2 fun channel hch => ?_
      obtain ⟨identity, hid, hca⟩ := (hmem channel).1 hch
      exact hr channel identity hid hca
    rw [hn]
    unfold bufferDetachedReliablePushFrame
    simp only [hs.2.2, hown]
    exact Ordered.keep hc hown hr hre hl.emit
  | @attached channel identity hro hca hon hp hre =>
    have hone : ({ relay with emitted := relay.emitted + 1 } : Relay).matchingRouteChannels
        caller.root frame = [channel] := by
      refine perm_singleton.1 ((perm_ext_iff_of_nodup
        (nodup_matchingRouteChannels hc hs) (nodup_singleton _)).2 fun other => ?_)
      rw [mem_singleton]
      refine (hmem other).trans ⟨?_, ?_⟩
      · rintro ⟨route, hro, hr⟩
        exact hon other route hro hr
      · rintro rfl
        exact ⟨identity, hro, hca⟩
    rw [hone]
    exact Ordered.offer hc ho hown hro hca hon hp hre hl.emit

end Emission

end Aft.Push
