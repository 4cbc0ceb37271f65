import Aft.Push.Relay

/-!
# Frames of a task reach only its owner

`Owned` follows the identity of a frame through every buffer: a detached frame waits under the key
of its owner, and a frame in a retry buffer may reach the route of its channel. Each function of
the relay keeps `Owned`, so every attempt of a run was made on a route of the owner.
-/

namespace Aft.Push

open List Function Option Relay

/-- A frame with an owner waits under the owner's key. -/
def Notice.BelongsTo (notice : Notice) (key : ReplayKey) : Prop :=
  ∀ owner ∈ notice.frame.taskIdentity, key = .ofOwner notice.root owner

/-- A route is bound to the frame's root with its owner's identity and may observe shells. -/
def Notice.MayReach (notice : Notice) (identity : RouteIdentity) : Prop :=
  ∀ owner ∈ notice.frame.taskIdentity, identity.root = notice.root ∧
    identity.taskIdentity = owner ∧ identity.trust.allowsBashObservation = true

/-- What holds of the attempts of a relay. -/
def Handed.Owned (handed : Handed) : Prop :=
  ∀ owner ∈ handed.notice.frame.taskIdentity, ∃ identity ∈ handed.route,
    identity.root = handed.notice.root ∧ identity.taskIdentity = owner ∧
    identity.trust.allowsBashObservation = true

structure Owned (relay : Relay) : Prop where
  detached : ∀ key, ∀ notice ∈ relay.pushBuffer key, notice.BelongsTo key
  retried : ∀ channel, ∀ entry ∈ relay.retryBuffer channel,
    ∃ identity ∈ relay.routes.lookup channel,
      entry.1 = .fromIdentity identity ∧ entry.2.MayReach identity
  rooted : ∀ root, ∀ channel ∈ relay.rootChannels root,
    ∃ identity ∈ relay.routes.lookup channel, identity.root = root
  attempts : ∀ handed ∈ relay.handed, handed.Owned

/-! ## Identities -/

theorem Notice.MayReach.belongsTo {notice : Notice} {identity : RouteIdentity}
    (h : notice.MayReach identity) : notice.BelongsTo (.fromIdentity identity) := by
  intro owner ho
  obtain ⟨hr, hid, -⟩ := h owner ho
  rw [← hr, ← hid]
  rfl

theorem PushFrame.isBashObservation_of_mem {frame : PushFrame} {owner : TaskIdentity}
    (h : owner ∈ frame.taskIdentity) : frame.isBashObservation = true := by
  cases frame <;> first | rfl | cases h

/-- A frame that waits under a route's key and passes its trust may reach the route. -/
theorem Notice.BelongsTo.mayReach {notice : Notice} {identity : RouteIdentity}
    (h : notice.BelongsTo (.fromIdentity identity))
    (ht : (notice.frame.isBashObservation && !identity.trust.allowsBashObservation) = false) :
    notice.MayReach identity := by
  intro owner ho
  have hkey := h owner ho
  rw [PushFrame.isBashObservation_of_mem ho] at ht
  simp only [ReplayKey.fromIdentity, ReplayKey.ofOwner, ReplayKey.mk.injEq] at hkey
  obtain ⟨hr, hp, hh, hs⟩ := hkey
  refine ⟨hr, ?_, by simpa using ht⟩
  simp only [RouteIdentity.taskIdentity] at hp ⊢
  rw [hp, hh, hs]

/-! ## Buffers -/

namespace Owned

variable {relay : Relay} {channel : RouteChannel} {key : ReplayKey} {notice : Notice}
  {identity : RouteIdentity}

section

variable (h : Owned relay)
include h

theorem update_pushBuffer {queue : List Notice} (hq : ∀ notice ∈ queue, notice.BelongsTo key) :
    Owned { relay with pushBuffer := update relay.pushBuffer key queue } := by
  refine ⟨?_, h.retried, h.rooted, h.attempts⟩
  exact (forall_update_iff relay.pushBuffer fun other queue =>
    ∀ notice ∈ queue, notice.BelongsTo other).2 ⟨hq, fun other _ => h.detached other⟩

theorem update_retryBuffer (channel : RouteChannel) {queue : List (ReplayKey × Notice)}
    (hq : ∀ entry ∈ queue, ∃ identity ∈ relay.routes.lookup channel,
      entry.1 = .fromIdentity identity ∧ entry.2.MayReach identity) :
    Owned { relay with retryBuffer := update relay.retryBuffer channel queue } := by
  refine ⟨h.detached, fun other entry hen => ?_, h.rooted, h.attempts⟩
  by_cases ho : other = channel
  · subst ho
    simp only [update_self] at hen
    exact hq entry hen
  · simp only [update_of_ne ho] at hen
    exact h.retried other entry hen

/-- The record of evictions and the number of the next frame are not read. -/
theorem congr {relay' : Relay} (hr : relay'.routes = relay.routes)
    (hro : relay'.rootChannels = relay.rootChannels) (hre : relay'.retryBuffer = relay.retryBuffer)
    (hp : relay'.pushBuffer = relay.pushBuffer) (hh : relay'.handed = relay.handed) :
    Owned relay' := by
  refine ⟨?_, ?_, ?_, ?_⟩
  · rw [hp]
    exact h.detached
  · rw [hre, hr]
    exact h.retried
  · rw [hro, hr]
    exact h.rooted
  · rw [hh]
    exact h.attempts

theorem bufferPushFrame (hn : notice.BelongsTo key) : Owned (relay.bufferPushFrame key notice) := by
  refine (h.update_pushBuffer fun other ho => ?_).congr rfl rfl rfl rfl rfl
  rcases mem_boundedPushBack ho with hold | rfl
  · exact h.detached key other hold
  · exact hn

theorem bufferRetryFrame (hr : relay.routes.lookup channel = some identity)
    (hn : notice.MayReach identity) :
    Owned (relay.bufferRetryFrame channel (.fromIdentity identity) notice) := by
  refine (h.update_retryBuffer channel fun entry hen => ?_).congr rfl rfl rfl rfl rfl
  rcases mem_boundedPushBack hen with hold | rfl
  · exact h.retried channel entry hold
  · exact ⟨identity, hr, rfl, hn⟩

theorem hand {attempt : Notice × PushSendOutcome} (hn : ∀ owner ∈ attempt.1.frame.taskIdentity,
      ∃ identity ∈ relay.routes.lookup channel, attempt.1.MayReach identity) :
    Owned (relay.hand channel attempt) := by
  refine ⟨h.detached, h.retried, h.rooted, fun handed hh => ?_⟩
  rcases mem_append.1 hh with hold | hnew
  · exact h.attempts handed hold
  · rw [mem_singleton.1 hnew]
    intro owner ho
    obtain ⟨identity, hr, hre⟩ := hn owner ho
    exact ⟨identity, hr, hre owner ho⟩

/-- Attempts on one channel, each allowed on the route that it is bound to. -/
theorem foldl_hand {α : Type*} {attempts : List α} {attempt : α → Notice × PushSendOutcome}
    (hr : relay.routes.lookup channel = some identity)
    (hn : ∀ item ∈ attempts, (attempt item).1.MayReach identity) :
    Owned (attempts.foldl (fun relay item => relay.hand channel (attempt item)) relay) := by
  induction attempts generalizing relay with
  | nil => exact h
  | cons first rest ih =>
    have hf := h.hand fun _ _ =>
      ⟨identity, hr, hn first mem_cons_self⟩
    exact ih hf hr fun item hite => hn item (mem_cons_of_mem _ hite)

theorem foldl_bufferPushFrame {entries : List (ReplayKey × Notice)}
    (hen : ∀ entry ∈ entries, entry.2.BelongsTo entry.1) :
    Owned (entries.foldl (fun relay entry => relay.bufferPushFrame entry.1 entry.2) relay) := by
  refine foldlRecOn (motive := Owned) entries _ h fun _ hr entry hent => ?_
  exact hr.bufferPushFrame (hen entry hent)

theorem migrate (channel : RouteChannel) :
    Owned (relay.migrateRetryBufferToPushBuffer channel) := by
  refine (h.update_retryBuffer channel ?_).foldl_bufferPushFrame fun entry hen => ?_
  · rintro entry ⟨⟩
  · obtain ⟨identity, -, hkey, hr⟩ := h.retried channel entry hen
    rw [hkey]
    exact hr.belongsTo

end

/-! ## Replay and retry -/

theorem belongsTo_of_isLegacy (h : isLegacy notice = true) (key : ReplayKey) :
    notice.BelongsTo key := by
  intro owner ho
  have hn : notice.frame.taskIdentity = none := by
    simpa using (Bool.and_eq_true_iff.1 h).2
  rw [hn] at ho
  cases ho

section

variable (h : Owned relay)
include h

theorem moveLegacy (key legacyKey : ReplayKey) : Owned (moveLegacy key relay legacyKey) := by
  have hk : Owned { relay with
      pushBuffer := update relay.pushBuffer legacyKey
        ((relay.pushBuffer legacyKey).filter fun notice => !isLegacy notice) } :=
    h.update_pushBuffer fun notice hn =>
      h.detached legacyKey notice (mem_of_mem_filter hn)
  have hb : ∀ entry ∈ ((relay.pushBuffer legacyKey).filter isLegacy).map
      fun notice => (key, notice), entry.2.BelongsTo entry.1 := by
    rintro entry hen
    obtain ⟨notice, hn, rfl⟩ := mem_map.1 hen
    exact belongsTo_of_isLegacy (mem_filter.1 hn).2 key
  have hm := hk.foldl_bufferPushFrame hb
  rwa [foldl_map] at hm

theorem mergeLegacy (key : ReplayKey) (keys : List ReplayKey) :
    Owned (relay.mergeLegacy key keys) := by
  exact foldlRecOn (motive := Owned) _ _ h fun _ hr first _ => hr.moveLegacy key first

theorem replay (writer : Writer) (keys : List ReplayKey)
    (hr : relay.routes.lookup channel = some identity) :
    Owned (relay.replayBufferedPushFrames writer channel keys (.fromIdentity identity)
      identity.trust) := by
  set merged := if identity.trust.allowsBashObservation then
    relay.mergeLegacy (.fromIdentity identity) keys else relay with hm
  have ho : Owned merged := by
    rw [hm]
    split_ifs
    · exact h.mergeLegacy _ keys
    · exact h
  have hro : merged.routes.lookup channel = some identity := by
    rw [hm]
    split_ifs
    · exact congrArg (AList.lookup channel)
        (congrArg Prod.fst (tables_mergeLegacy keys)) |>.trans hr
    · exact hr
  refine (ho.update_pushBuffer fun notice hn => ?_).foldl_hand hro fun tried ht => ?_
  · exact ho.detached _ notice (mem_drainQueue_left hn)
  · obtain ⟨hmem, hs⟩ := mem_drainQueue_tried ht
    exact (ho.detached _ _ hmem).mayReach hs

theorem drainRetry (writer : Writer) (channel : RouteChannel) :
    Owned (relay.drainRetryBufferForChannel writer channel) := by
  unfold drainRetryBufferForChannel
  have hk := h.update_retryBuffer channel fun entry
      (hen : entry ∈ (drainQueue (fun _ => false) (writer channel) 0 (relay.retryBuffer channel)).2) => h.retried channel entry (mem_drainQueue_left hen)
  cases hq : relay.retryBuffer channel with
  | nil =>
    rw [hq] at hk
    exact hk
  | cons first rest =>
    -- Every entry of the queue names the route that the channel is bound to.
    obtain ⟨identity, hr, -, -⟩ := h.retried channel first (hq ▸ mem_cons_self)
    rw [← hq]
    refine hk.foldl_hand hr fun tried ht => ?_
    obtain ⟨other, ho, -, hre⟩ := h.retried channel _ (mem_drainQueue_tried ht).1
    rw [mem_unique hr ho]
    exact hre

theorem drainRetries (writer : Writer) : Owned (relay.drainRetryBuffersForBoundRoutes writer) := by
  exact foldlRecOn (motive := Owned) _ _ h fun _ hr first _ => hr.drainRetry writer first

/-! ## Fan-out -/

theorem mayReach_of_matching {owner : TaskIdentity} (ho : owner ∈ notice.frame.taskIdentity)
    (hc : channel ∈ relay.matchingRouteChannels notice.root notice.frame) :
    ∃ identity ∈ relay.routes.lookup channel, notice.MayReach identity := by
  have hob := PushFrame.isBashObservation_of_mem ho
  have hm : channel ∈ (relay.matchingSessionRouteChannels notice.root notice.frame.session
        notice.frame.isBashObservation).filter fun channel =>
          notice.frame.taskIdentity.all fun owner =>
            (relay.routes.lookup channel).any fun identity => identity.taskIdentity = owner := by
    cases hf : notice.frame with
    | progress origin =>
      rw [hf] at ho
      cases ho
    | _ =>
      rw [hf] at hc
      exact hc
  obtain ⟨hs, hid⟩ := mem_filter.1 hm
  obtain ⟨hr, ht⟩ := mem_filter.1 hs
  rw [mem_def.1 ho] at hid
  obtain ⟨identity, hro, heq⟩ := (any_eq_true _ _).1 hid
  simp only [hro, hob] at ht
  obtain ⟨bound, hb, hequ⟩ := h.rooted _ channel hr
  rw [mem_unique hb hro] at hequ
  refine ⟨identity, hro, fun other hot => ⟨hequ, ?_, ?_⟩⟩
  · rw [mem_unique hot ho]
    simpa using heq
  · simp only [Bool.true_and, Bool.not_not, Bool.and_eq_true] at ht
    exact ht.1

theorem offerReliable (writer : Writer)
    (hr : ∀ identity ∈ relay.routes.lookup channel, notice.MayReach identity) :
    Owned (relay.offerReliable writer notice channel) := by
  unfold Relay.offerReliable
  cases hro : relay.routes.lookup channel with
  | none => exact h
  | some identity =>
    have hid := hr identity hro
    dsimp only
    split_ifs
    · exact h.bufferRetryFrame hro hid
    · have hh : ∀ outcome, Owned (relay.hand channel (notice, outcome)) := fun outcome =>
        h.hand fun _ _ => ⟨identity, hro, hid⟩
      split
      · exact (hh _).bufferRetryFrame hro hid
      · exact hh _

theorem fanOutReliable (writer : Writer) (notice : Notice) :
    Owned (relay.fanOutReliablePushFrame writer notice) := by
  unfold fanOutReliablePushFrame
  have hr : ∀ channel ∈ relay.matchingRouteChannels notice.root notice.frame,
      ∀ identity ∈ relay.routes.lookup channel, notice.MayReach identity := by
    intro channel hc identity hro owner ho
    obtain ⟨other, hot, hmay⟩ := h.mayReach_of_matching ho hc
    rw [mem_unique hro hot]
    exact hmay owner ho
  split
  · unfold bufferDetachedReliablePushFrame
    split
    · exact h
    · split
      · next owner ho =>
          refine h.bufferPushFrame fun other hot => ?_
          rw [mem_unique hot ho]
      · next hn =>
          have hany : ∀ key, notice.BelongsTo key := by
            intro key owner ho
            rw [hn] at ho
            cases ho
          split
          · exact h
          · split_ifs
            · exact h
            · exact h.bufferPushFrame (hany _)
  · next channels hch =>
      generalize relay.matchingRouteChannels notice.root notice.frame = matching at hr
      clear hch
      induction matching generalizing relay with
      | nil => exact h
      | cons first rest ih =>
        have hrou : (relay.offerReliable writer notice first).routes = relay.routes :=
          congrArg Prod.fst (tables_offerReliable writer)
        refine ih (h.offerReliable writer (hr first mem_cons_self)) fun channel hc => ?_
        rw [hrou]
        exact hr channel (mem_cons_of_mem _ hc)

theorem fanOutLossy (writer : Writer) (notice : Notice) :
    Owned (relay.fanOutLossyPushFrame writer notice) := by
  unfold fanOutLossyPushFrame
  have hr : ∀ channel ∈ relay.matchingRouteChannels notice.root notice.frame,
      ∀ owner ∈ notice.frame.taskIdentity,
        ∃ identity ∈ relay.routes.lookup channel, notice.MayReach identity :=
    fun channel hc owner ho => h.mayReach_of_matching ho hc
  generalize relay.matchingRouteChannels notice.root notice.frame = matching at hr
  induction matching generalizing relay with
  | nil => exact h
  | cons first rest ih =>
    exact ih (h.hand (hr first mem_cons_self)) fun channel hc => hr channel (mem_cons_of_mem _ hc)

/-! ## Routes -/

/-- A route may go once nothing waits in its retry buffer. -/
theorem removeRouteChannel (hr : relay.retryBuffer channel = []) :
    Owned (relay.removeRouteChannel channel) := by
  unfold Relay.removeRouteChannel
  split
  · exact h
  · next identity hro =>
      refine ⟨h.detached, fun other entry hen => ?_, fun root other ho => ?_, h.attempts⟩
      · have hne : other ≠ channel := by
          rintro rfl
          exact ne_nil_of_mem hen hr
        simpa only [Relay.removeRootChannel, AList.lookup_erase_ne hne] using
          h.retried other entry hen
      · obtain ⟨hmem, hkept⟩ := mem_removeRootChannel.1 ho
        have hne : other ≠ channel := by
          rintro rfl
          obtain ⟨bound, hb, heq⟩ := h.rooted root other hmem
          rw [mem_unique hb hro] at heq
          exact hkept heq.symm rfl
        simpa only [Relay.removeRootChannel, AList.lookup_erase_ne hne] using
          h.rooted root other hmem

theorem teardown (channel : RouteChannel) : Owned (relay.teardownInstalledRoute channel) := by
  refine (h.migrate channel).removeRouteChannel ?_
  refine foldlRecOn (motive := fun moved : Relay => moved.retryBuffer channel = []) _ _ ?_
    fun _ hm _ _ => hm
  simp

theorem insertRouteChannel (hn : relay.routes.lookup channel = none) (identity : RouteIdentity) :
    Owned (relay.insertRouteChannel channel identity) := by
  have hne : ∀ {other route}, route ∈ relay.routes.lookup other → other ≠ channel := by
    rintro other route hr rfl
    rw [hn] at hr
    cases hr
  unfold Relay.insertRouteChannel
  rw [hn]
  refine ⟨h.detached, fun other entry hen => ?_, fun root other ho => ?_, h.attempts⟩
  · obtain ⟨route, hr, hre⟩ := h.retried other entry hen
    exact ⟨route, (AList.lookup_insert_ne (hne hr)).trans hr, hre⟩
  · rcases mem_update_insert.1 ho with ⟨rfl, rfl⟩ | hold
    · exact ⟨identity, AList.lookup_insert _, rfl⟩
    · obtain ⟨route, hr, heq⟩ := h.rooted root other hold
      exact ⟨route, (AList.lookup_insert_ne (hne hr)).trans hr, heq⟩

theorem rememberSessionIdentity (identity : RouteIdentity) :
    Owned (relay.rememberSessionIdentity identity) := by
  unfold Relay.rememberSessionIdentity
  dsimp only
  split_ifs
  · exact h
  · exact h.congr rfl rfl rfl rfl rfl

theorem bindCompletion (hn : relay.routes.lookup channel = none) (writer : Writer)
    (keys : List ReplayKey) (identity : RouteIdentity) :
    Owned (relay.handleRouteBindCompletion writer keys channel identity) := by
  have hr : (relay.rememberSessionIdentity identity).routes = relay.routes :=
    congrArg Prod.fst (tables_rememberSessionIdentity identity)
  refine ((h.rememberSessionIdentity identity).insertRouteChannel ?_ identity).replay writer keys ?_
  · rw [hr]
    exact hn
  · rw [routes_insertRouteChannel]
    exact AList.lookup_insert _

theorem dropRoute (channel : RouteChannel) : Owned (relay.dropRoute channel) := by
  have hc := h.update_retryBuffer channel (forall_mem_nil _)
  have hr := hc.removeRouteChannel (update_self ..)
  refine hr.congr ?_ ?_ ?_ ?_ ?_ <;>
    · unfold Relay.dropRoute Relay.removeRouteChannel
      cases relay.routes.lookup channel <;> rfl

theorem purge (root : ProjectRootId) : Owned (relay.purgeDeletedRootResidents root) := by
  unfold Relay.purgeDeletedRootResidents
  generalize relay.rootChannels root ++ _ = stale
  have hs : Owned (stale.foldl Relay.dropRoute relay) :=
    foldlRecOn stale _ h fun _ hr first _ => hr.dropRoute first
  refine ⟨fun key notice hn => ?_, hs.retried, fun other channel hc => ?_, hs.attempts⟩
  · dsimp only at hn
    split_ifs at hn
    · cases hn
    · exact hs.detached key notice hn
  · by_cases ho : other = root
    · subst ho
      simp at hc
    · exact hs.rooted other channel (by simpa [update_of_ne ho] using hc)

theorem step {event : Relay.Event}
    (hb : ∀ channel ∈ event.bound, relay.routes.lookup channel = none) :
    Owned (relay.step event) := by
  cases event with
  | emit root frame writer =>
    have hc : Owned { relay with emitted := relay.emitted + 1 } :=
      h.congr rfl rfl rfl rfl rfl
    unfold Relay.step
    dsimp only
    split_ifs
    · exact hc.fanOutReliable writer _
    · exact hc.fanOutLossy writer _
  | bind channel identity keys writer =>
    exact h.bindCompletion (hb channel rfl) writer keys identity
  | goodbye channel => exact h.teardown channel
  | tick writer => exact h.drainRetries writer
  | reclaim root => exact h.purge root

end

end Owned

/-! ## Runs -/

def boundChannels (events : List Relay.Event) : List RouteChannel :=
  events.filterMap Relay.Event.bound

theorem owned_run {relay : Relay} {events : List Relay.Event} (h : Owned relay)
    (ho : (boundChannels events).Nodup)
    (hf : ∀ channel ∈ boundChannels events, channel ∉ relay.routes) :
    Owned (relay.run events) := by
  induction events generalizing relay with
  | nil => exact h
  | cons event events ih =>
    have hs : boundChannels (event :: events) =
        event.bound.toList ++ boundChannels events := by
      unfold boundChannels
      cases hb : event.bound <;> simp [hb]
    rw [hs] at ho hf
    obtain ⟨-, hr, hd⟩ := nodup_append.1 ho
    refine ih (h.step fun channel hc => ?_) hr fun channel hc hmem => ?_
    · exact AList.lookup_eq_none.2 (hf channel (mem_append_left _ (mem_toList.2 hc)))
    · rcases mem_routes_step hmem with hold | hb
      · exact hf channel (mem_append_right _ hc) hold
      · exact hd channel (mem_toList.2 hb) channel hc rfl

/-- A frame with a launching identity is handed over only for a channel whose route is then the
owner's, on the frame's root and trusted to observe shells. -/
theorem handed_only_to_owner (events : List Relay.Event) (honce : (boundChannels events).Nodup) :
    ∀ handed ∈ (Relay.new.run events).handed, ∀ owner ∈ handed.notice.frame.taskIdentity,
      ∃ identity ∈ handed.route, identity.root = handed.notice.root ∧
        identity.taskIdentity = owner ∧ identity.trust.allowsBashObservation = true := by
  have hnew : Owned Relay.new := by
    refine ⟨?_, ?_, ?_, ?_⟩
    · rintro key notice ⟨⟩
    · rintro channel entry ⟨⟩
    · rintro root channel ⟨⟩
    · rintro handed ⟨⟩
  exact (owned_run hnew honce fun channel _ => AList.notMem_empty channel).attempts

/-- A completion emitted without a route is replayed to its owner, not to the untrusted route bound
first. -/
theorem handed_only_to_owner_replayed :
    let owner : TaskIdentity := ⟨some "direct", "opencode", "s1"⟩
    let events : List Relay.Event :=
      [.emit ⟨"/work"⟩ (.bashCompleted "task" "s1" (some owner)) fun _ _ => .sent,
        .bind ⟨1, 1⟩ ⟨⟨"/work"⟩, "opencode", "s1", .untrusted, .routeBind (some "unverified")⟩ []
          fun _ _ => .sent,
        .bind ⟨2, 1⟩ ⟨⟨"/work"⟩, "opencode", "s1", .firstParty, .routeBind (some "direct")⟩ []
          fun _ _ => .sent]
    (Relay.new.run events).handed.map Handed.channel = [⟨2, 1⟩] ∧
      ∀ handed ∈ (Relay.new.run events).handed, ∀ owner ∈ handed.notice.frame.taskIdentity,
        ∃ identity ∈ handed.route, identity.root = handed.notice.root ∧
          identity.taskIdentity = owner ∧ identity.trust.allowsBashObservation = true :=
  ⟨by decide +kernel, handed_only_to_owner _ (by decide +kernel)⟩

end Aft.Push
