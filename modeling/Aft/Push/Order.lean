import Aft.Push.Line

/-!
# Reliable frames keep their order

Binds, goodbyes and ticks keep the line of a caller's frames, provided that the writer accepts the
whole replay of every bind. A replay that is cut short leaves frames behind in the detach buffer
while later frames pass them on the bound route.
-/

namespace Aft.Push

open List Function Relay AList

/-! ## Binds -/

variable {writer : Writer}

section Binds

variable {caller : Caller} {relay : Relay} {channel : RouteChannel} {identity : RouteIdentity}
  {key : ReplayKey}

theorem Serving.isLegacy_eq_false (h : Serving caller relay) {notice : Notice}
    (hn : notice ∈ relay.pushBuffer key) : isLegacy notice = false := by
  by_cases hkey : key = caller.key
  · subst hkey
    simp [isLegacy, h.detached notice hn]
  · rw [h.others key hkey] at hn
    cases hn

theorem moveLegacy_eq_self {legacyKey : ReplayKey}
    (h : ∀ notice ∈ relay.pushBuffer legacyKey, isLegacy notice = false) :
    moveLegacy key relay legacyKey = relay := by
  have hn : (relay.pushBuffer legacyKey).filter isLegacy = [] :=
    filter_eq_nil_iff.2 fun notice hno => by simp [h notice hno]
  have hall : ((relay.pushBuffer legacyKey).filter fun notice => !isLegacy notice) =
      relay.pushBuffer legacyKey :=
    filter_eq_self.2 fun notice hno => by simp [h notice hno]
  simp [moveLegacy, hn, hall]

section

variable (h : Serving caller relay)
include h

/-- Frames with an owner are not moved between keys. -/
theorem Serving.mergeLegacy_eq_self (keys : List ReplayKey) :
    relay.mergeLegacy key keys = relay := by
  refine foldlRecOn (motive := (· = relay)) _ _ rfl fun moved hm first _ => ?_
  subst hm
  exact moveLegacy_eq_self fun notice hn => h.isLegacy_eq_false hn

section

variable (writer : Writer) (keys : List ReplayKey) (trust : BindTrust)

theorem Serving.replay_eq :
    relay.replayBufferedPushFrames writer channel keys key trust = { relay with
        pushBuffer := update relay.pushBuffer key
          (drainQueue (fun notice : Notice => notice.frame.isBashObservation &&
            !trust.allowsBashObservation) (writer channel) 0 (relay.pushBuffer key)).2
        handed := relay.handed ++ (drainQueue (fun notice : Notice =>
            notice.frame.isBashObservation && !trust.allowsBashObservation) (writer channel) 0
            (relay.pushBuffer key)).1.map fun tried =>
          ⟨channel, relay.routes.lookup channel, tried.1, tried.2⟩ } := by
  unfold replayBufferedPushFrames
  rw [h.mergeLegacy_eq_self keys, ite_self]
  exact foldl_hand_eq id _ _

theorem Serving.replay_of_ne (hkey : key ≠ caller.key) :
    relay.replayBufferedPushFrames writer channel keys key trust = relay := by
  rw [h.replay_eq]
  have hnil := h.others key hkey
  have hu : update relay.pushBuffer key [] = relay.pushBuffer :=
    update_eq_self_iff.2 hnil.symm
  simp [hnil, drainQueue, hu]

end

theorem Serving.insertRoute (hf : channel ∉ relay.routes)
    (ht : caller.Routes identity → identity.trust.allowsBashObservation = true) :
    Serving caller (relay.insertRouteChannel channel identity) := by
  have hn := lookup_eq_none.2 hf
  unfold insertRouteChannel
  rw [hn]
  refine ⟨fun root other => ?_, (forall_update_iff _ fun _ => Nodup).2
    ⟨(h.distinct _).insert, fun root _ => h.distinct root⟩, h.others, h.detached, h.retried,
    fun other route hr hc => ?_⟩
  · rw [mem_update_insert]
    refine (or_congr_right (h.rooted root other)).trans ?_
    by_cases heq : other = channel
    · subst heq
      simpa [hn] using eq_comm
    · simp [heq, lookup_insert_ne heq]
  · by_cases heq : other = channel
    · subst heq
      rw [lookup_insert] at hr
      cases hr
      exact ht hc
    · rw [lookup_insert_ne heq] at hr
      exact h.trusted other route hr hc

end

theorem installed_eq (relay : Relay) (channel : RouteChannel) (identity : RouteIdentity) :
    ∃ rootChannels sessionIdentity,
      (relay.rememberSessionIdentity identity).insertRouteChannel channel identity =
        { relay with
          routes := relay.routes.insert channel identity
          rootChannels
          sessionIdentity } := by
  unfold rememberSessionIdentity insertRouteChannel
  dsimp only
  split_ifs <;> cases relay.routes.lookup channel <;> exact ⟨_, _, rfl⟩

theorem Serving.installed (h : Serving caller relay) (hf : channel ∉ relay.routes)
    (ht : caller.Routes identity → identity.trust.allowsBashObservation = true) :
    Serving caller
      ((relay.rememberSessionIdentity identity).insertRouteChannel channel identity) := by
  have hta := @tables_rememberSessionIdentity relay identity
  have hr : Serving caller (relay.rememberSessionIdentity identity) := by
    refine h.of_eq hta ?_ ?_ <;>
      · unfold rememberSessionIdentity
        dsimp only
        split_ifs <;> rfl
  refine hr.insertRoute ?_ ht
  rw [show (relay.rememberSessionIdentity identity).routes = relay.routes from
    congrArg Prod.fst hta]
  exact hf

theorem Ordered.bind_other (h : Ordered caller relay) (writer : Writer) (keys : List ReplayKey)
    (hf : channel ∉ relay.routes) (hc : ¬caller.Routes identity) :
    Ordered caller (relay.step (.bind channel identity keys writer)) := by
  obtain ⟨hs, waiting, hw, hl⟩ := h
  have hin := hs.installed hf fun hr => absurd hr hc
  have hst : relay.step (.bind channel identity keys writer) =
      (relay.rememberSessionIdentity identity).insertRouteChannel channel identity :=
    hin.replay_of_ne writer keys identity.trust hc
  obtain ⟨rootChannels, sessionIdentity, heq⟩ := installed_eq relay channel identity
  rw [hst, heq]
  refine ⟨heq ▸ hin, waiting, ?_, hl⟩
  have hlo : ∀ {other route}, (relay.routes.insert channel identity).lookup other =
      some route → caller.Routes route → relay.routes.lookup other = some route := by
    intro other route hro hr
    by_cases ho : other = channel
    · subst ho
      rw [lookup_insert] at hro
      cases hro
      exact absurd hr hc
    · rwa [lookup_insert_ne ho] at hro
  cases hw with
  | detached hr hre =>
    exact .detached (fun other route hro ho =>
      hr other route (hlo hro ho) ho) hre
  | @attached bound route hro hr hon hp hre =>
    have hne : bound ≠ channel := by
      rintro rfl
      rw [lookup_eq_none.2 hf] at hro
      cases hro
    exact .attached ((lookup_insert_ne hne).trans hro) hr
      (fun other route ho hequ => hon other route (hlo ho hequ) hequ)
      hp hre

/-- A bind of the caller hands over every detached frame when the writer takes them all. -/
theorem Ordered.bind_caller (h : Ordered caller relay) (ho : writer.Open) (keys : List ReplayKey)
    (hf : channel ∉ relay.routes) (hc : caller.Routes identity)
    (ht : identity.trust.allowsBashObservation = true)
    (hon : ∀ other route, relay.routes.lookup other = some route → ¬caller.Routes route)
    (hw : ∀ n < (relay.pushBuffer caller.key).length, writer channel n = .sent) :
    Ordered caller (relay.step (.bind channel identity keys writer)) := by
  obtain ⟨hs, waiting, hwa, hl⟩ := h
  have hin := hs.installed hf fun _ => ht
  have hkey : ReplayKey.fromIdentity identity = caller.key := hc
  have hst : relay.step (.bind channel identity keys writer) =
      ((relay.rememberSessionIdentity identity).insertRouteChannel channel
        identity).replayBufferedPushFrames writer channel keys caller.key identity.trust :=
    hkey ▸ rfl
  obtain ⟨rootChannels, sessionIdentity, heq⟩ := installed_eq relay channel identity
  have hsk : (fun notice : Notice => notice.frame.isBashObservation &&
      !identity.trust.allowsBashObservation) = fun _ => false := by
    simp [ht]
  rw [hst, hin.replay_eq, hsk]
  rw [heq] at hin ⊢
  have hle : (drainQueue (fun _ => false) (writer channel) 0
      (relay.pushBuffer caller.key)).2 = [] :=
    drainQueue_sent fun n hn => by simpa using hw n hn
  rw [hle]
  cases hwa with
  | attached hr hro => exact absurd hro (hon _ _ hr)
  | detached hro hre =>
    refine ⟨⟨hin.rooted, hin.distinct, fun key hne => ?_, ?_, hin.retried,
      hin.trusted⟩, _, .attached (lookup_insert _) hc
        (fun other route hr hequ => ?_) (update_self _ _ _)
        (fun other _ => hre other), ?_⟩
    · exact (update_of_ne hne _ _).trans (hs.others key hne)
    · simp
    · by_contra hot
      exact hon other route ((lookup_insert_ne hot).symm.trans hr) hequ
    · have hd := hl.drain (ho channel) 0
      rw [hle] at hd
      simp only [hre]
      rw [accepted_of_handed id rfl]
      exact hd

end Binds

/-! ## Goodbyes and ticks -/

section Routes

variable {caller : Caller} {relay : Relay} {channel : RouteChannel}

/-- Frames moved behind the detached ones keep their order. -/
theorem inOrder_migrate {entries : List (ReplayKey × Notice)} (h : Serving caller relay)
    (hen : ∀ entry ∈ entries,
      entry.1 = caller.key ∧ entry.2.frame.taskIdentity = some caller.owner)
    (hl : InOrder relay.accepted ((relay.pushBuffer caller.key).map Notice.number ++
      entries.map fun entry => entry.2.number) relay.lost relay.emitted) :
    let moved := entries.foldl (fun relay entry => relay.bufferPushFrame entry.1 entry.2) relay
    Serving caller moved ∧ moved.retryBuffer = relay.retryBuffer ∧
      InOrder moved.accepted ((moved.pushBuffer caller.key).map Notice.number) moved.lost
        moved.emitted := by
  induction entries generalizing relay with
  | nil => exact ⟨h, rfl, by simpa using hl⟩
  | cons first rest ih =>
    obtain ⟨hkey, ho⟩ := hen first mem_cons_self
    have hn := ih (h.bufferPushFrame ho) (fun entry hent => hen entry (mem_cons_of_mem _ hent)) (by
        rw [lost_bufferPushFrame]
        simp only [bufferPushFrame, update_self]
        exact hl.pushBack)
    rw [foldl_cons, hkey]
    exact hn

theorem Serving.removeRoute (h : Serving caller relay) (channel : RouteChannel) :
    Serving caller (relay.removeRouteChannel channel) := by
  unfold removeRouteChannel
  split
  · exact h
  · next identity hr =>
      refine ⟨fun root other => ?_, (forall_update_iff _ fun _ => Nodup).2
        ⟨(h.distinct _).filter _, fun root _ => h.distinct root⟩, h.others, h.detached, h.retried,
        fun other route ho => ?_⟩
      · rw [mem_removeRootChannel]
        refine (and_congr_left' (h.rooted root other)).trans ?_
        change _ ↔ ∃ identity ∈ (relay.routes.erase channel).lookup other, identity.root = root
        by_cases heq : other = channel
        · subst heq
          simpa [hr] using Eq.symm
        · simp [heq, lookup_erase_ne heq]
      · by_cases heq : other = channel
        · subst heq
          simp [removeRootChannel] at ho
        · exact h.trusted other route ((lookup_erase_ne heq).symm.trans ho)

theorem removed_eq (relay : Relay) (channel : RouteChannel) :
    ∃ rootChannels, relay.removeRouteChannel channel =
      { relay with routes := relay.routes.erase channel, rootChannels } := by
  have hr := @routes_removeRouteChannel relay channel
  unfold removeRouteChannel at hr ⊢
  split
  · next hn =>
      rw [hn] at hr
      exact ⟨relay.rootChannels, congrArg (fun routes => { relay with routes }) hr⟩
  · exact ⟨_, rfl⟩

theorem lookup_erase_eq_some {routes : AList fun _ : RouteChannel => RouteIdentity}
    {other : RouteChannel} {route : RouteIdentity}
    (h : (routes.erase channel).lookup other = some route) :
    other ≠ channel ∧ routes.lookup other = some route := by
  by_cases ho : other = channel
  · subst ho
    simp at h
  · exact ⟨ho, (lookup_erase_ne ho).symm.trans h⟩

theorem migrate_of_empty (h : relay.retryBuffer channel = []) :
    relay.migrateRetryBufferToPushBuffer channel = relay := by
  have hu : update relay.retryBuffer channel [] = relay.retryBuffer :=
    update_eq_self_iff.2 h.symm
  simp [migrateRetryBufferToPushBuffer, h, hu]

/-- When the caller's route goes, the frames that wait on it are detached. -/
theorem Ordered.goodbye_caller (hs : Serving caller relay)
    (ho : ∀ other route, relay.routes.lookup other = some route → caller.Routes route →
      other = channel)
    (hp : relay.pushBuffer caller.key = [])
    (hr : ∀ other, other ≠ channel → relay.retryBuffer other = [])
    (hl : InOrder relay.accepted
      ((relay.retryBuffer channel).map fun entry => entry.2.number) relay.lost relay.emitted) :
    Ordered caller (relay.step (.goodbye channel)) := by
  have hc : Serving caller { relay with retryBuffer := update relay.retryBuffer channel [] } := by
    refine ⟨hs.rooted, hs.distinct, hs.others, hs.detached, fun other entry hen => ?_, hs.trusted⟩
    by_cases hot : other = channel
    · subst hot
      simp at hen
    · simp only [update_of_ne hot] at hen
      exact hs.retried other entry hen
  have hro : (relay.migrateRetryBufferToPushBuffer channel).routes = relay.routes :=
    congrArg Prod.fst tables_migrate
  obtain ⟨hm, hb, hl⟩ := inOrder_migrate hc (hs.retried channel) (by
      simp only [hp]
      exact hl)
  obtain ⟨rootChannels, heq⟩ := removed_eq (relay.migrateRetryBufferToPushBuffer channel) channel
  change Ordered caller
    ((relay.migrateRetryBufferToPushBuffer channel).removeRouteChannel channel)
  rw [heq]
  refine ⟨heq ▸ hm.removeRoute channel, _,
    .detached (fun other route hot hequ => ?_) fun other => ?_, hl⟩
  · rw [hro] at hot
    obtain ⟨hne, hold⟩ := lookup_erase_eq_some hot
    exact hne (ho other route hold hequ)
  · refine (congrFun hb other).trans ?_
    by_cases hot : other = channel
    · subst hot
      simp
    · exact (update_of_ne hot _ _).trans (hr other hot)

theorem drainRetry_eq (relay : Relay) (writer : Writer) (channel : RouteChannel) :
    relay.drainRetryBufferForChannel writer channel =
      { relay with
        retryBuffer := update relay.retryBuffer channel
          (drainQueue (fun _ => false) (writer channel) 0 (relay.retryBuffer channel)).2
        handed := relay.handed ++ (drainQueue (fun _ => false) (writer channel) 0
            (relay.retryBuffer channel)).1.map fun tried =>
          ⟨channel, relay.routes.lookup channel, tried.1.2, tried.2⟩ } :=
  foldl_hand_eq (fun tried : (ReplayKey × Notice) × PushSendOutcome => (tried.1.2, tried.2)) _ _

theorem drainRetry_of_empty (h : relay.retryBuffer channel = []) :
    relay.drainRetryBufferForChannel writer channel = relay := by
  have hu : update relay.retryBuffer channel [] = relay.retryBuffer :=
    update_eq_self_iff.2 h.symm
  rw [drainRetry_eq]
  simp [h, drainQueue, hu]

theorem Serving.drainRetry (h : Serving caller relay) (writer : Writer) (channel : RouteChannel) :
    Serving caller (relay.drainRetryBufferForChannel writer channel) := by
  rw [drainRetry_eq]
  refine ⟨h.rooted, h.distinct, h.others, h.detached, fun other entry hen => ?_, h.trusted⟩
  by_cases ho : other = channel
  · subst ho
    simp only [update_self] at hen
    exact h.retried other entry (mem_drainQueue_left hen)
  · simp only [update_of_ne ho] at hen
    exact h.retried other entry hen

section

variable (h : Ordered caller relay)
include h

theorem Ordered.removeRoute (hc : ∀ identity, relay.routes.lookup channel = some identity →
      ¬caller.Routes identity) :
    Ordered caller (relay.removeRouteChannel channel) := by
  obtain ⟨hs, waiting, hw, hl⟩ := h
  obtain ⟨rootChannels, heq⟩ := removed_eq relay channel
  have hre := hs.removeRoute channel
  rw [heq] at hre ⊢
  refine ⟨hre, waiting, ?_, hl⟩
  cases hw with
  | detached hn hr =>
    exact .detached (fun other route hro => hn other route (lookup_erase_eq_some hro).2) hr
  | @attached bound identity hro hca ho hp hr =>
    have hne : bound ≠ channel := by
      rintro rfl
      exact hc identity hro hca
    exact .attached ((lookup_erase_ne hne).trans hro) hca
      (fun other route hot => ho other route (lookup_erase_eq_some hot).2) hp hr

theorem Ordered.goodbye (channel : RouteChannel) :
    Ordered caller (relay.step (.goodbye channel)) := by
  have hem : relay.retryBuffer channel = [] →
      (∀ identity, relay.routes.lookup channel = some identity → ¬caller.Routes identity) →
      Ordered caller (relay.step (.goodbye channel)) := by
    intro hr hro
    have hs : relay.step (.goodbye channel) = relay.removeRouteChannel channel :=
      congrArg (fun relay => relay.removeRouteChannel channel) (migrate_of_empty hr)
    rw [hs]
    exact h.removeRoute hro
  obtain ⟨hse, waiting, hw, hl⟩ := h
  cases hw with
  | detached hro hr => exact hem (hr channel) (hro channel)
  | @attached bound identity hrou hc ho hp hr =>
    by_cases hb : channel = bound
    · subst hb
      exact goodbye_caller hse ho hp hr hl
    · exact hem (hr channel hb) fun route hot heq =>
        hb (ho channel route hot heq)

theorem Ordered.drainRetry (ho : writer.Open) (channel : RouteChannel) :
    Ordered caller (relay.drainRetryBufferForChannel writer channel) := by
  by_cases hem : relay.retryBuffer channel = []
  · rw [drainRetry_of_empty hem]
    exact h
  · obtain ⟨hs, waiting, hw, hl⟩ := h
    have hd := hs.drainRetry writer channel
    rw [drainRetry_eq] at hd ⊢
    refine ⟨hd, ?_⟩
    cases hw with
    | detached hr hre => exact absurd (hre channel) hem
    | @attached bound identity hro hc hon hp hre =>
      have hb : channel = bound := by
        by_contra hne
        exact hem (hre channel hne)
      subst hb
      refine ⟨_, .attached hro hc hon hp fun other hot =>
        (update_of_ne hot _ _).trans (hre other hot), ?_⟩
      simp only [update_self]
      rw [accepted_of_handed
        (fun tried : (ReplayKey × Notice) × PushSendOutcome => (tried.1.2, tried.2)) rfl]
      exact hl.drain (ho channel) 0

theorem Ordered.tick (ho : writer.Open) : Ordered caller (relay.step (.tick writer)) := by
  exact foldlRecOn (motive := Ordered caller) _ _ h fun _ hr first _ => hr.drainRetry ho first

end

theorem emitted_tick (writer : Writer) : (relay.step (.tick writer)).emitted = relay.emitted := by
  refine foldlRecOn (motive := fun moved : Relay => moved.emitted = relay.emitted) _ _ rfl
    fun moved hm first _ => ?_
  rw [drainRetry_eq]
  exact hm

theorem retryBuffer_tick (hs : ∀ channel n, writer channel n = .sent)
    (hb : channel ∈ relay.routes) : (relay.step (.tick writer)).retryBuffer channel = [] := by
  change (relay.routes.keys.foldl (drainRetryBufferForChannel writer) relay).retryBuffer
    channel = []
  have hmem : channel ∈ relay.routes.keys ∨ relay.retryBuffer channel = [] :=
    .inl (mem_keys.1 hb)
  clear hb
  generalize relay.routes.keys = channels at hmem ⊢
  induction channels generalizing relay with
  | nil => exact hmem.resolve_left not_mem_nil
  | cons first rest ih =>
    refine ih ?_
    rw [drainRetry_eq]
    by_cases ho : channel = first
    · subst ho
      simp only [update_self]
      exact .inr (drainQueue_sent fun n _ => hs _ _)
    · simp only [update_of_ne ho]
      exact hmem.imp_left fun hco => (mem_cons.1 hco).resolve_left ho

end Routes

/-! ## Runs -/

theorem Ordered.step {caller : Caller} {relay : Relay} {event : Relay.Event}
    (h : Ordered caller relay) (hs : caller.Serves relay event)
    (hw : caller.ReplaysWhole relay event) : Ordered caller (relay.step event) := by
  cases event with
  | emit root frame writer =>
    obtain ⟨rfl, hse, ho⟩ := hs
    exact h.emit ho hse
  | bind channel identity keys writer =>
    obtain ⟨ho, hf, hc⟩ := hs
    by_cases hr : caller.Routes identity
    · obtain ⟨ht, hon⟩ := hc hr
      exact h.bind_caller ho keys hf hr ht hon (hw hr)
    · exact h.bind_other writer keys hf hr
  | goodbye channel => exact h.goodbye channel
  | tick writer => exact h.tick hs
  | reclaim root => exact hs.elim

theorem Ordered.run {caller : Caller} {relay : Relay} {events : List Relay.Event}
    (h : Ordered caller relay) (hs : Along caller.Serves relay events)
    (hw : Along caller.ReplaysWhole relay events) : Ordered caller (relay.run events) := by
  induction events generalizing relay with
  | nil => exact h
  | cons event events ih => exact ih (h.step hs.1 hw.1) hs.2 hw.2

theorem ordered_new (caller : Caller) : Ordered caller new := by
  refine ⟨⟨?_, fun _ => nodup_nil, fun _ _ => rfl, ?_, ?_, ?_⟩, _,
    .detached ?_ fun _ => rfl, ⟨List.Pairwise.nil, ?_, ?_⟩⟩
  · intro root channel
    simp [new]
  · rintro notice ⟨⟩
  · rintro channel entry ⟨⟩
  · rintro channel identity ⟨⟩
  · rintro channel identity ⟨⟩
  · rintro n ⟨⟩
  · exact fun n hn => absurd hn (Nat.not_lt_zero n)

/-- The caller's frames are accepted in the order of emission, each at most once, and after a tick
that accepts everything while the caller's route is bound every emitted frame was accepted or
evicted, provided that every bind of the caller is replayed whole. -/
theorem reliable_frames_in_order (caller : Caller) (events : List Relay.Event)
    (hserves : Along caller.Serves Relay.new events)
    (hwhole : Along caller.ReplaysWhole Relay.new events) :
    (Relay.new.run events).accepted.Pairwise (· < ·) ∧
      ∀ writer : Writer, (∀ channel n, writer channel n = .sent) →
        (∃ channel identity, (Relay.new.run events).routes.lookup channel = some identity ∧
          caller.Routes identity) →
        ∀ n < (Relay.new.run events).emitted,
          n ∈ ((Relay.new.run events).step (.tick writer)).accepted ∨
          n ∈ ((Relay.new.run events).step (.tick writer)).lost := by
  have hordered := (ordered_new caller).run hserves hwhole
  refine ⟨?_, ?_⟩
  · obtain ⟨-, waiting, -, hline⟩ := hordered
    exact (pairwise_append.1 hline.ordered).1
  · rintro writer hsent ⟨channel, identity, hroute, hcaller⟩ n hn
    have hopen : writer.Open := fun channel n => by simp [hsent]
    obtain ⟨hserving, waiting, hwaits, hline⟩ := hordered.tick hopen
    have hroutes : ((Relay.new.run events).step (.tick writer)).routes =
        (Relay.new.run events).routes := congrArg Prod.fst (Relay.tables_drainRetries writer)
    have hempty := retryBuffer_tick hsent
      (AList.lookup_isSome.1 (Option.isSome_of_mem (Option.mem_def.2 hroute)))
    rw [← hroutes] at hroute
    rw [← emitted_tick writer] at hn
    have hnone : waiting = [] := by
      cases hwaits with
      | detached hnone hretry => exact absurd hcaller (hnone channel identity hroute)
      | attached hother _ honly =>
        rw [honly channel identity hroute hcaller] at hempty
        rw [hempty]
        rfl
    rw [hnone] at hline
    simpa using hline.complete n hn

/-! ## A replay that the writer cuts short -/

section Cut

def direct : Caller := ⟨⟨"/work"⟩, ⟨some "direct", "opencode", "s1"⟩⟩

def directRoute : RouteIdentity :=
  ⟨⟨"/work"⟩, "opencode", "s1", .firstParty, .routeBind (some "direct")⟩

def finished : PushFrame := .bashCompleted "task" "s1" (some direct.owner)

/-- A writer with room for `room` frames on each event. -/
def roomFor (room : ℕ) : Writer := fun _ n => if n < room then .sent else .backpressure

/-- Two frames are detached, the bind has room for one, a third follows and a tick accepts
everything; the route is then replaced. -/
def cutShort : List Relay.Event :=
  [.emit ⟨"/work"⟩ finished (roomFor 1), .emit ⟨"/work"⟩ finished (roomFor 1),
    .bind ⟨1, 1⟩ directRoute [] (roomFor 1), .emit ⟨"/work"⟩ finished (roomFor 1),
    .tick fun _ _ => .sent, .goodbye ⟨1, 1⟩, .bind ⟨1, 2⟩ directRoute [] fun _ _ => .sent]

theorem open_roomFor (room : ℕ) : (roomFor room).Open := by
  intro channel n
  unfold roomFor
  split_ifs <;> simp

theorem lookup_ne_some_of_keys {relay : Relay} (h : relay.routes.keys = [])
    (other : RouteChannel) (route : RouteIdentity) : relay.routes.lookup other ≠ some route := by
  intro hr
  have hmem := AList.mem_keys.1 (AList.lookup_isSome.1 (Option.isSome_of_mem hr))
  rw [h] at hmem
  cases hmem

theorem serves_cutShort : Along direct.Serves new cutShort := by
  have hs : direct.Sends finished := ⟨rfl, rfl, rfl⟩
  have hse : Writer.Open fun _ _ => .sent := fun _ _ => by simp
  refine ⟨⟨rfl, hs, open_roomFor 1⟩, ⟨rfl, hs, open_roomFor 1⟩,
    ⟨open_roomFor 1, ?_, fun _ => ⟨rfl, ?_⟩⟩, ⟨rfl, hs, open_roomFor 1⟩, hse, trivial,
    ⟨hse, ?_, fun _ => ⟨rfl, ?_⟩⟩, trivial⟩
  · decide +kernel
  · exact fun other route hr =>
      absurd hr (lookup_ne_some_of_keys (by decide +kernel) other route)
  · decide +kernel
  · exact fun other route hr =>
      absurd hr (lookup_ne_some_of_keys (by decide +kernel) other route)

/-- The second frame is left behind by the tick and accepted after the third. -/
theorem cutShort_out_of_order :
    Along direct.Serves Relay.new cutShort ∧
      (Relay.new.run (cutShort.take 5)).accepted = [0, 2] ∧
      (Relay.new.run (cutShort.take 5)).lost = [] ∧
      (Relay.new.run (cutShort.take 5)).routes.lookup ⟨1, 1⟩ = some directRoute ∧
      (Relay.new.run cutShort).accepted = [0, 2, 1] := by
  refine ⟨serves_cutShort, ?_, ?_, ?_, ?_⟩ <;> decide +kernel

/-- The same bind with room for both frames; the third frame waits. -/
def replayedWhole : List Relay.Event :=
  [.emit ⟨"/work"⟩ finished (roomFor 1), .emit ⟨"/work"⟩ finished (roomFor 1),
    .bind ⟨1, 1⟩ directRoute [] (roomFor 2), .emit ⟨"/work"⟩ finished (roomFor 0)]

theorem reliable_frames_in_order_whole :
    (Relay.new.run replayedWhole).accepted = [0, 1] ∧
      (Relay.new.run replayedWhole).accepted.Pairwise (· < ·) := by
  have hsends : direct.Sends finished := ⟨rfl, rfl, rfl⟩
  refine ⟨by decide +kernel, (reliable_frames_in_order direct replayedWhole
    ⟨⟨rfl, hsends, open_roomFor 1⟩, ⟨rfl, hsends, open_roomFor 1⟩,
      ⟨open_roomFor 2, ?_, fun _ => ⟨rfl, ?_⟩⟩, ⟨rfl, hsends, open_roomFor 0⟩, trivial⟩
    ⟨trivial, trivial, fun _ => ?_, trivial, trivial⟩).1⟩
  · decide +kernel
  · exact fun other route hroute =>
      absurd hroute (lookup_ne_some_of_keys (by decide +kernel) other route)
  · decide +kernel

end Cut

end Aft.Push
