import Aft.Push.Relay

/-!
# Background wakes

A consumer that subscribed to background events is nudged until maintenance sees that every event of
its identity is acknowledged. Maintenance looks between the submission of a job and its report,
which stops the nudges of an identity unless its epoch shows a wake armed since the submission. The
map from identities to their channels, whose entries are never empty, is the set of its pairs, and
when the next nudge is due is left out.
-/

namespace Aft.Push

open Finset

/-- The root and the identity that subscriptions are grouped by. -/
abbrev WakeKey := ProjectRootId × TaskIdentity

def RouteIdentity.wakeKey (identity : RouteIdentity) : WakeKey :=
  (identity.root, identity.taskIdentity)

/-- The session and the owner of a frame that announces a durable event. -/
def PushFrame.durableBgSession : PushFrame → Option (String × Option TaskIdentity)
  | .bashCompleted _ sessionId launchingIdentity => some (sessionId, launchingIdentity)
  | .bashPatternMatch _ sessionId launchingIdentity => some (sessionId, launchingIdentity)
  | _ => none

/-- Whether an event is one of an identity's. -/
def Notice.wakes (notice : Notice) (key : WakeKey) : Bool :=
  notice.frame.durableBgSession.any fun (session, owner) =>
    decide (notice.root = key.1 ∧ key.2.session = session) && owner.all (· = key.2)

abbrev BgSubsBySession := Finset (WakeKey × RouteChannel)

def BgSubsBySession.removeChannel (index : BgSubsBySession) (key : Option WakeKey)
    (channel : RouteChannel) : BgSubsBySession :=
  index.filter fun sub => ¬ (key.all (· = sub.1) ∧ sub.2 = channel)

/-- The channels with a pending wake, and the epochs. -/
structure BgWakes where
  pending : Finset RouteChannel
  epoch : WakeKey → Option ℕ

/-- Arm a wake for channels, raising the epoch of each of their identities once. -/
def BgWakes.arm (wakes : BgWakes) (subs : BgSubsBySession) : BgWakes where
  pending := wakes.pending ∪ subs.image Prod.snd
  epoch key :=
    if key ∈ subs.image Prod.fst then some ((wakes.epoch key).getD 0 + 1) else wakes.epoch key

def armDurableBgWake (index : BgSubsBySession) (notice : Notice) (wakes : BgWakes) : BgWakes :=
  wakes.arm (index.filter fun sub => notice.wakes sub.1)

/-- A maintenance job: the identities to check, with their epochs at the submission, and those found
without an event. -/
structure CompletionDrains where
  root : ProjectRootId
  bgSessionsToCheck : Finset (TaskIdentity × ℕ)
  emptyBgSessions : Finset (TaskIdentity × ℕ)
  deriving DecidableEq

def clearStaleBgWakes (job : CompletionDrains) (index : BgSubsBySession) (wakes : BgWakes) :
    BgWakes :=
  { wakes with
    pending := wakes.pending.filter fun channel => ∀ session ∈ job.emptyBgSessions,
      wakes.epoch (job.root, session.1) = some session.2 →
        ((job.root, session.1), channel) ∉ index }

structure WakeState where
  routes : RouteChannel → Option RouteIdentity
  bgSubs : Finset RouteChannel
  index : BgSubsBySession
  wakes : BgWakes
  unacked : Finset Notice
  reliableRx : List Notice
  jobs : List CompletionDrains
  /-- The events that were ever made. -/
  made : Finset Notice
  /-- The notices that were processed. -/
  processed : Finset Notice
  /-- The unacknowledged events when a channel subscribed. -/
  existed : RouteChannel → Finset Notice

namespace WakeState

def new : WakeState := ⟨fun _ => none, ∅, ∅, ⟨∅, fun _ => none⟩, ∅, [], [], ∅, ∅, fun _ => ∅⟩

variable (state : WakeState)

/-- The key of the identity on the other end of a channel. -/
def key (channel : RouteChannel) : Option WakeKey :=
  (state.routes channel).map RouteIdentity.wakeKey

/-- An accepted subscription, which arms a wake at once. -/
def subscribe (key : WakeKey) (channel : RouteChannel) : WakeState :=
  { state with
    bgSubs := insert channel state.bgSubs
    index := insert (key, channel) state.index
    wakes := state.wakes.arm {(key, channel)}
    existed := Function.update state.existed channel state.unacked }

/-- The end of a subscription, or its refusal. -/
def endBgSubscription (channel : RouteChannel) : WakeState :=
  { state with
    bgSubs := state.bgSubs.erase channel
    index := state.index.removeChannel (state.key channel) channel
    wakes := { state.wakes with pending := state.wakes.pending.erase channel } }

/-- The job that is submitted for a root. -/
def completionDrains (root : ProjectRootId) : CompletionDrains where
  root := root
  bgSessionsToCheck := (state.index.filter (·.1.1 = root)).image fun sub =>
    (sub.1.2, (state.wakes.epoch sub.1).getD 0)
  emptyBgSessions := ∅

end WakeState

/-- One step of the loop, a task or a maintenance job; routes come and go while their channel holds
no subscription. -/
inductive WakeStep : WakeState → WakeState → Prop
  | route {state channel} (identity : Option RouteIdentity) (hunsub : channel ∉ state.bgSubs) :
      WakeStep state { state with routes := Function.update state.routes channel identity }
  | subscribe {state : WakeState} {channel key} (hkey : state.key channel = some key) :
      WakeStep state (state.subscribe key channel)
  | endSubscription {state : WakeState} (channel : RouteChannel) :
      WakeStep state (state.endBgSubscription channel)
  | make {state} {notice : Notice} (hnew : notice ∉ state.made) : WakeStep state
      { state with unacked := insert notice state.unacked, made := insert notice state.made }
  | queue {state} {notice : Notice} (hmade : notice ∈ state.made) :
      WakeStep state { state with reliableRx := state.reliableRx ++ [notice] }
  | process {state : WakeState} {notice rest} (hqueued : state.reliableRx = notice :: rest) :
      WakeStep state { state with
        wakes := armDurableBgWake state.index notice state.wakes
        reliableRx := rest
        processed := insert notice state.processed }
  | acknowledge {state : WakeState} (notice : Notice) :
      WakeStep state { state with unacked := state.unacked.erase notice }
  | nudge {state : WakeState} : WakeStep state
      { state with wakes := { state.wakes with pending := state.wakes.pending ∩ state.bgSubs } }
  | submit {state : WakeState} (root : ProjectRootId) :
      WakeStep state { state with jobs := state.completionDrains root :: state.jobs }
  | check {state : WakeState} {job session} (hjob : job ∈ state.jobs)
      (hsession : session ∈ job.bgSessionsToCheck)
      (hempty : ∀ notice ∈ state.unacked, notice.wakes (job.root, session.1) = false) :
      WakeStep state { state with jobs :=
        { job with emptyBgSessions := insert session job.emptyBgSessions } :: state.jobs.erase job }
  | report {state : WakeState} {job} (hjob : job ∈ state.jobs) :
      WakeStep state { state with
        wakes := clearStaleBgWakes job state.index state.wakes, jobs := state.jobs.erase job }

/-! ## Runs -/

namespace WakeState

/-- An unacknowledged event of a subscribed channel, announced or there when the channel
subscribed. -/
def Owed (state : WakeState) (channel : RouteChannel) (key : WakeKey) (notice : Notice) : Prop :=
  channel ∈ state.bgSubs ∧ state.key channel = some key ∧ notice ∈ state.unacked ∧
    notice.wakes key = true ∧ (notice ∈ state.processed ∨ notice ∈ state.existed channel)

/-- What holds of the wakes in every state. -/
structure Guarded (state : WakeState) : Prop where
  captured : ∀ job ∈ state.jobs, ∀ session ∈ job.bgSessionsToCheck ∪ job.emptyBgSessions,
    session.2 ≤ (state.wakes.epoch (job.root, session.1)).getD 0
  /-- An identity without an event is owed none as long as its epoch stays. -/
  stale : ∀ job ∈ state.jobs, ∀ session ∈ job.emptyBgSessions,
    state.wakes.epoch (job.root, session.1) = some session.2 → ∀ channel notice,
      ¬ state.Owed channel (job.root, session.1) notice
  pending : ∀ channel key notice, state.Owed channel key notice → channel ∈ state.wakes.pending

structure Sound (state : WakeState) : Prop extends Guarded state where
  indexed : ∀ channel key,
    (key, channel) ∈ state.index ↔ channel ∈ state.bgSubs ∧ state.key channel = some key
  made : ∀ notice, notice ∈ state.unacked ∨ notice ∈ state.reliableRx ∨ notice ∈ state.processed ∨
    (∃ channel, notice ∈ state.existed channel) → notice ∈ state.made

variable {state next : WakeState}

/-- A step that arms no wake: what is owed was owed before, and stays pending. -/
theorem Guarded.unarmed (h : Guarded state) (hjobs : ∀ job ∈ next.jobs, job ∈ state.jobs)
    (hepoch : next.wakes.epoch = state.wakes.epoch)
    (howed : ∀ channel key notice, next.Owed channel key notice → state.Owed channel key notice ∧
      (channel ∈ state.wakes.pending → channel ∈ next.wakes.pending)) : Guarded next := by
  refine ⟨fun job hjob session hs => ?_, fun job hjob session hs he channel notice ho => ?_,
    fun channel key notice ho => ?_⟩
  · rw [hepoch]
    exact h.captured job (hjobs job hjob) session hs
  · rw [hepoch] at he
    exact h.stale job (hjobs job hjob) session hs he channel notice (howed channel _ notice ho).1
  · obtain ⟨hold, hpending⟩ := howed channel key notice ho
    exact hpending (h.pending channel key notice hold)

/-- A step that arms wakes: a job that was submitted before no longer clears them. -/
theorem Guarded.armed (h : Guarded state) {subs : BgSubsBySession} (hjobs : next.jobs = state.jobs)
    (hwakes : next.wakes = state.wakes.arm subs)
    (howed : ∀ channel key notice, next.Owed channel key notice →
      state.Owed channel key notice ∨ (key, channel) ∈ subs) : Guarded next := by
  have hepoch key : key ∈ subs.image Prod.fst ∧
      next.wakes.epoch key = some ((state.wakes.epoch key).getD 0 + 1) ∨
      key ∉ subs.image Prod.fst ∧ next.wakes.epoch key = state.wakes.epoch key := by
    simp only [hwakes, BgWakes.arm]
    split_ifs with hk <;> simp [hk]
  refine ⟨fun job hjob session hs => ?_, fun job hjob session hs he channel notice ho => ?_,
    fun channel key notice ho => ?_⟩
  · have hc := h.captured job (hjobs ▸ hjob) session hs
    rcases hepoch (job.root, session.1) with ⟨-, heq⟩ | ⟨-, heq⟩
    · rw [heq]
      exact hc.trans (Nat.le_succ _)
    · rwa [heq]
  · have hc := h.captured job (hjobs ▸ hjob) session (mem_union_right _ hs)
    rcases hepoch (job.root, session.1) with ⟨-, heq⟩ | ⟨hnot, heq⟩
    · have := Option.mem_unique heq he
      omega
    · refine h.stale job (hjobs ▸ hjob) session hs (heq ▸ he) channel notice ?_
      exact (howed channel _ notice ho).resolve_right fun hsub =>
        hnot (mem_image_of_mem Prod.fst hsub)
  · rw [hwakes]
    rcases howed channel key notice ho with hold | hsub
    · exact mem_union_left _ (h.pending channel key notice hold)
    · exact mem_union_right _ (mem_image_of_mem Prod.snd hsub)

theorem Sound.step (h : Sound state) (hs : WakeStep state next) : Sound next := by
  have hmade := h.made
  cases hs with
  | @route channel identity hunsub =>
    have hkey {other} (ho : other ∈ state.bgSubs) :
        Function.update state.routes channel identity other = state.routes other := by
      refine Function.update_of_ne ?_ ..
      rintro rfl
      exact hunsub ho
    refine ⟨h.unarmed (fun _ => id) rfl fun other key notice ho => ⟨?_, id⟩,
      fun other key => (h.indexed other key).trans (and_congr_right fun ho => ?_), hmade⟩
    · exact ⟨ho.1, by simpa [WakeState.key, hkey ho.1] using ho.2.1, ho.2.2⟩
    · simp [WakeState.key, hkey ho]
  | @subscribe channel key hkey =>
    refine ⟨h.armed rfl rfl fun other k notice ho => ?_, fun other k => ?_, fun notice hn => ?_⟩
    · obtain ⟨hsub, hk, hun, hw, htold⟩ := ho
      by_cases heq : other = channel
      · subst heq
        exact .inr (by simp [Option.mem_unique hk hkey])
      · exact .inl ⟨(mem_insert.1 hsub).resolve_left heq, hk, hun, hw,
          by simpa [WakeState.subscribe, heq] using htold⟩
    · have hi := h.indexed other k
      simp only [WakeState.subscribe, mem_insert, Prod.mk.injEq]
      change _ ↔ _ ∧ state.key other = some k
      grind
    · refine hmade notice ?_
      simp only [WakeState.subscribe, Function.update_apply] at hn
      grind
  | endSubscription channel =>
    refine ⟨h.unarmed (fun _ => id) rfl fun other k notice ho => ?_, fun other k => ?_, hmade⟩
    · obtain ⟨hne, hsub⟩ := mem_erase.1 ho.1
      exact ⟨⟨hsub, ho.2⟩, fun hp => mem_erase.2 ⟨hne, hp⟩⟩
    · have hi := h.indexed other k
      simp only [endBgSubscription, BgSubsBySession.removeChannel, mem_filter, mem_erase]
      change _ ↔ _ ∧ state.key other = some k
      grind
  | @make notice hnew =>
    refine ⟨h.unarmed (fun _ => id) rfl fun channel k other ho => ⟨?_, id⟩, h.indexed,
      fun other ho => ?_⟩
    · obtain ⟨hsub, hk, hun, hw, htold⟩ := ho
      -- a new event is not told yet
      have hold : other ≠ notice := by
        rintro rfl
        exact hnew (hmade other (.inr (.inr (htold.imp_right fun hex => ⟨channel, hex⟩))))
      exact ⟨hsub, hk, mem_of_mem_insert_of_ne hun hold, hw, htold⟩
    · have := hmade other
      grind
  | @queue notice hqueued =>
    refine ⟨⟨h.captured, h.stale, h.pending⟩, h.indexed, fun other ho => ?_⟩
    have := hmade other
    grind
  | @process notice rest hqueued =>
    refine ⟨h.armed rfl rfl fun channel k other ho => ?_, h.indexed, fun other ho => ?_⟩
    · obtain ⟨hsub, hk, hun, hw, htold⟩ := ho
      by_cases heq : other = notice
      · exact .inr (mem_filter.2 ⟨(h.indexed channel k).2 ⟨hsub, hk⟩, heq ▸ hw⟩)
      · exact .inl ⟨hsub, hk, hun, hw, htold.imp_left fun hp => mem_of_mem_insert_of_ne hp heq⟩
    · have := hmade other
      grind
  | acknowledge notice =>
    refine ⟨h.unarmed (fun _ => id) rfl fun channel k other ho => ⟨?_, id⟩, h.indexed,
      fun other ho => hmade other (ho.imp_left mem_of_mem_erase)⟩
    exact ⟨ho.1, ho.2.1, mem_of_mem_erase ho.2.2.1, ho.2.2.2⟩
  | nudge =>
    exact ⟨h.unarmed (fun _ => id) rfl fun channel k other ho =>
      ⟨ho, fun hp => mem_inter.2 ⟨hp, ho.1⟩⟩, h.indexed, hmade⟩
  | submit root =>
    refine ⟨⟨List.forall_mem_cons.2 ⟨fun session hs => ?_, h.captured⟩,
      List.forall_mem_cons.2 ⟨nofun, h.stale⟩, h.pending⟩, h.indexed, hmade⟩
    simp only [completionDrains, union_empty, mem_image, mem_filter] at hs
    obtain ⟨⟨⟨root, task⟩, channel⟩, ⟨-, rfl⟩, rfl⟩ := hs
    exact le_rfl
  | @check job session hjob hsession hempty =>
    have hold {other} (ho : other ∈ state.jobs.erase job) := List.mem_of_mem_erase ho
    refine ⟨⟨List.forall_mem_cons.2 ⟨fun s hs => h.captured job hjob s ?_,
        fun other ho => h.captured other (hold ho)⟩,
      List.forall_mem_cons.2 ⟨fun s hs he channel notice ho => ?_,
        fun other ho => h.stale other (hold ho)⟩, h.pending⟩, h.indexed, hmade⟩
    · grind
    · rcases mem_insert.1 hs with rfl | hs
      · have hw := ho.2.2.2.1
        rw [hempty notice ho.2.2.1] at hw
        cases hw
      · exact h.stale job hjob s hs he channel notice ho
  | @report job hjob =>
    refine ⟨h.unarmed (fun _ => List.mem_of_mem_erase) rfl
      fun channel k other ho => ⟨ho, fun hp => ?_⟩, h.indexed, hmade⟩
    refine mem_filter.2 ⟨hp, fun session hs he hi => ?_⟩
    -- a channel that the job would clear is one of the identity that was found empty
    obtain rfl := Option.mem_unique ho.2.1 ((h.indexed channel _).1 hi).2
    exact h.stale job hjob session hs he channel other ho

theorem sound_of_run (h : Relation.ReflTransGen WakeStep new state) : Sound state := by
  induction h with
  | refl => refine ⟨⟨?_, ?_, ?_⟩, ?_, ?_⟩ <;> simp [new, Owed]
  | tail _ hs ih => exact ih.step hs

/-- In any interleaving, a subscribed channel whose identity has an unacknowledged event is pending,
if the notice of the event was processed or the event existed when the channel subscribed. -/
theorem pending_of_unacked {channel : RouteChannel} {identity : RouteIdentity} {notice : Notice}
    (h : Relation.ReflTransGen WakeStep new state) (hsub : channel ∈ state.bgSubs)
    (hroute : state.routes channel = some identity) (hun : notice ∈ state.unacked)
    (hw : notice.wakes identity.wakeKey = true)
    (htold : notice ∈ state.processed ∨ notice ∈ state.existed channel) :
    channel ∈ state.wakes.pending := by
  refine (sound_of_run h).pending channel identity.wakeKey notice ⟨hsub, ?_, hun, hw, htold⟩
  rw [key, hroute, Option.map_some]

/-- An event that is made and announced after a job found its identity empty survives the report. -/
theorem pending_of_unacked_reported : ∃ state, Relation.ReflTransGen WakeStep new state ∧
    state.jobs = [] ∧ state.unacked.card = 1 ∧ ⟨1, 0⟩ ∈ state.wakes.pending := by
  let identity : RouteIdentity := ⟨⟨"/p"⟩, "pi", "s", .firstParty, .firstParty⟩
  let notice : Notice := ⟨⟨"/p"⟩, 0, .bashCompleted "t" "s" none⟩
  have hrun := (@Relation.ReflTransGen.refl _ WakeStep new)
    |>.tail (@WakeStep.route _ ⟨1, 0⟩ (some identity) (by simp [new]))
    |>.tail (@WakeStep.subscribe _ ⟨1, 0⟩ _ rfl) |>.tail (.submit ⟨"/p"⟩)
    |>.tail (@WakeStep.check _ _ (identity.taskIdentity, 1) (.head _) (by decide)
      (by simp [new, subscribe]))
    |>.tail (@WakeStep.make _ notice (by simp [new, subscribe]))
    |>.tail (.queue (mem_insert_self ..)) |>.tail (.process rfl) |>.tail (.report (.head _))
  exact ⟨_, hrun, rfl, rfl, pending_of_unacked hrun (by decide) rfl (mem_insert_self ..) rfl
    (.inl (mem_insert_self ..))⟩

/-- A wake is pending only for a channel that holds a subscription. -/
theorem pending_only_subscribed (h : Relation.ReflTransGen WakeStep new state) :
    state.wakes.pending ⊆ state.bgSubs := by
  induction h with
  | refl => rfl
  | tail hrun hs ih =>
    cases hs with
    | @subscribe channel key hkey =>
      exact (union_subset_union ih (by simp)).trans (union_comm _ {channel}).subset
    | endSubscription channel => exact erase_subset_erase _ ih
    | process =>
      refine union_subset ih fun channel hmem => ?_
      obtain ⟨sub, hsub, rfl⟩ := mem_image.1 hmem
      exact (((sound_of_run hrun).indexed _ _).1 (mem_filter.1 hsub).1).1
    | nudge => exact inter_subset_right
    | report => exact (filter_subset ..).trans ih
    | _ => exact ih

theorem pending_only_subscribed_first :
    ∃ state : WakeState, ⟨1, 0⟩ ∈ state.wakes.pending ∧ ⟨1, 0⟩ ∈ state.bgSubs := by
  let identity : RouteIdentity := ⟨⟨"/p"⟩, "pi", "s", .firstParty, .firstParty⟩
  have hrun := (@Relation.ReflTransGen.refl _ WakeStep new)
    |>.tail (@WakeStep.route _ ⟨1, 0⟩ (some identity) (by simp [new]))
    |>.tail (@WakeStep.subscribe _ ⟨1, 0⟩ _ rfl)
  exact ⟨_, by decide, pending_only_subscribed hrun (by decide)⟩

end WakeState

end Aft.Push
