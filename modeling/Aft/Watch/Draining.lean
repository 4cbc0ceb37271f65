import Aft.Watch.Steps

/-!
# What the steps of the drain do to the line

A step of the drain takes at most one event from the line. The changes of the event, and those that
the drain holds, stay with the drain until they are recorded or a matcher drops them.
-/

namespace Aft.Watch

open List World

variable {Path : Type} {path : Path} {stamp : ℕ}

def Note.Records (path : Path) : Note Path → Prop
  | .change recorded => recorded = path
  | .overflow => True
  | .dropped other => other = path
  | .ignored other => other = path
  | _ => False

def DrainPhase.remaining : DrainPhase Path → List Path
  | .collect => []
  | .apply _ remaining => remaining

theorem DrainPhase.remaining_subset (phase : DrainPhase Path) : phase.remaining ⊆ phase.paths := by
  cases phase with
  | collect => exact List.Subset.refl _
  | apply recorded remaining => exact subset_append_right _ _

/-- The next cookie records the change first. -/
def World.Settling (path : Path) (world : World Path) : Prop :=
  (path ∈ world.drain.pendingPaths ∨ path ∈ world.drain.phase.remaining) ∨ world.gapPending = true

theorem World.mem_queued (world : World Path)
    (h : path ∈ world.drain.pendingPaths ∨ path ∈ world.drain.phase.remaining) :
    path ∈ world.drain.pendingPaths ++ world.drain.phase.paths :=
  mem_append.mpr (h.imp_right fun h => world.drain.phase.remaining_subset h)

/-- What a step of the drain does to changes and cookies; if `kept`, every change it holds is kept
or recorded. -/
structure Draining (kept : Prop) (world next : World Path) (fresh : List (Note Path)) : Prop where
  thread : next.backlog = world.backlog ∧ next.agenda = world.agenda ∧
    next.rawPaths = world.rawPaths ∧ next.contentOnlyPaths = world.contentOnlyPaths
  notes : next.notes = fresh ++ world.notes
  kind : ∀ note ∈ fresh, note.isDrain = true
  rescan : next.drain.rescanRequired = true →
    world.drain.rescanRequired = true ∨ .overflow ∈ fresh
  settling : kept → ∀ path, world.Settling path →
    next.Settling path ∨ ∃ note ∈ fresh, note.Records path
  channel : next.channel = world.channel ∨ ∃ event, world.channel = event :: next.channel ∧
    ∀ path, event.Covers false path → world.drain.rescanRequired = true ∨ next.Settling path ∨
      ∃ note ∈ fresh, note.Records path
  acked : ∀ cookie stamp newer older, fresh = newer ++ .acked cookie stamp :: older →
    world.channel = .cookieObserved cookie stamp :: next.channel ∧
      ∀ path, world.Settling path → ∃ note ∈ older, note.Records path

variable {kept : Prop} {world next : World Path} {fresh : List (Note Path)}
  {channel : List (WatcherDispatchEvent Path)} {event : WatcherDispatchEvent Path}

/-- Notes without an acknowledgement. -/
theorem not_acked {Q : Path → ℕ → List (Note Path) → Prop}
    (h : ∀ cookie stamp, .acked cookie stamp ∉ fresh) :
    ∀ cookie stamp newer older, fresh = newer ++ .acked cookie stamp :: older →
      Q cookie stamp older :=
  fun cookie stamp _ _ hf => absurd (by simp [hf]) (h cookie stamp)

theorem Draining.of_channel_eq (ht : next.backlog = world.backlog ∧ next.agenda = world.agenda ∧
      next.rawPaths = world.rawPaths ∧ next.contentOnlyPaths = world.contentOnlyPaths)
    (hn : next.notes = fresh ++ world.notes) (hc : next.channel = world.channel)
    (hk : ∀ note ∈ fresh, note.isDrain = true ∧ ∀ cookie stamp, note ≠ .acked cookie stamp)
    (hr : next.drain.rescanRequired = true → world.drain.rescanRequired = true)
    (hs : kept → ∀ path, world.Settling path →
      next.Settling path ∨ ∃ note ∈ fresh, note.Records path) :
    Draining kept world next fresh where
  thread := ht
  notes := hn
  kind := fun note hno => (hk note hno).1
  rescan := fun h => .inl (hr h)
  settling := hs
  channel := .inl hc
  acked := not_acked fun cookie stamp h => (hk _ h).2 cookie stamp rfl

theorem draining_skip (world : World Path) : Draining kept world world [] :=
  .of_channel_eq ⟨rfl, rfl, rfl, rfl⟩ rfl rfl (by simp) id fun _ _ h => .inl h

theorem exists_overflow_records (path : Path) : ∃ note ∈ [Note.overflow], note.Records path :=
  ⟨.overflow, by simp, trivial⟩

theorem draining_gap (world : World Path) :
    ∃ fresh, Draining kept world world.recordCheckoutPendingWatcherGap fresh := by
  unfold recordCheckoutPendingWatcherGap
  split_ifs
  · exact ⟨[.overflow], .of_channel_eq ⟨rfl, rfl, rfl, rfl⟩ rfl rfl (by simp [Note.isDrain]) id
      fun _ path _ => .inr (exists_overflow_records path)⟩
  · exact ⟨[], draining_skip world⟩

theorem settling_publishMatcher (world : World Path) (matcher : Matcher Path)
    (h : world.Settling path) : (world.publishMatcher matcher).Settling path ∨
      ∃ note ∈ ((world.drain.pendingPaths ++ world.drain.phase.paths).filter
        matcher.ignoresQueued).map Note.dropped, note.Records path := by
  rcases h with h | h
  · cases hig : matcher.ignoresQueued path with
    | true =>
      refine .inr ⟨.dropped path, mem_map_of_mem ?_, rfl⟩
      exact mem_filter.mpr ⟨world.mem_queued h, hig⟩
    | false =>
      refine .inl (.inl (h.imp (fun h => ?_) fun h => ?_))
      · simp [publishMatcher, h, hig]
      · cases hp : world.drain.phase with
        | collect => simp [hp, DrainPhase.remaining] at h
        | apply recorded remaining =>
          rw [hp] at h
          have h : path ∈ remaining := h
          simp [publishMatcher, hp, DrainPhase.retain, DrainPhase.remaining, h, hig]
  · exact .inl (.inr h)

/-! ## Receiving -/

theorem draining_receivePaths (hc : world.channel = event :: channel) (paths : List Path)
    (hev : ∀ path, event.Covers false path → path ∈ paths) :
    ∃ fresh, Draining kept world ({ world with channel }.receivePaths paths) fresh := by
  unfold receivePaths
  split_ifs with hr
  · exact ⟨[], ⟨rfl, rfl, rfl, rfl⟩, rfl, by simp, .inl, fun _ _ h => .inl h,
      .inr ⟨event, hc, fun _ _ => .inl hr⟩, by simp⟩
  · refine ⟨(paths.filter world.matcher.ignoresQueued).map Note.dropped, ⟨rfl, rfl, rfl, rfl⟩, rfl,
      forall_mem_map.mpr fun _ _ => rfl, .inl, ?_, .inr ⟨event, hc, ?_⟩,
      not_acked (by simp)⟩
    · rintro - path (hp | hp)
      · exact .inl (.inl (hp.imp_left fun h => mem_append_left _ h))
      · exact .inl (.inr hp)
    · intro path hco
      have hp := hev path hco
      cases hig : world.matcher.ignoresQueued path with
      | true =>
        exact .inr (.inr ⟨.dropped path, mem_map_of_mem (by simp [hp, hig]), rfl⟩)
      | false =>
        refine .inr (.inl (.inl (.inl (mem_append_right _ ?_))))
        simp [hp, hig]

theorem draining_receiveCookie {cookie : Path}
    (hc : world.channel = .cookieObserved cookie stamp :: channel) :
    ∃ fresh, Draining kept world ({ world with channel }.receiveCookie cookie stamp) fresh := by
  set queued := world.drain.pendingPaths ++ world.drain.phase.paths with hq
  -- The pending gap adds an overflow between the changes and the acknowledgement.
  obtain ⟨gap, gapPending, hn, hk, hgap⟩ : ∃ gap gapPending,
      { world with channel }.receiveCookie cookie stamp = { world with
        channel
        gapPending
        notes := (.acked cookie stamp :: (gap ++ queued.reverse.map Note.change)) ++ world.notes } ∧
      (∀ note ∈ gap, note = .overflow) ∧ (world.gapPending = true → .overflow ∈ gap) := by
    unfold receiveCookie recordCheckoutWatcherCookie recordCheckoutPendingWatcherGap
    split_ifs with hgap
    · exact ⟨[.overflow], _, rfl, by simp, by simp⟩
    · exact ⟨[], _, rfl, by simp, fun h => absurd h hgap⟩
  have hs : ∀ path, world.Settling path →
      ∃ note ∈ gap ++ queued.reverse.map Note.change, note.Records path := by
    rintro path (hp | hp)
    · refine ⟨.change path, mem_append_right _ (mem_map_of_mem ?_), rfl⟩
      exact mem_reverse.mpr (world.mem_queued hp)
    · exact ⟨.overflow, mem_append_left _ (hgap hp), trivial⟩
  rw [hn]
  refine ⟨_, ⟨rfl, rfl, rfl, rfl⟩, rfl, ?_, .inl, ?_, .inr ⟨_, hc, fun _ h => absurd h id⟩, ?_⟩
  · simp only [mem_cons, mem_append, mem_map]
    rintro note (rfl | hno | ⟨_, -, rfl⟩)
    · rfl
    · rw [hk note hno]
      rfl
    · rfl
  · intro _ path hp
    obtain ⟨note, hno, hr⟩ := hs path hp
    exact .inr ⟨note, mem_cons_of_mem _ hno, hr⟩
  · intro other count newer older heq
    cases newer with
    | nil =>
      obtain ⟨⟨rfl, rfl⟩, rfl⟩ := heq
      exact ⟨hc, hs⟩
    | cons note newer =>
      simp only [cons_append, cons.injEq] at heq
      have hmem : .acked other count ∈ gap ++ queued.reverse.map Note.change := by
        rw [heq.2]
        simp
      rcases mem_append.mp hmem with hmem | hmem
      · cases hk _ hmem
      · simp at hmem

theorem draining_receiveRules {changed : List Path}
    (hc : world.channel = .ignoreRulesChanged changed :: channel)
    (rules : Option (Matcher Path)) (affected : List Path) :
    ∃ fresh, Draining kept world ({ world with channel }.receiveRules rules affected) fresh := by
  have hm : ∀ {start : World Path} {path}, start.Settling path →
      { start with drain := { start.drain with
        pendingPaths := start.drain.pendingPaths ++ affected } }.Settling path :=
    fun h => h.imp_left fun h => h.imp_left fun h => mem_append_left _ h
  unfold receiveRules
  split_ifs with hr
  · exact ⟨[], ⟨rfl, rfl, rfl, rfl⟩, rfl, by simp, .inl, fun _ _ h => .inl h,
      .inr ⟨_, hc, fun _ h => absurd h id⟩, by simp⟩
  · cases rules with
    | none =>
      exact ⟨[], ⟨rfl, rfl, rfl, rfl⟩, rfl, by simp, .inl, fun _ _ h => .inl (hm h),
        .inr ⟨_, hc, fun _ h => absurd h id⟩, by simp⟩
    | some matcher =>
      refine ⟨((world.drain.pendingPaths ++ world.drain.phase.paths).filter
        matcher.ignoresQueued).map Note.dropped, ⟨rfl, rfl, rfl, rfl⟩, rfl,
        forall_mem_map.mpr fun _ _ => rfl, .inl, fun _ path h => ?_,
        .inr ⟨_, hc, fun _ h => absurd h id⟩, not_acked (by simp)⟩
      exact (settling_publishMatcher { world with channel } matcher h).imp_left fun h => hm h

theorem draining_receive (world : World Path) (rules : Option (Matcher Path))
    (affected : List Path) : ∃ fresh, Draining kept world (world.receive rules affected) fresh := by
  unfold receive
  cases hc : world.channel with
  | nil => exact ⟨[], draining_skip world⟩
  | cons event channel =>
    cases event with
    | paths paths => exact draining_receivePaths hc paths fun _ h => h
    | contentOnlyPaths paths => exact draining_receivePaths hc paths fun _ h => h.2
    | cookieObserved cookie stamp => exact draining_receiveCookie hc
    | rescanRequired reason =>
      exact ⟨[.overflow], ⟨rfl, rfl, rfl, rfl⟩, rfl, by simp [Note.isDrain],
        fun _ => .inr (by simp), fun _ path _ => .inr (exists_overflow_records path),
        .inr ⟨_, hc, fun path _ => .inr (.inr (exists_overflow_records path))⟩,
        not_acked (by simp)⟩
    | ignoreRulesChanged paths => exact draining_receiveRules hc rules affected

/-! ## Slices -/

variable [DecidableEq Path]

/-- No paths are taken in while the drain waits for a rescan, and no git HEAD metadata is
collected. -/
def World.orderly (world : World Path) : World.Step Path → Bool
  | .thread (.work _) =>
    match world.agenda with
    | .take _ _ :: _ => !world.drain.rescanRequired
    | _ => true
  | .drain (.collect maxPaths heads) =>
    (world.drain.pendingPaths.take maxPaths).all fun path => path ∉ heads
  | _ => true

theorem draining_collectPaths {maxPaths : ℕ} {heads : List Path} (hp : world.drain.phase = .collect)
    (hh : kept → ∀ path ∈ world.drain.pendingPaths.take maxPaths, path ∉ heads) :
    Draining kept world (world.collectPaths maxPaths heads) [] := by
  have hpe : ∀ path, world.Settling path → world.gapPending = true ∨
      path ∈ world.drain.pendingPaths.take maxPaths ∨
        path ∈ world.drain.pendingPaths.drop maxPaths := by
    rintro path ((hpa | hpa) | hpa)
    · rw [← take_append_drop maxPaths world.drain.pendingPaths] at hpa
      exact .inr (mem_append.mp hpa)
    · simp [hp, DrainPhase.remaining] at hpa
    · exact .inl hpa
  unfold collectPaths
  dsimp only
  split_ifs with ht
  · refine .of_channel_eq ⟨rfl, rfl, rfl, rfl⟩ rfl rfl (by simp) id fun _ path hpa => .inl ?_
    rcases hpe path hpa with hpa | hpa | hpa
    · exact .inr hpa
    · rw [← mem_dedup, ht] at hpa
      cases hpa
    · exact .inl (.inl hpa)
  · refine .of_channel_eq ⟨rfl, rfl, rfl, rfl⟩ rfl rfl (by simp) id fun hall path hpa => .inl ?_
    rcases hpe path hpa with hpa | hpa | hpa
    · exact .inr hpa
    · refine .inl (.inr ?_)
      simp [DrainPhase.remaining, hpa, hh hall path hpa]
    · exact .inl (.inl hpa)

theorem draining_drainStep (world : World Path) (step : World.DrainStep Path) :
    ∃ fresh, Draining (world.orderly (.drain step) = true) world (world.drainStep step) fresh := by
  have hs : ∃ fresh, Draining (world.orderly (.drain step) = true) world world fresh :=
    ⟨[], draining_skip world⟩
  cases step with
  | begin => exact draining_gap world
  | receive rules affected => exact draining_receive world rules affected
  | publishRescan matcher =>
    simp only [drainStep]
    split_ifs
    · exact ⟨_, .of_channel_eq ⟨rfl, rfl, rfl, rfl⟩ rfl rfl
        (forall_mem_map.mpr fun _ _ => ⟨rfl, nofun⟩) id
        fun _ path h => settling_publishMatcher world matcher h⟩
    · exact hs
  | startRescan =>
    simp only [drainStep]
    split_ifs
    · exact ⟨[], .of_channel_eq ⟨rfl, rfl, rfl, rfl⟩ rfl rfl (by simp) id fun _ _ h => .inl h⟩
    · exact hs
  | finishRescan =>
    simp only [drainStep, finishRescan]
    split_ifs
    · split
      · exact ⟨[], .of_channel_eq ⟨rfl, rfl, rfl, rfl⟩ rfl rfl (by simp) id fun _ _ h => .inl h⟩
      · exact ⟨[], .of_channel_eq ⟨rfl, rfl, rfl, rfl⟩ rfl rfl (by simp) nofun fun _ _ h => .inl h⟩
    · exact hs
  | refreshIgnored =>
    simp only [drainStep]
    split_ifs
    · exact hs
    · exact ⟨[.overflow], .of_channel_eq ⟨rfl, rfl, rfl, rfl⟩ rfl rfl (by simp [Note.isDrain]) id
        fun _ path _ => .inr (exists_overflow_records path)⟩
  | collect maxPaths heads =>
    simp only [drainStep]
    split
    · rename_i hp
      exact ⟨[], draining_collectPaths hp fun h => by simpa [orderly] using h⟩
    · exact hs
  | applyPath =>
    simp only [drainStep]
    split
    · rename_i recorded taken remaining hp
      refine ⟨[.change taken], .of_channel_eq ⟨rfl, rfl, rfl, rfl⟩ rfl rfl (by simp [Note.isDrain])
        id ?_⟩
      rintro - path ((hpa | hpa) | hpa)
      · exact .inl (.inl (.inl hpa))
      · rw [hp] at hpa
        rcases mem_cons.mp hpa with rfl | hpa
        · exact .inr ⟨_, mem_singleton_self _, rfl⟩
        · exact .inl (.inl (.inr hpa))
      · exact .inl (.inr hpa)
    · exact hs
  | applyDone =>
    simp only [drainStep]
    split
    · rename_i recorded hp
      refine ⟨[], .of_channel_eq ⟨rfl, rfl, rfl, rfl⟩ rfl rfl (by simp) id ?_⟩
      rintro - path ((hpa | hpa) | hpa)
      · exact .inl (.inl (.inl hpa))
      · rw [hp] at hpa
        cases hpa
      · exact .inl (.inr hpa)
    · exact hs

omit [DecidableEq Path] in
theorem Draining.shape (h : Draining kept world next fresh) (hw : Shape world) : Shape next := by
  obtain ⟨-, hag, hraw, -⟩ := h.thread
  unfold Shape
  rw [hag, hraw]
  exact hw

theorem Draining.front (h : Draining kept world next fresh) : next.front = world.front := by
  obtain ⟨-, hag, hraw, hc⟩ := h.thread
  unfold World.front
  rw [hag, hraw, hc]

end Aft.Watch
