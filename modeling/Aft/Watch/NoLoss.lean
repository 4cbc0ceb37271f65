import Aft.Watch.Draining

/-!
# The watcher thread loses no change

A path that was taken in is in the flush window, in the task at hand or in the backlog, until a
batch with it or a rescan is put into the channel, a running rescan is told to run again, or the
matcher of a flush ignores it. Batches are content-only as long as every change is.
-/

namespace Aft.Watch

open List

variable {Path : Type}

/-! ## Notes -/

namespace Note

/-- The change left the window and the task at hand. -/
def Leaves (full : Bool) (path : Path) : Note Path → Prop
  | .dispatched event => event.Covers full path
  | .marked => True
  | .ignored other => other = path
  | _ => False

/-- The change left the backlog. -/
def Releases (full : Bool) (path : Path) : Note Path → Prop
  | .sent event => event.Covers full path
  | .marked => True
  | _ => False

/-- The change left the thread. -/
def Settles (full : Bool) (path : Path) (note : Note Path) : Prop :=
  note.Releases full path ∨ note = .ignored path

end Note

/-- A change of the path since it last left the window is not a content change. -/
def Dirty (path : Path) (notes : List (Note Path)) : Prop :=
  Ledger.Outstanding (fun note _ => note.Takes true path) (Note.Leaves false path) notes

/-- A content-only batch with the path was dispatched when every change since was a content
change. -/
def DispatchedClean (path : Path) (notes : List (Note Path)) : Prop :=
  ∃ paths before, .dispatched (.contentOnlyPaths paths) :: before <:+ notes ∧ path ∈ paths ∧
    ¬ Dirty path before

variable {path : Path}

theorem DispatchedClean.mono {notes more : List (Note Path)} (h : DispatchedClean path notes)
    (hm : notes <:+ more) : DispatchedClean path more := by
  obtain ⟨paths, before, hs, hp, hc⟩ := h
  exact ⟨paths, before, hs.trans hm, hp, hc⟩

theorem WatcherDispatchEvent.Covers.of_full {event : WatcherDispatchEvent Path}
    (h : event.Covers true path) : event.Covers false path := by
  cases event with
  | paths paths => exact h
  | contentOnlyPaths paths => exact ⟨rfl, h.2⟩
  | _ => exact h

/-! ## The invariant -/

variable [DecidableEq Path] {world next : World Path} {fresh : List (Note Path)}
  {handed moved : List (WatcherDispatchEvent Path)}

/-- A change in the thread is held or in hand, and content-only batches keep their promise. -/
structure Invariant (world : World Path) : Prop where
  shape : Shape world
  tracked : ∀ full path, Ledger.Outstanding (fun note _ => note.Takes full path)
    (Note.Settles full path) world.notes → Covered full path (world.backlog ++ world.front)
  dirty : ∀ path, Dirty path world.notes → Covered true path world.front
  held : ∀ paths, .contentOnlyPaths paths ∈ world.backlog → ∀ path ∈ paths,
    DispatchedClean path world.notes
  sent : ∀ paths earlier, .sent (.contentOnlyPaths paths) :: earlier <:+ world.notes →
    ∀ path ∈ paths, DispatchedClean path earlier

variable {full : Bool}

namespace Threads

section

variable (h : Threads world next handed moved fresh)
include h

section

variable (hw : Invariant world)
include hw

theorem tracked (hout : Ledger.Outstanding (fun note _ => note.Takes full path)
      (Note.Settles full path) next.notes) : Covered full path (next.backlog ++ next.front) := by
  rw [h.notes] at hout
  by_cases ht : ∃ note ∈ fresh, note.Takes full path
  · obtain ⟨note, hn, ht⟩ := ht
    exact covered_append.mpr (.inr (h.took full path note hn ht).1)
  · obtain ⟨hold, ho⟩ := hout.of_append fun note hn _ _ hn' => ht ⟨note, hn, hn'⟩
    have hl : ¬ Lost fresh full path := by
      rintro (hmem | hmem)
      · exact ho _ hmem (.inr rfl)
      · exact ho _ hmem (.inl trivial)
    have hm : ¬ Covered full path moved := fun ⟨event, hev, hc⟩ =>
      ho _ ((h.sent event).mpr hev) (.inl hc)
    have hli := (Carries.refl world.backlog).append h.front.carries full path
      (hw.tracked full path hold)
    rw [← append_assoc] at hli
    have hne := h.back.carries.append (Carries.refl next.front) full path (hli.resolve_left hl)
    simpa [hm, hl] using hne

theorem dirty (hd : Dirty path next.notes) : Covered true path next.front := by
  rw [h.notes] at hd
  by_cases ht : ∃ note ∈ fresh, note.Takes true path
  · obtain ⟨note, hn, ht⟩ := ht
    exact (h.took true path note hn ht).1
  · obtain ⟨hold, ho⟩ :=
      hd.of_append fun note hn _ _ hn' => ht ⟨note, hn, hn'⟩
    rcases h.front.carries true path (hw.dirty path hold) with (hmem | hmem) | hc
    · exact absurd rfl (ho _ hmem)
    · exact absurd trivial (ho _ hmem)
    · refine (covered_append.mp hc).resolve_left fun ⟨event, hev, hco⟩ => ?_
      rcases h.dispatched with rfl | ⟨other, more, rfl, rfl⟩
      · cases hev
      · obtain rfl := mem_singleton.mp hev
        exact ho (.dispatched event) (by simp) hco.of_full

/-- A path in a content-only batch handed over now saw content changes only: nothing else holds a
change. -/
theorem dispatchedClean {paths : List Path}
    (hmem : .contentOnlyPaths paths ∈ handed) (hp : path ∈ paths) :
    DispatchedClean path (.dispatched (.contentOnlyPaths paths) :: world.notes) := by
  refine ⟨paths, world.notes, suffix_rfl, hp, fun hd => ?_⟩
  obtain ⟨rest, hag⟩ := h.batch _ hmem rfl
  obtain ⟨hq, hraw⟩ := hw.shape _ _ hag
  have hc := hw.dirty path hd
  rw [World.front_cons hag, World.front, hraw rfl] at hc
  simp only [World.carried, covered_append, covered_cons, not_covered_nil, or_false] at hc
  rcases hc with hc | ⟨event, hev, hco⟩ | hc
  · exact absurd hc.1 (by decide)
  · obtain ⟨task, ht, hev⟩ := mem_flatMap.mp hev
    have := hq task ht
    cases task with
    | take paths kind => cases hev
    | flush =>
      have : Covered true path (World.windowEvents [] world.contentOnlyPaths) :=
        ⟨event, hev, hco⟩
      simp at this
    | awaitRules observed raw contentOnly => cases this
    | dispatch other =>
      obtain rfl := mem_singleton.mp hev
      cases event with
      | cookieObserved cookie stamp => exact hco
      | _ => cases this
  · simp at hc

theorem invariant : Invariant next := by
  -- A content-only batch of the channel or the backlog was held, or is dispatched by the step.
  have hc : ∀ paths, .contentOnlyPaths paths ∈ moved ++ next.backlog → ∀ path ∈ paths,
      DispatchedClean path world.notes ∨ ∃ more others,
        fresh = more ++ [.dispatched (.contentOnlyPaths others)] ∧
          DispatchedClean path (.dispatched (.contentOnlyPaths others) :: world.notes) := by
    intro paths hp path hpa
    obtain ⟨others, ho, hmem⟩ := h.content paths hp path hpa
    rcases mem_append.mp hmem with hmem | hmem
    · exact .inl (hw.held others hmem path ho)
    · have := h.dispatchedClean hw hmem ho
      rcases h.dispatched with rfl | ⟨event, more, rfl, rfl⟩
      · cases hmem
      · obtain rfl := mem_singleton.mp hmem
        exact .inr ⟨more, others, rfl, this⟩
  refine ⟨h.shape hw.shape, fun _ _ => h.tracked hw, fun _ => h.dirty hw, ?_, ?_⟩
  · intro paths hp path hpa
    rw [h.notes]
    rcases hc paths (mem_append_right _ hp) path hpa with hold | ⟨more, others, rfl, hnew⟩
    · exact hold.mono (suffix_append _ _)
    · exact hnew.mono ⟨more, by simp⟩
  · intro paths earlier hs path hpa
    rw [h.notes] at hs
    rcases Ledger.cons_suffix_append hs with ⟨newer, older, hf, rfl⟩ | hs
    · have hm := (h.sent (.contentOnlyPaths paths)).mp (by simp [hf])
      rcases hc paths (mem_append_left _ hm) path hpa with
        hold | ⟨more, others, heq, hnew⟩
      · exact hold.mono (suffix_append _ _)
      · -- The dispatch is the oldest note of the step, so it stands before the send.
        rw [heq] at hf
        rcases Ledger.cons_suffix_append ⟨newer, hf.symm⟩ with ⟨_, rest, -, rfl⟩ | hd
        · exact hnew.mono ⟨rest, by simp⟩
        · simp [suffix_cons_iff] at hd
    · exact hw.sent paths earlier hs path hpa

end

end

end Threads

theorem Draining.invariant {kept : Prop} (h : Draining kept world next fresh)
    (hw : Invariant world) : Invariant next := by
  have hk : ∀ note ∈ fresh, ¬ (note.isTook = true ∨ ∃ event, note = .sent event) := by
    rintro note hn (ht | ⟨event, rfl⟩)
    · have := h.kind note hn
      cases note with
      | took => cases this
      | _ => cases ht
    · cases h.kind _ hn
  have hold : ∀ {full path} {closes : Note Path → Prop},
      Ledger.Outstanding (fun note _ => note.Takes full path) closes next.notes →
        Ledger.Outstanding (fun note _ => note.Takes full path) closes world.notes := by
    intro full path closes hout
    rw [h.notes] at hout
    exact (hout.of_append fun note hn _ _ hta => hk note hn (.inl hta.isTook)).1
  refine ⟨h.shape hw.shape, fun full path hout => ?_, fun path hd => ?_, ?_, ?_⟩
  · rw [h.thread.1, h.front]
    exact hw.tracked full path (hold hout)
  · rw [h.front]
    exact hw.dirty path (hold hd)
  · intro paths hp path hpa
    rw [h.thread.1] at hp
    rw [h.notes]
    exact (hw.held paths hp path hpa).mono (suffix_append _ _)
  · intro paths earlier hs path hpa
    rw [h.notes] at hs
    rcases Ledger.cons_suffix_append hs with ⟨newer, older, hf, -⟩ | hs
    · exact absurd (.inr ⟨_, rfl⟩) (hk (.sent (.contentOnlyPaths paths)) (by simp [hf]))
    · exact hw.sent paths earlier hs path hpa

theorem invariant_run (matcher : Matcher Path) (steps : List (World.Step Path)) :
    Invariant ((World.start matcher).run steps) := by
  have hrun : ∀ world : World Path, Invariant world → Invariant (world.run steps) := by
    induction steps with
    | nil => exact fun world h => h
    | cons step steps ih =>
      intro world h
      refine ih _ ?_
      cases step with
      | thread step =>
        obtain ⟨handed, moved, fresh, hs⟩ := world.threads_threadStep step
        exact hs.invariant h
      | drain step =>
        obtain ⟨fresh, hs⟩ := draining_drainStep world step
        exact hs.invariant h
  refine hrun _ ⟨.of_quiet (by simp [World.start]), fun _ _ h => absurd h id,
    fun _ h => absurd h id, ?_, ?_⟩
  · simp [World.start]
  · simp [World.start]

/-! ## No change is lost -/

variable {note : Note Path}

omit [DecidableEq Path] in
theorem Note.Takes.not_settles (h : note.Takes full path) : ¬ note.Settles full path := by
  cases note with
  | took taken contentOnly => exact fun hs => hs.elim id nofun
  | _ => exact absurd h id

omit [DecidableEq Path] in
/-- A change that is not outstanding was released, unless the last flush of its path ignored it. -/
theorem exists_releases {later earlier : List (Note Path)} (ht : note.Takes full path)
    (hf : ∀ since before, later = since ++ .ignored path :: before →
      ∃ other ∈ since, other.Takes full path)
    (hout : ¬ Ledger.Outstanding (fun note _ => note.Takes full path) (Note.Settles full path)
      (later ++ note :: earlier)) : ∃ other ∈ later, other.Releases full path := by
  by_contra hn
  have hig : ∃ other ∈ later, other = .ignored path := by
    obtain ⟨other, ho, hr | heq⟩ :=
      Ledger.exists_closes hout ht ht.not_settles
    · exact absurd ⟨other, ho, hr⟩ hn
    · exact ⟨other, ho, heq⟩
  obtain ⟨_, hmem, rfl⟩ := hig
  obtain ⟨since, before, rfl, hfi⟩ := eq_append_cons_of_mem hmem
  obtain ⟨again, hag, ht⟩ := hf since before rfl
  obtain ⟨newer, older, rfl⟩ := append_of_mem hag
  -- Nothing after the newest intake closes it.
  have hout : ¬ Ledger.Outstanding (fun note _ => note.Takes full path) (Note.Settles full path)
      (newer ++ again :: (older ++ .ignored path :: before ++ note :: earlier)) := by
    simpa using hout
  obtain ⟨other, ho, hr | heq⟩ := Ledger.exists_closes hout ht ht.not_settles
  · exact hn ⟨other, by simp [ho], hr⟩
  · exact hfi (by simp [← heq, ho])

end Aft.Watch
