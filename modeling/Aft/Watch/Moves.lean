import Aft.Lib.Ledger
import Aft.Watch.World

/-!
# The line from the flush window to the drain

A change that was taken in waits in the window, then in the task at hand, in the backlog and in the
channel. These stand in one line, oldest first, with the cookies. A part of the line refines
another one when it accounts for the same changes and puts none of them behind a cookie.
-/

namespace Aft.Watch

open List WatcherDispatchEvent

variable {Path : Type} {full : Bool} {path : Path} {isNew : ℕ → Prop}
  {lost : Bool → Path → Prop}

/-! ## Lines -/

/-- The event accounts for a change of the path. With `full`, content-only batches do not count. -/
def WatcherDispatchEvent.Covers (full : Bool) (path : Path) : WatcherDispatchEvent Path → Prop
  | .paths changed => path ∈ changed
  | .contentOnlyPaths changed => full = false ∧ path ∈ changed
  | .rescanRequired _ => True
  | _ => False

def Covered (full : Bool) (path : Path) (line : List (WatcherDispatchEvent Path)) : Prop :=
  ∃ event ∈ line, event.Covers full path

/-- What one line accounts for is lost or accounted for by the other. -/
def Carries (lost : Bool → Path → Prop) (line next : List (WatcherDispatchEvent Path)) : Prop :=
  ∀ full path, Covered full path line → lost full path ∨ Covered full path next

/-- A cookie of the second line stands in the first, with no change more before it, or is new and
behind all of it. -/
structure Refines (isNew : ℕ → Prop) (lost : Bool → Path → Prop)
    (line next : List (WatcherDispatchEvent Path)) : Prop where
  carries : Carries lost line next
  cookie : ∀ before cookie stamp after, next = before ++ .cookieObserved cookie stamp :: after →
    (∃ ahead behind, line = ahead ++ .cookieObserved cookie stamp :: behind ∧
      Carries lost ahead before) ∨ isNew stamp ∧ Carries lost line before

variable {event : WatcherDispatchEvent Path}
  {part middle next more rest : List (WatcherDispatchEvent Path)}

theorem WatcherDispatchEvent.covers_ofPaths {contentOnly : Bool} {paths : List Path} :
    (ofPaths paths contentOnly).Covers full path ↔
      path ∈ paths ∧ (full = true → contentOnly = false) := by
  cases contentOnly <;> cases full <;> simp [ofPaths, WatcherDispatchEvent.Covers]

@[simp]
theorem covered_append : Covered full path (part ++ more) ↔
    Covered full path part ∨ Covered full path more := by
  simp only [Covered, mem_append, or_and_right, exists_or]

@[simp]
theorem covered_cons : Covered full path (event :: part) ↔
    event.Covers full path ∨ Covered full path part := by
  simp [Covered]

@[simp]
theorem not_covered_nil : ¬ Covered full path [] := by simp [Covered]

theorem WatcherDispatchEvent.kind_of_isRescan (h : event.isRescan = true) :
    event.isPathBatch = false ∧ event.isCookie = false := by
  cases event with
  | rescanRequired reason => exact ⟨rfl, rfl⟩
  | _ => cases h

theorem covered_of_rescan (h : part.any isRescan = true) : Covered full path part := by
  obtain ⟨found, hf, hr⟩ := any_eq_true.mp h
  cases found with
  | rescanRequired reason => exact ⟨_, hf, trivial⟩
  | _ => cases hr

theorem Carries.refl (part : List (WatcherDispatchEvent Path)) : Carries lost part part :=
  fun _ _ h => .inr h

theorem Carries.trans (h : Carries lost part middle) (h' : Carries lost middle next) :
    Carries lost part next :=
  fun full path hp => (h full path hp).elim .inl (h' full path)

theorem Carries.append (h : Carries lost part next) (h' : Carries lost more rest) :
    Carries lost (part ++ more) (next ++ rest) := by
  intro full path hc
  rw [covered_append] at hc ⊢
  rcases hc with hc | hc
  · exact (h full path hc).imp_right .inl
  · exact (h' full path hc).imp_right .inr

namespace Refines

theorem of_no_cookie (h : Carries lost part next)
    (hn : ∀ event ∈ next, event.isCookie = false) : Refines isNew lost part next := by
  refine ⟨h, fun before cookie stamp after heq => ?_⟩
  cases hn (.cookieObserved cookie stamp) (by simp [heq])

theorem refl (part : List (WatcherDispatchEvent Path)) : Refines isNew lost part part :=
  ⟨.refl part, fun before _ _ after h => .inl ⟨before, after, h, .refl before⟩⟩

theorem trans (h : Refines isNew lost part middle) (h' : Refines isNew lost middle next) :
    Refines isNew lost part next := by
  refine ⟨h.carries.trans h'.carries, fun before cookie stamp after heq => ?_⟩
  rcases h'.cookie before cookie stamp after heq with ⟨ahead, behind, hm, hah⟩ | ⟨hnew, hall⟩
  · rcases h.cookie ahead cookie stamp behind hm with ⟨first, last, hp, hf⟩ | ⟨hnew, hall⟩
    · exact .inl ⟨first, last, hp, hf.trans hah⟩
    · exact .inr ⟨hnew, hall.trans hah⟩
  · exact .inr ⟨hnew, h.carries.trans hall⟩

theorem mono {lost' : Bool → Path → Prop} (h : Refines isNew lost part next)
    (hl : ∀ full path, lost full path → lost' full path) : Refines isNew lost' part next := by
  have hc : ∀ {a b : List (WatcherDispatchEvent Path)}, Carries lost a b →
      Carries lost' a b := fun hab full path hp => (hab full path hp).imp_left (hl full path)
  refine ⟨hc h.carries, fun before cookie stamp after heq => ?_⟩
  rcases h.cookie before cookie stamp after heq with ⟨ahead, behind, hpa, hah⟩ | ⟨hnew, hall⟩
  · exact .inl ⟨ahead, behind, hpa, hc hah⟩
  · exact .inr ⟨hnew, hc hall⟩

/-- Two parts of a line are refined one by one; new cookies come in the second one. -/
theorem append (h : Refines (fun _ => False) lost part next) (h' : Refines isNew lost more rest) :
    Refines isNew lost (part ++ more) (next ++ rest) := by
  refine ⟨h.carries.append h'.carries, fun before cookie stamp after heq => ?_⟩
  have hs : ∀ between, before = next ++ between →
      rest = between ++ .cookieObserved cookie stamp :: after →
      (∃ ahead behind, part ++ more = ahead ++ .cookieObserved cookie stamp :: behind ∧
        Carries lost ahead before) ∨ isNew stamp ∧ Carries lost (part ++ more) before := by
    rintro between rfl hr
    rcases h'.cookie between cookie stamp after hr with ⟨ahead, behind, rfl, hah⟩ | ⟨hnew, hall⟩
    · exact .inl ⟨part ++ ahead, behind, by simp, h.carries.append hah⟩
    · exact .inr ⟨hnew, h.carries.append hall⟩
  rcases append_eq_append_iff.mp heq with ⟨between, hb, hr⟩ | ⟨between, hn, haf⟩
  · exact hs between hb hr
  · cases between with
    | nil => exact hs [] (by simpa using hn.symm) (by simpa using haf.symm)
    | cons other between =>
      cases haf
      obtain ⟨ahead, behind, rfl, hah⟩ | ⟨hnew, -⟩ := h.cookie before cookie stamp between hn
      · exact .inl ⟨ahead, behind ++ more, by simp, hah⟩
      · exact absurd hnew id

/-- What is accounted for before a part need not be accounted for in it. -/
theorem absorb (h : Refines isNew (fun full path => lost full path ∨ Covered full path more) part
    next) : Refines isNew lost (more ++ part) (more ++ next) := by
  have hc : ∀ {a b : List (WatcherDispatchEvent Path)},
      Carries (fun full path => lost full path ∨ Covered full path more) a b →
        Carries lost (more ++ a) (more ++ b) := by
    intro a b hab full path hp
    rw [covered_append] at hp ⊢
    rcases hp with hp | hp
    · exact .inr (.inl hp)
    · rcases hab full path hp with (hl | hm) | hb
      · exact .inl hl
      · exact .inr (.inl hm)
      · exact .inr (.inr hb)
  refine ⟨hc h.carries, fun before cookie stamp after heq => ?_⟩
  rcases append_eq_append_iff.mp heq with ⟨between, rfl, hr⟩ | ⟨between, hm, haf⟩
  · rcases h.cookie between cookie stamp after hr with ⟨ahead, behind, rfl, hah⟩ | ⟨hnew, hall⟩
    · exact .inl ⟨more ++ ahead, behind, by simp, hc hah⟩
    · exact .inr ⟨hnew, hc hall⟩
  · cases between with
    | nil =>
      obtain rfl : more = before := by simpa using hm
      rcases h.cookie [] cookie stamp after (by simpa using haf.symm) with
        ⟨ahead, behind, rfl, hah⟩ | ⟨hnew, hall⟩
      · exact .inl ⟨more ++ ahead, behind, by simp, by simpa using hc hah⟩
      · exact .inr ⟨hnew, by simpa using hc hall⟩
    | cons other between =>
      cases haf
      exact .inl ⟨before, between ++ part, by simp [hm], .refl before⟩

end Refines

namespace World

/-! ## Sending and holding -/

/-- The notes of events that were put into the channel one after another. -/
def sentNotes (events : List (WatcherDispatchEvent Path)) : List (Note Path) :=
  (events.map Note.sent).reverse

@[simp]
theorem mem_sentNotes {events : List (WatcherDispatchEvent Path)} {note : Note Path} :
    note ∈ sentNotes events ↔ ∃ event ∈ events, .sent event = note := by
  simp only [sentNotes, mem_reverse, mem_map]

/-- The first events of the backlog in the channel. -/
def moved (world : World Path) (room : ℕ) : World Path :=
  { world with
    backlog := world.backlog.drop room
    channel := world.channel ++ world.backlog.take room
    notes := sentNotes (world.backlog.take room) ++ world.notes }

theorem retryBacklog_eq (world : World Path) (room : ℕ) :
    world.retryBacklog room = (world.moved room, room - world.backlog.length) := by
  induction room generalizing world with
  | zero => simp [retryBacklog, moved, sentNotes]
  | succ room ih =>
    rw [retryBacklog.eq_def]
    cases hb : world.backlog with
    | nil =>
      cases world
      simp_all [moved, sentNotes]
    | cons event backlog => simp [hb, ih, moved, sentNotes, put, note]

theorem noteOverflow_cases (world : World Path) :
    world.noteOverflow = (false, world) ∨ world.noteOverflow = (true, { world with
      rescan := .rerun
      gapPending := true
      notes := .marked :: world.notes }) := by
  unfold noteOverflow
  cases world.rescan with
  | idle => exact .inl rfl
  | running | rerun => exact .inr rfl

theorem mem_withoutPaths {backlog : List (WatcherDispatchEvent Path)} :
    event ∈ withoutPaths backlog ↔
      event ∈ backlog ∧ event.isPathBatch = false ∧ event.isCookie = false := by
  simp [withoutPaths]

/-- A content-only batch of one backlog comes from content-only batches of another or an event. -/
def ContentFrom (backlog : List (WatcherDispatchEvent Path)) (event : WatcherDispatchEvent Path)
    (next : List (WatcherDispatchEvent Path)) : Prop :=
  ∀ paths, .contentOnlyPaths paths ∈ next → ∀ path ∈ paths, ∃ others, path ∈ others ∧
    (.contentOnlyPaths others ∈ backlog ∨ event = .contentOnlyPaths others)

/-- The backlog after an event was held refines the line, or a rescan told to run again makes up for
what is dropped. -/
def Held (world : World Path) (event : WatcherDispatchEvent Path) (held : World Path) : Prop :=
  ∃ backlog, ContentFrom world.backlog event backlog ∧
    (held = { world with backlog } ∧
        Refines (fun _ => False) (fun _ _ => False) (world.backlog ++ [event]) backlog ∨
      held = { world with
        backlog
        rescan := .rerun
        gapPending := true
        notes := .marked :: world.notes } ∧ ∀ other ∈ backlog, other.isCookie = false)

variable {world : World Path} {backlog : List (WatcherDispatchEvent Path)}

/-- A rescan takes the place of batches and cookies. -/
theorem held_of_rescan (hr : backlog.any isRescan = true)
    (hk : ∀ other ∈ backlog, other.isPathBatch = false ∧ other.isCookie = false) :
    world.Held event { world with backlog } := by
  refine ⟨backlog, fun paths hp => ?_, .inl ⟨rfl, .of_no_cookie ?_ fun other h => (hk other h).2⟩⟩
  · cases (hk _ hp).1
  · exact fun _ _ _ => .inr (covered_of_rescan hr)

/-- An event joins the end of the backlog. -/
theorem held_of_append (event : WatcherDispatchEvent Path) :
    world.Held event { world with backlog := world.backlog ++ [event] } := by
  refine ⟨_, fun paths hp path hpa => ⟨paths, hpa, ?_⟩, .inl ⟨rfl, .refl _⟩⟩
  simpa [eq_comm] using hp

theorem held_of_covered (hr : world.backlog.any isRescan = true) : world.Held event world := by
  refine ⟨_, fun paths hp _ hpa => ⟨paths, hpa, .inl hp⟩, .inl ⟨rfl, ?_, ?_⟩⟩
  · exact fun _ _ _ => .inr (covered_of_rescan hr)
  · rintro before cookie stamp after heq
    exact .inl ⟨before, after ++ [event], by simp [heq], .refl before⟩

theorem isPathBatch_isCookie_of_mem_withoutPaths (rescan : List (WatcherDispatchEvent Path))
    (hr : ∀ other ∈ rescan, other.isRescan = true) :
    ∀ other ∈ withoutPaths backlog ++ rescan,
      other.isPathBatch = false ∧ other.isCookie = false := by
  intro other ho
  rcases mem_append.mp ho with ho | ho
  · exact (mem_withoutPaths.mp ho).2
  · exact kind_of_isRescan (hr other ho)

variable [DecidableEq Path]

/-- Joining a batch replaces a last batch by one that accounts for both. -/
theorem joinPaths_eq (backlog : List (WatcherDispatchEvent Path)) (paths : List Path)
    (contentOnly : Bool) : ∃ kept last batch, backlog = kept ++ last ∧
      joinPaths backlog paths contentOnly = kept ++ [batch] ∧ batch.isCookie = false ∧
      (∀ full path, Covered full path last ∨ (ofPaths paths contentOnly).Covers full path →
          batch.Covers full path) ∧
      ∀ merged, batch = .contentOnlyPaths merged → ∀ path ∈ merged,
        (∃ others, .contentOnlyPaths others ∈ last ∧ path ∈ others) ∨
          contentOnly = true ∧ path ∈ paths := by
  have hof : ∀ {changed : List Path},
      (ofPaths changed contentOnly).isCookie = false ∧
        ∀ merged, ofPaths changed contentOnly = .contentOnlyPaths merged →
          contentOnly = true ∧ merged = changed := by
    cases contentOnly <;> simp [ofPaths, isCookie]
  have hnew : ∀ merged, ofPaths paths contentOnly = .contentOnlyPaths merged →
      ∀ path ∈ merged, contentOnly = true ∧ path ∈ paths := by
    intro merged heq path hpa
    obtain ⟨hk, rfl⟩ := hof.2 merged heq
    exact ⟨hk, hpa⟩
  rcases eq_nil_or_concat backlog with rfl | ⟨kept, last, rfl⟩
  · exact ⟨[], [], _, rfl, rfl, hof.1, by simp, fun m h p hp => .inr (hnew m h p hp)⟩
  · rw [concat_eq_append]
    unfold joinPaths
    cases last with
    | paths held =>
      refine ⟨kept, [_], .paths (mergePaths held paths), rfl, by simp, rfl, ?_, by simp⟩
      simp only [covered_cons, not_covered_nil, or_false, covers_ofPaths]
      rintro full path (h | h)
      · exact mem_dedup.mpr (mem_append_left _ h)
      · exact mem_dedup.mpr (mem_append_right _ h.1)
    | contentOnlyPaths held =>
      refine ⟨kept, [_], .ofPaths (mergePaths held paths) contentOnly, rfl, by simp, hof.1, ?_, ?_⟩
      · simp only [covered_cons, not_covered_nil, or_false, covers_ofPaths]
        rintro full path (h | h)
        · exact ⟨mem_dedup.mpr (mem_append_left _ h.2), by simp [h.1]⟩
        · exact ⟨mem_dedup.mpr (mem_append_right _ h.1), h.2⟩
      · intro merged heq path hpa
        obtain ⟨hk, rfl⟩ := hof.2 merged heq
        rcases mem_append.mp (mem_dedup.mp hpa) with hpa | hpa
        · exact .inl ⟨held, by simp, hpa⟩
        · exact .inr ⟨hk, hpa⟩
    | _ =>
      refine ⟨kept ++ [_], [], .ofPaths paths contentOnly, (append_nil _).symm, by simp,
        hof.1, by simp, fun m h p hp => .inr (hnew m h p hp)⟩

theorem held_holdPaths (world : World Path) (paths : List Path) (contentOnly : Bool) :
    world.Held (.ofPaths paths contentOnly) (world.holdPaths paths contentOnly) := by
  obtain ⟨kept, last, batch, hb, hj, hc, hco, hcon⟩ :=
    joinPaths_eq world.backlog paths contentOnly
  unfold holdPaths
  dsimp only
  split_ifs
  · refine ⟨_, fun merged hm path hp => ?_, .inl ⟨rfl, ?_⟩⟩
    · rw [hj] at hm
      rcases mem_append.mp hm with hm | hm
      · exact ⟨merged, hp, .inl (by simp [hb, hm])⟩
      · rcases hcon merged (mem_singleton.mp hm).symm path hp with
          ⟨others, ho, hp⟩ | ⟨rfl, hp⟩
        · exact ⟨others, hp, .inl (by simp [hb, ho])⟩
        · exact ⟨paths, hp, .inr rfl⟩
    · rw [hj, hb, append_assoc]
      refine (Refines.refl kept).append (.of_no_cookie ?_ (by simpa using hc))
      exact fun full path hp => .inr (by simpa using hco full path (by simpa using hp))
  · rcases noteOverflow_cases { world with
        backlog := joinPaths world.backlog paths contentOnly } with h | h
    · rw [h]
      exact held_of_rescan (by simp [isRescan])
        (isPathBatch_isCookie_of_mem_withoutPaths _ (by simp [isRescan]))
    · rw [h]
      refine ⟨_, fun merged hm => ?_, .inr ⟨rfl, fun other h => (mem_withoutPaths.mp h).2.2⟩⟩
      cases (mem_withoutPaths.mp hm).2.1

theorem held_holdEvent (world : World Path) (event : WatcherDispatchEvent Path) :
    world.Held event (world.holdEvent event) := by
  unfold holdEvent
  cases event with
  | paths paths =>
    dsimp only
    split_ifs with hr
    · exact held_of_covered hr
    · exact world.held_holdPaths paths false
  | contentOnlyPaths paths =>
    dsimp only
    split_ifs with hr
    · exact held_of_covered hr
    · exact world.held_holdPaths paths true
  | cookieObserved cookie stamp =>
    dsimp only
    split_ifs with hr
    · exact held_of_covered hr
    · exact held_of_append _
  | rescanRequired reason =>
    dsimp only
    split_ifs with hr
    · refine held_of_rescan ?_ (by simpa using isPathBatch_isCookie_of_mem_withoutPaths [] (by simp))
      obtain ⟨found, hf, hk⟩ := any_eq_true.mp hr
      exact any_eq_true.mpr ⟨found, mem_withoutPaths.mpr ⟨hf, kind_of_isRescan hk⟩, hk⟩
    · exact held_of_rescan (by simp [isRescan])
        (isPathBatch_isCookie_of_mem_withoutPaths _ (by simp [isRescan]))
  | ignoreRulesChanged paths =>
    dsimp only
    split
    · rename_i before hl
      obtain ⟨kept, hke⟩ := getLast?_eq_some_iff.mp hl
      rw [hke, dropLast_concat]
      refine ⟨_, fun changed hc path hp => ⟨changed, hp, .inl ?_⟩, .inl ⟨rfl, ?_⟩⟩
      · rw [hke]
        simpa using hc
      · rw [hke, append_assoc]
        refine (Refines.refl kept).append (.of_no_cookie ?_ (by simp [isCookie]))
        exact fun full path hp => absurd hp (by simp [WatcherDispatchEvent.Covers])
    · exact held_of_append _

/-- A dispatched event goes to the end of the channel, or is held behind the line. -/
theorem sendDispatch_cases (world : World Path) (room : ℕ) (event : WatcherDispatchEvent Path) :
    (world.backlog.length < room ∧ world.sendDispatch room event =
      (.sent, ((world.note (.dispatched event)).moved room).put event)) ∨
    ∃ held, world.sendDispatch room event = (.held, held) ∧
      ((world.note (.dispatched event)).moved room).Held event held := by
  unfold sendDispatch
  rw [retryBacklog_eq]
  cases hr : room - (world.note (.dispatched event)).backlog.length with
  | zero => exact .inr ⟨_, rfl, held_holdEvent _ event⟩
  | succ left =>
    refine .inl ⟨?_, rfl⟩
    have : (world.note (.dispatched event)).backlog.length = world.backlog.length := rfl
    omega

/-! ## Places in the line -/

/-- A window as two batches: every path, and the paths with more than a content change. -/
def windowEvents (raw contentOnly : List Path) : List (WatcherDispatchEvent Path) :=
  [.contentOnlyPaths raw, .paths (raw.filter fun path => path ∉ contentOnly)]

/-- What a task brings to the line. A flush brings the window. -/
def carried (window : List (WatcherDispatchEvent Path)) :
    Task Path → List (WatcherDispatchEvent Path)
  | .take _ _ => []
  | .flush => window
  | .awaitRules _ raw contentOnly => windowEvents raw contentOnly
  | .dispatch event => [event]

/-- The changes that the thread has in hand: in its tasks and in the window behind them. -/
def front (world : World Path) : List (WatcherDispatchEvent Path) :=
  world.agenda.flatMap (carried (windowEvents world.rawPaths world.contentOnlyPaths)) ++
    windowEvents world.rawPaths world.contentOnlyPaths

def line (world : World Path) : List (WatcherDispatchEvent Path) :=
  world.channel ++ (world.backlog ++ world.front)

@[simp]
theorem covered_windowEvents {raw contentOnly : List Path} :
    Covered full path (windowEvents raw contentOnly) ↔
      path ∈ raw ∧ (full = true → path ∉ contentOnly) := by
  cases full <;> simp [windowEvents, WatcherDispatchEvent.Covers]
  exact fun h _ => h

theorem isCookie_windowEvents (raw contentOnly : List Path) :
    ∀ event ∈ windowEvents raw contentOnly, event.isCookie = false := by
  simp [windowEvents, isCookie]

end World

end Aft.Watch
