import Aft.Watch.Moves

/-!
# What the steps of the watcher do to the line

Every step of the thread hands at most one event over from the changes in hand to the backlog, and
moves the oldest events of the backlog into the channel. Both parts of the line are refined.
-/

namespace Aft.Watch

open List WatcherDispatchEvent World Refines

variable {Path : Type}

/-! ## Notes -/

variable {full : Bool} {path : Path}

namespace Note

def isTook : Note Path → Bool
  | .took _ _ => true
  | _ => false

def isDrain : Note Path → Bool
  | .change _ => true
  | .overflow => true
  | .dropped _ => true
  | .acked _ _ => true
  | _ => false

/-- The note takes in a change of the path. With `full`, content changes do not count. -/
def Takes (full : Bool) (path : Path) : Note Path → Prop
  | .took taken contentOnly => taken = path ∧ (full = true → contentOnly = false)
  | _ => False

theorem Takes.isTook {note : Note Path} (h : note.Takes full path) : note.isTook = true := by
  cases note with
  | took => rfl
  | _ => exact absurd h id

end Note

/-- The path was ignored, or a running rescan was told to run again. -/
def Lost (fresh : List (Note Path)) (_full : Bool) (path : Path) : Prop :=
  .ignored path ∈ fresh ∨ .marked ∈ fresh

/-! ## Tasks -/

/-- The task holds no change. -/
def Task.isQuiet : Task Path → Bool
  | .take _ _ => true
  | .flush => true
  | .dispatch event => event.isCookie
  | .awaitRules _ _ _ => false

def Task.holdsWindow : Task Path → Bool
  | .dispatch event => event.isPathBatch
  | .awaitRules _ _ _ => true
  | _ => false

/-- Only the first task holds changes, and while it holds the flushed window, the window is
empty. -/
def Shape (world : World Path) : Prop :=
  ∀ task rest, world.agenda = task :: rest → (∀ other ∈ rest, other.isQuiet = true) ∧
    (task.holdsWindow = true → world.rawPaths = [])

theorem Shape.of_quiet {world : World Path} (hq : ∀ task ∈ world.agenda, task.isQuiet = true) :
    Shape world := by
  intro task rest hag
  rw [hag] at hq
  refine ⟨fun other ho => hq other (by simp [ho]), fun hw => ?_⟩
  have := hq task (by simp)
  cases task with
  | dispatch event =>
    cases event with
    | cookieObserved cookie stamp => cases hw
    | _ => cases this
  | awaitRules observed raw contentOnly => cases this
  | _ => cases hw

variable {task : Task Path}

theorem Shape.of_cons {world : World Path} {rest : List (Task Path)}
    (hag : world.agenda = task :: rest) (hr : ∀ other ∈ rest, other.isQuiet = true)
    (hraw : task.holdsWindow = true → world.rawPaths = []) : Shape world := by
  intro head tail heq
  obtain ⟨rfl, rfl⟩ := cons.inj (hag.symm.trans heq)
  exact ⟨hr, hraw⟩

/-! ## Steps of the thread -/

variable [DecidableEq Path]

/-- A step of the thread: `handed` goes from the changes in hand to the backlog and `moved` from
there to the channel; `fresh` are its notes. -/
structure Threads (world next : World Path) (handed moved : List (WatcherDispatchEvent Path))
    (fresh : List (Note Path)) : Prop where
  notes : next.notes = fresh ++ world.notes
  channel : next.channel = world.channel ++ moved
  drain : next.drain = world.drain
  gap : world.gapPending = true ∨ .marked ∈ fresh → next.gapPending = true
  front : Refines (fun stamp => stamp = world.notes.length) (Lost fresh) world.front
    (handed ++ next.front)
  back : Refines (fun _ => False) (Lost fresh) (world.backlog ++ handed) (moved ++ next.backlog)
  content : ∀ paths, .contentOnlyPaths paths ∈ moved ++ next.backlog → ∀ path ∈ paths,
    ∃ others, path ∈ others ∧ .contentOnlyPaths others ∈ world.backlog ++ handed
  kind : ∀ note ∈ fresh, note.isDrain = false
  sent : ∀ event, .sent event ∈ fresh ↔ event ∈ moved
  dispatched : handed = [] ∨ ∃ event more, handed = [event] ∧ fresh = more ++ [.dispatched event]
  batch : ∀ event ∈ handed, event.isPathBatch = true → ∃ rest, world.agenda = .dispatch event :: rest
  took : ∀ full path note, note ∈ fresh → note.Takes full path → Covered full path next.front ∧
    ∃ paths contentOnly rest, world.agenda = .take paths contentOnly :: rest
  shape : Shape world → Shape next

variable {world next : World Path} {handed moved : List (WatcherDispatchEvent Path)}
  {fresh more : List (Note Path)} {event : WatcherDispatchEvent Path} {rest : List (Task Path)}
  {raw contentOnly raw' contentOnly' : List Path} {room : ℕ}

theorem Threads.of_quiet (hn : next.notes = fresh ++ world.notes)
    (hc : next.channel = world.channel) (hd : next.drain = world.drain)
    (hb : next.backlog = world.backlog)
    (hgap : world.gapPending = true ∨ .marked ∈ fresh → next.gapPending = true)
    (hf : Refines (fun stamp => stamp = world.notes.length) (Lost fresh) world.front next.front)
    (hk : ∀ note ∈ fresh, note.isDrain = false ∧ ∀ event, note ≠ .sent event)
    (ht : ∀ full path note, note ∈ fresh → note.Takes full path →
      Covered full path next.front ∧
        ∃ paths contentOnly rest, world.agenda = .take paths contentOnly :: rest)
    (hs : Shape world → Shape next) : Threads world next [] [] fresh := by
  refine ⟨hn, by rw [hc, append_nil], hd, hgap, hf, ?_, ?_,
    fun note hno => (hk note hno).1, fun event => ⟨fun h => ?_, by simp⟩, .inl rfl,
    by simp, ht, hs⟩
  · rw [hb, append_nil]
    exact .refl _
  · exact fun paths hp path hpa => ⟨paths, hpa, by simpa [hb] using hp⟩
  · exact absurd rfl ((hk _ h).2 event)

/-- What sending an event does; `more` are the notes after its dispatch. -/
structure Sends (event : WatcherDispatchEvent Path) (world next : World Path)
    (moved : List (WatcherDispatchEvent Path)) (more : List (Note Path)) : Prop where
  eq : ∃ rescan, next = { world with
    backlog := next.backlog
    channel := world.channel ++ moved
    rescan
    gapPending := next.gapPending
    notes := more ++ (.dispatched event :: world.notes) }
  gap : world.gapPending = true ∨ .marked ∈ more → next.gapPending = true
  back : Refines (fun _ => False) (fun _ _ => .marked ∈ more) (world.backlog ++ [event])
    (moved ++ next.backlog)
  content : World.ContentFrom world.backlog event (moved ++ next.backlog)
  kind : ∀ note ∈ more, note = .marked ∨ ∃ event ∈ moved, .sent event = note
  sent : ∀ event ∈ moved, .sent event ∈ more

theorem sends_sendDispatch (world : World Path) (room : ℕ) (event : WatcherDispatchEvent Path) :
    ∃ moved more, Sends event world (world.sendDispatch room event).2 moved more := by
  have hs := take_append_drop room world.backlog
  rcases world.sendDispatch_cases room event with ⟨hr, h⟩ | ⟨held, h, backlog, hc, hh⟩
  · rw [h]
    have hd : world.backlog.drop room = [] := drop_eq_nil_of_le hr.le
    have ht : world.backlog.take room = world.backlog := take_of_length_le hr.le
    refine ⟨world.backlog ++ [event], .sent event :: sentNotes world.backlog,
      ⟨world.rescan, ?_⟩, ?_, ?_, ?_, ?_, ?_⟩
    · simp [put, note, moved, ht]
    · simp [put, note, moved]
    · simpa [put, note, moved, hd] using refl _
    · intro paths hp path hpa
      refine ⟨paths, hpa, ?_⟩
      simpa [put, note, moved, hd, eq_comm] using hp
    · intro note hn
      exact .inr (by simpa [or_comm, eq_comm] using hn)
    · simp [or_comm]
  · rw [h]
    have hf : World.ContentFrom world.backlog event (world.backlog.take room ++ backlog) := by
      intro paths hp path hpa
      rcases mem_append.mp hp with hp | hp
      · exact ⟨paths, hpa, .inl (mem_of_mem_take hp)⟩
      · obtain ⟨others, ho, hf⟩ := hc paths hp path hpa
        exact ⟨others, ho, hf.imp_left fun h => mem_of_mem_drop h⟩
    rcases hh with ⟨rfl, hre⟩ | ⟨rfl, hco⟩
    · refine ⟨world.backlog.take room, sentNotes (world.backlog.take room), ⟨_, rfl⟩,
        fun h => h.elim id (by simp), ?_, hf, fun note h => .inr (by simpa using h), by simp⟩
      have := (refl (world.backlog.take room)).append hre
      simp only [moved, note, ← append_assoc] at this
      simpa using this
    · refine ⟨world.backlog.take room, .marked :: sentNotes (world.backlog.take room),
        ⟨_, rfl⟩, fun _ => rfl, ?_, hf, fun note h => by simpa using h, by simp⟩
      have : Refines (fun _ => False) (fun _ _ => True) (world.backlog.drop room ++ [event])
          backlog := .of_no_cookie (fun _ _ _ => .inl trivial) hco
      have := (refl (world.backlog.take room)).append this
      rw [← append_assoc] at this
      simpa using this

/-- A step that sends an event after the tasks and the window changed. -/
theorem Sends.threads (h : Sends event { world with
      agenda := rest, rawPaths := raw, contentOnlyPaths := contentOnly } next moved more)
    (tasks : List (Task Path))
    (hb : event.isPathBatch = true → ∃ rest, world.agenda = .dispatch event :: rest)
    (hf : Refines (fun stamp => stamp = world.notes.length) (fun _ _ => False) world.front
      (event :: { world with
        agenda := tasks ++ rest, rawPaths := raw, contentOnlyPaths := contentOnly }.front))
    (hs : Shape world → Shape { world with
      agenda := tasks ++ rest, rawPaths := raw, contentOnlyPaths := contentOnly }) :
    Threads world { next with agenda := tasks ++ next.agenda } [event] moved
      (more ++ [.dispatched event]) := by
  obtain ⟨rescan, heq⟩ := h.eq
  have hm : ∀ note ∈ more, note.isDrain = false ∧ note.isTook = false ∧
      ∀ event, note = .sent event → event ∈ moved := by
    intro note hn
    rcases h.kind note hn with rfl | ⟨other, ho, rfl⟩
    · exact ⟨rfl, rfl, fun _ => nofun⟩
    · exact ⟨rfl, rfl, fun _ h => by cases h; exact ho⟩
  have hl : ∀ full path, .marked ∈ more → Lost (more ++ [.dispatched event]) full path :=
    fun _ _ h => .inr (mem_append_left _ h)
  have hw : { next with agenda := tasks ++ next.agenda }.front = { world with
      agenda := tasks ++ rest, rawPaths := raw, contentOnlyPaths := contentOnly }.front := by
    rw [heq]
    rfl
  refine ⟨?_, ?_, ?_, ?_, ?_, ?_, ?_, ?_, ?_, .inr ⟨event, more, rfl, rfl⟩, by simpa using hb,
    ?_, ?_⟩
  · rw [heq]
    simp
  · rw [heq]
  · rw [heq]
  · intro hgap
    exact h.gap (hgap.imp_right fun hmem => by simpa using hmem)
  · rw [hw]
    exact hf.mono fun _ _ h => absurd h id
  · exact h.back.mono hl
  · intro paths hp path hpa
    obtain ⟨others, hot, hfr⟩ := h.content paths hp path hpa
    exact ⟨others, hot, by simpa [eq_comm] using hfr⟩
  · intro note hn
    rcases mem_append.mp hn with hn | hn
    · exact (hm note hn).1
    · rw [mem_singleton.mp hn]
      rfl
  · intro other
    refine ⟨fun ho => ?_, fun ho => mem_append_left _ (h.sent other ho)⟩
    have ho : .sent other ∈ more := by simpa using ho
    exact (hm _ ho).2.2 other rfl
  · intro full path note hn ht
    have := ht.isTook
    rcases mem_append.mp hn with hn | hn
    · rw [(hm note hn).2.1] at this
      cases this
    · rw [mem_singleton.mp hn] at this
      cases this
  · intro hwo
    have := hs hwo
    rw [heq]
    exact this

/-! ## Tasks -/

namespace World

theorem front_cons (hag : world.agenda = task :: rest) :
    world.front = carried (windowEvents world.rawPaths world.contentOnlyPaths) task ++
      { world with agenda := rest }.front := by
  simp [front, hag]

variable {isNew : ℕ → Prop} {lost : Bool → Path → Prop}

/-- A window that accounts for more may take the place of the window. -/
theorem refines_window (h : Carries lost (windowEvents world.rawPaths world.contentOnlyPaths)
      (windowEvents raw contentOnly)) :
    Refines isNew lost world.front
      { world with rawPaths := raw, contentOnlyPaths := contentOnly }.front := by
  unfold front
  induction world.agenda with
  | nil => exact .of_no_cookie h (isCookie_windowEvents raw contentOnly)
  | cons task rest ih =>
    simp only [flatMap_cons, append_assoc]
    refine append ?_ ih
    cases task with
    | flush => exact .of_no_cookie h (isCookie_windowEvents raw contentOnly)
    | _ => exact .refl _

/-- A flush empties the window for tasks that account for it. -/
theorem refines_flush {part : List (WatcherDispatchEvent Path)}
    (hag : world.agenda = .flush :: rest)
    (h : Carries lost (windowEvents world.rawPaths world.contentOnlyPaths) part)
    (hn : ∀ event ∈ part, event.isCookie = false) :
    Refines isNew lost world.front (part ++
      { world with agenda := rest, rawPaths := [], contentOnlyPaths := [] }.front) := by
  rw [front_cons hag]
  have hem : Refines isNew lost (windowEvents world.rawPaths world.contentOnlyPaths ++
      { world with agenda := rest }.front) (windowEvents world.rawPaths world.contentOnlyPaths ++
      { world with agenda := rest, rawPaths := [], contentOnlyPaths := [] }.front) :=
    .absorb (refines_window fun _ _ h => .inl (.inr h))
  exact hem.trans ((of_no_cookie h hn).append (.refl _))

variable {kind : Bool}

theorem covered_pushRawPath {taken : Path}
    (h : path ∈ world.rawPaths ∧ (full = true → path ∉ world.contentOnlyPaths) ∨
      path = taken ∧ (full = true → kind = false)) :
    path ∈ (world.pushRawPath kind taken).rawPaths ∧
      (full = true → path ∉ (world.pushRawPath kind taken).contentOnlyPaths) := by
  rcases h with ⟨hraw, hc⟩ | ⟨rfl, hk⟩
  · refine ⟨mem_insert_of_mem hraw, fun hf => ?_⟩
    have hout := hc hf
    by_cases hp : path = taken
    · subst hp
      simp [pushRawPath, note, hraw, hout]
    · simp only [pushRawPath, note]
      split_ifs <;> simp [hp, hout]
  · refine ⟨by simp [pushRawPath, note], fun hf => ?_⟩
    simp [pushRawPath, note, hk hf]

/-- The window keeps its paths and takes the new ones. -/
theorem foldl_pushRawPath_spec (kind : Bool) (paths : List Path) (world : World Path) :
    ∃ raw contentOnly, paths.foldl (pushRawPath kind) world = { world with
        rawPaths := raw
        contentOnlyPaths := contentOnly
        notes := (paths.map fun path => Note.took path kind).reverse ++ world.notes } ∧
      ∀ full path, path ∈ world.rawPaths ∧ (full = true → path ∉ world.contentOnlyPaths) ∨
          path ∈ paths ∧ (full = true → kind = false) →
        Covered full path (windowEvents raw contentOnly) := by
  induction paths generalizing world with
  | nil => exact ⟨_, _, rfl, fun full path h => by simpa using h⟩
  | cons taken paths ih =>
    obtain ⟨raw, contentOnly, heq, hc⟩ := ih (world.pushRawPath kind taken)
    refine ⟨raw, contentOnly, ?_, fun full path h => hc full path ?_⟩
    · rw [foldl_cons, heq]
      simp [pushRawPath, note]
    · rcases h with h | ⟨hmem, hk⟩
      · exact .inl (covered_pushRawPath (.inl h))
      · rcases mem_cons.mp hmem with rfl | hmem
        · exact .inl (covered_pushRawPath (.inr ⟨rfl, hk⟩))
        · exact .inr ⟨hmem, hk⟩

theorem threads_take {paths : List Path} (hag : world.agenda = .take paths kind :: rest) :
    ∃ fresh, Threads world ({ world with agenda := rest }.pushRawPathsWithKind paths kind) [] []
      fresh := by
  obtain ⟨raw, contentOnly, heq, hc⟩ :=
    foldl_pushRawPath_spec kind paths { world with agenda := rest }
  have hw : Refines (fun stamp => stamp = world.notes.length)
      (Lost (paths.map fun path => Note.took path kind).reverse) world.front
      { world with agenda := rest, rawPaths := raw, contentOnlyPaths := contentOnly }.front := by
    rw [front_cons hag]
    refine { world with agenda := rest }.refines_window fun full path h => .inr ?_
    exact hc full path (.inl (covered_windowEvents.mp h))
  have ht : ∀ full path note, note ∈ (paths.map fun path => Note.took path kind).reverse →
      note.Takes full path → Covered full path (windowEvents raw contentOnly) := by
    intro full path note hn hta
    obtain ⟨taken, htak, rfl⟩ := mem_map.mp (mem_reverse.mp hn)
    obtain ⟨rfl, hk⟩ := hta
    exact hc full taken (.inr ⟨htak, hk⟩)
  refine ⟨(paths.map fun path => Note.took path kind).reverse, ?_⟩
  unfold pushRawPathsWithKind
  rw [heq]
  dsimp only
  split_ifs
  · refine .of_quiet rfl rfl rfl rfl (by simp) ?_ (by simp [Note.isDrain]) ?_ ?_
    · rw [← nil_append world.front]
      exact (of_no_cookie (fun _ _ h => absurd h not_covered_nil)
        (isCookie_windowEvents raw contentOnly)).append hw
    · intro full path note hn hta
      refine ⟨?_, _, _, _, hag⟩
      simp [front, ht full path note hn hta]
    · exact fun h => .of_cons rfl (h _ _ hag).1 nofun
  · refine .of_quiet rfl rfl rfl rfl (by simp) hw (by simp [Note.isDrain]) ?_ ?_
    · intro full path note hn hta
      refine ⟨?_, _, _, _, hag⟩
      simp [front, ht full path note hn hta]
    · exact fun h => .of_quiet (h _ _ hag).1

/-- Every path of a flushed window is dispatched or ignored. -/
theorem finishFlush_spec (world : World Path) (raw contentOnly : List Path) :
    ∃ tasks fresh part, world.finishFlush raw contentOnly = { world with
        notes := fresh ++ world.notes
        agenda := tasks ++ world.agenda } ∧
      (∃ paths : List Path, fresh = paths.map Note.ignored) ∧ (tasks = [] ∨ ∃ task, tasks = [task]) ∧
      (∀ window, tasks.flatMap (carried window) = part) ∧
      Carries (Lost fresh) (windowEvents raw contentOnly) part ∧
      ∀ event ∈ part, event.isCookie = false := by
  unfold finishFlush
  set changed := raw.filter fun path => !world.matcher.ignores path with hc
  have hca : ∀ path ∈ raw, path ∈ changed ∨
      .ignored path ∈ (raw.filter world.matcher.ignores).map Note.ignored := by
    intro path hp
    cases hig : world.matcher.ignores path with
    | true => exact .inr (mem_map_of_mem (by simp [hp, hig]))
    | false => exact .inl (by simp [hc, hp, hig])
  dsimp only
  split_ifs with hem
  · refine ⟨[], _, [], rfl, ⟨_, rfl⟩, .inl rfl, fun _ => rfl, fun full path hp => ?_, by simp⟩
    have hraw := (covered_windowEvents.mp hp).1
    exact .inl (.inl ((hca path hraw).resolve_left (by simp [hem])))
  · refine ⟨[_], _, [_], rfl, ⟨_, rfl⟩, .inr ⟨_, rfl⟩, fun _ => rfl, fun full path hp => ?_, ?_⟩
    · obtain ⟨hraw, hk⟩ := covered_windowEvents.mp hp
      rcases hca path hraw with hmem | hmem
      · refine .inr ⟨_, mem_singleton_self _, ?_⟩
        refine covers_ofPaths.mpr ⟨hmem, fun hf => ?_⟩
        rw [all_eq_false]
        exact ⟨path, hmem, by simpa using hk hf⟩
      · exact .inl (.inl hmem)
    · intro event hev
      rw [mem_singleton.mp hev]
      unfold ofPaths
      split_ifs <;> rfl

/-- The paths of a window leave it for a dispatch, behind which the front is `start`'s. -/
theorem threads_finishFlush {start : World Path} (hn : start.notes = world.notes)
    (hc : start.channel = world.channel) (hd : start.drain = world.drain)
    (hb : start.backlog = world.backlog) (hgap : start.gapPending = world.gapPending)
    (hf : ∀ lost part, Carries lost (windowEvents raw contentOnly) part →
      (∀ event ∈ part, event.isCookie = false) →
      Refines (fun stamp => stamp = world.notes.length) lost world.front (part ++ start.front))
    (hs : Shape world → start.rawPaths = [] ∧ ∀ task ∈ start.agenda, task.isQuiet = true) :
    ∃ fresh, Threads world (start.finishFlush raw contentOnly) [] [] fresh := by
  obtain ⟨tasks, fresh, part, heq, ⟨paths, rfl⟩, ht, hp, hca, hno⟩ :=
    start.finishFlush_spec raw contentOnly
  rw [heq]
  refine ⟨_, .of_quiet (congrArg _ hn) hc hd hb ?_ ?_ (by simp [Note.isDrain])
    (by simp [Note.Takes]) fun hw => ?_⟩
  · rw [← hgap]
    simp
  · have := hf _ part hca hno
    rw [← hp (windowEvents start.rawPaths start.contentOnlyPaths)] at this
    simpa [front] using this
  · rcases ht with rfl | ⟨task, rfl⟩
    · exact .of_quiet (hs hw).2
    · exact .of_cons rfl (hs hw).2 fun _ => (hs hw).1

theorem threads_flush (room : ℕ) (hag : world.agenda = .flush :: rest) :
    ∃ handed moved fresh, Threads world ({ world with agenda := rest }.flushRawPaths room) handed
      moved fresh := by
  unfold flushRawPaths
  dsimp only
  split_ifs with hraw hr
  · refine ⟨[], [], [], .of_quiet rfl rfl rfl rfl (by simp) ?_ (by simp) (by simp) ?_⟩
    · rw [front_cons hag, ← nil_append (front { world with agenda := rest })]
      refine (of_no_cookie (fun full path h => ?_) (by simp)).append (.refl _)
      rw [hraw] at h
      simp [carried] at h
    · exact fun h => .of_quiet (h _ _ hag).1
  · exact ⟨_, _, threads_finishFlush rfl rfl rfl rfl rfl (fun lost part => refines_flush hag)
      fun h => ⟨rfl, (h _ _ hag).1⟩⟩
  · set rules := world.rawPaths.filter world.matcher.isRuleChange
    obtain ⟨moved, more, hs⟩ := sends_sendDispatch { world with
      agenda := rest, rawPaths := [], contentOnlyPaths := [] } room (.ignoreRulesChanged rules)
    split
    · rename_i held hh
      rw [hh] at hs
      refine ⟨_, _, _, hs.threads [.dispatch (.rescanRequired .unknown)] nofun
        (refines_flush hag (?_ : Carries _ _ [.ignoreRulesChanged rules,
          .rescanRequired .unknown]) ?_)
        fun h => .of_cons rfl (h _ _ hag).1 nofun⟩
      · exact fun _ _ _ => .inr ⟨.rescanRequired .unknown, by simp, trivial⟩
      · simp [isCookie]
    · rename_i sent hse
      rw [hse] at hs
      refine ⟨_, _, _, hs.threads [.awaitRules _ _ _] nofun
        (refines_flush hag (?_ : Carries _ _ (.ignoreRulesChanged rules ::
          windowEvents world.rawPaths world.contentOnlyPaths)) ?_)
        fun h => .of_cons rfl (h _ _ hag).1 fun _ => rfl⟩
      · exact fun _ _ h => .inr (covered_cons.mpr (.inr h))
      · rintro other (_ | ⟨_, ho⟩)
        · rfl
        · exact isCookie_windowEvents _ _ other ho

theorem threads_afterRules {observed : ℕ}
    (hag : world.agenda = .awaitRules observed raw contentOnly :: rest) :
    ∃ fresh, Threads world ({ world with agenda := rest }.afterRules observed raw contentOnly) [] []
      fresh := by
  unfold afterRules
  split_ifs
  · refine ⟨[], .of_quiet rfl rfl rfl rfl (by simp) ?_ (by simp) (by simp) ?_⟩
    · rw [front_cons hag]
      have hr : Refines (fun _ => False) (Lost []) (windowEvents raw contentOnly)
          [.rescanRequired .unknown] := by
        refine .of_no_cookie ?_ (by simp [isCookie])
        exact fun _ _ _ => .inr ⟨_, mem_singleton_self _, trivial⟩
      refine (hr.append (.refl _)).trans (.absorb ?_)
      exact refines_window fun _ _ _ => .inl (.inr ⟨_, mem_singleton_self _, trivial⟩)
    · exact fun h => .of_cons rfl (h _ _ hag).1 fun h => by cases h
  · refine threads_finishFlush rfl rfl rfl rfl rfl (fun lost part hc hn => ?_)
      fun h => ⟨(h _ _ hag).2 rfl, (h _ _ hag).1⟩
    rw [front_cons hag]
    exact (of_no_cookie hc hn).append (.refl _)

theorem threads_dispatch (room : ℕ) (hag : world.agenda = .dispatch event :: rest) :
    ∃ handed moved fresh, Threads world ({ world with agenda := rest }.sendDispatch room event).2
      handed moved fresh := by
  obtain ⟨moved, more, hs⟩ := sends_sendDispatch { world with agenda := rest } room event
  refine ⟨_, _, _, hs.threads [] (fun _ => ⟨rest, hag⟩) ?_ fun h => .of_quiet (h _ _ hag).1⟩
  rw [front_cons hag]
  exact .refl _

/-! ## Starts of iterations -/

/-- The cookies of an event are new, and each comes behind a flush. -/
theorem threads_receiveEvent (hag : world.agenda = []) (paths : List Path) (kind : Bool)
    (cookies : List Path) : Threads world (world.receiveEvent paths kind cookies) [] [] [] := by
  set window := windowEvents world.rawPaths world.contentOnlyPaths with hw
  have hn : (world.receiveEvent paths kind cookies).front = (cookies.flatMap fun cookie =>
      window ++ [.cookieObserved cookie world.notes.length]) ++ window := by
    simp only [front, receiveEvent]
    split_ifs <;> simp [flatMap_assoc, carried, hw]
  have hf : world.front = window := by simp [front, hag, hw]
  refine .of_quiet rfl rfl rfl rfl (fun h => h.elim id (by simp)) ?_ (by simp) (by simp)
    fun _ => .of_quiet ?_
  · rw [hn, hf]
    refine ⟨fun _ _ h => .inr (covered_append.mpr (.inr h)), fun before cookie stamp after heq => ?_⟩
    have hno : ∀ cookie stamp, .cookieObserved cookie stamp ∉ window := by
      intro cookie stamp hmem
      cases isCookie_windowEvents _ _ _ hmem
    have hmem : .cookieObserved cookie stamp ∈ (cookies.flatMap fun cookie =>
        window ++ [.cookieObserved cookie world.notes.length]) ++ window := by simp [heq]
    have hs : stamp = world.notes.length := by
      simp only [mem_append, mem_flatMap, mem_singleton] at hmem
      rcases hmem with ⟨_, -, hmem | hmem⟩ | hmem
      · exact absurd hmem (hno cookie stamp)
      · cases hmem
        rfl
      · exact absurd hmem (hno cookie stamp)
    refine .inr ⟨hs, fun full path hp => .inr ?_⟩
    cases cookies with
    | nil =>
      exact absurd hmem (hno cookie stamp)
    | cons first cookies =>
      simp only [flatMap_cons, append_assoc] at heq
      rcases append_eq_append_iff.mp heq with ⟨between, rfl, -⟩ | ⟨between, hb, haf⟩
      · exact covered_append.mpr (.inl hp)
      · cases between with
        | nil => simpa [hb] using hp
        | cons other between =>
          cases haf
          exact absurd (by simp [hb]) (hno cookie stamp)
  · intro task ht
    simp only [receiveEvent, mem_append, mem_flatMap, mem_cons, not_mem_nil, or_false] at ht
    rcases ht with ht | ⟨cookie, -, rfl | rfl⟩
    · split_ifs at ht
      · cases ht
      · rw [mem_singleton.mp ht]
        rfl
    · rfl
    · rfl

theorem threads_takeRescanNotice (hag : world.agenda = []) (reason : RescanReason) :
    ∃ fresh, Threads world (world.takeRescanNotice reason) [] [] fresh := by
  unfold takeRescanNotice
  rcases world.noteOverflow_cases with h | h
  · rw [h]
    refine ⟨[], .of_quiet rfl rfl rfl rfl (by simp) (.of_no_cookie ?_ ?_) (by simp) (by simp)
      fun _ => .of_cons rfl (by simp) nofun⟩
    · exact fun _ _ _ => .inr (covered_append.mpr (.inl ⟨_, mem_singleton_self _, trivial⟩))
    · simp [front, carried, windowEvents, isCookie]
  · rw [h]
    refine ⟨[.marked], .of_quiet rfl rfl rfl rfl (fun _ => rfl) (.of_no_cookie ?_ ?_)
      (by simp [Note.isDrain]) (by simp [Note.Takes]) fun _ => .of_quiet (by simp [hag])⟩
    · exact fun _ _ _ => .inl (.inr (mem_singleton_self _))
    · simp [front, hag, windowEvents, isCookie]

theorem threads_flushDue (hag : world.agenda = []) :
    Threads world { world with agenda := [.flush] } [] [] [] := by
  refine .of_quiet rfl rfl rfl rfl (by simp) (.of_no_cookie ?_ ?_) (by simp) (by simp)
    fun _ => .of_quiet (by simp [Task.isQuiet])
  · exact fun _ _ h => .inr (by simpa [front, hag, carried] using h)
  · simpa [front, carried] using isCookie_windowEvents world.rawPaths world.contentOnlyPaths

theorem threads_moved (world : World Path) (room : ℕ) :
    ∃ handed moved fresh, Threads world (world.moved room) handed moved fresh := by
  refine ⟨[], world.backlog.take room, sentNotes (world.backlog.take room), rfl, rfl, rfl,
    fun h => h.elim id (by simp), .refl _, ?_, ?_, ?_, by simp, .inl rfl, by simp, ?_, id⟩
  · simp only [moved, append_nil, take_append_drop]
    exact .refl _
  · intro paths hp path hpa
    exact ⟨paths, hpa, by simpa [moved] using hp⟩
  · intro note hn
    obtain ⟨_, -, rfl⟩ := mem_sentNotes.mp hn
    rfl
  · intro full path note hn ht
    obtain ⟨_, -, rfl⟩ := mem_sentNotes.mp hn
    exact absurd ht id

theorem threads_threadStep (world : World Path) (step : ThreadStep Path) :
    ∃ handed moved fresh, Threads world (world.threadStep step) handed moved fresh := by
  have hs : ∃ handed moved fresh, Threads world world handed moved fresh :=
    ⟨[], [], [], .of_quiet rfl rfl rfl rfl (by simp) (.refl _) (by simp) (by simp) id⟩
  cases hag : world.agenda with
  | nil =>
    cases step with
    | work room => simpa [threadStep, hag] using hs
    | receive paths kind cookies =>
      simpa [threadStep, hag] using ⟨_, _, _, threads_receiveEvent hag paths kind cookies⟩
    | rescanNotice reason =>
      simpa [threadStep, hag] using ⟨_, _, threads_takeRescanNotice hag reason⟩
    | flushDue => simpa [threadStep, hag] using ⟨_, _, _, threads_flushDue hag⟩
    | retry room => simpa [threadStep, hag, retryBacklog_eq] using world.threads_moved room
  | cons task rest =>
    cases step with
    | work room =>
      simp only [threadStep, hag]
      cases task with
      | take paths kind => exact ⟨_, _, threads_take hag⟩
      | flush => exact threads_flush room hag
      | awaitRules observed raw contentOnly => exact ⟨_, _, threads_afterRules hag⟩
      | dispatch event => exact threads_dispatch room hag
    | _ => simpa [threadStep, hag] using hs

end World

end Aft.Watch
