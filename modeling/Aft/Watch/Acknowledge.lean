import Aft.Watch.Draining

/-!
# Cookies do not overtake changes

The drain acknowledges a cookie after the changes that the watcher took in before it are recorded,
in runs that take in no paths while the drain waits for a rescan and collect no git HEAD metadata.
-/

namespace Aft.Watch

variable {Path : Type} {path : Path} {stamp : ℕ}

/-! ## Changes that are owed -/

/-- A change of the path was taken in before the stamp and neither recorded nor dropped since. -/
def Owed (path : Path) (stamp : ℕ) (notes : List (Note Path)) : Prop :=
  Ledger.Outstanding (fun note count => note.Takes false path ∧ count < stamp) (Note.Records path)
    notes

/-- What is owed after a step was owed before it, or the step took it in. -/
theorem Owed.of_append {fresh notes : List (Note Path)} (h : Owed path stamp (fresh ++ notes)) :
    Owed path stamp notes ∧ (∀ note ∈ fresh, ¬ note.Records path) ∨
      ∃ note ∈ fresh, note.Takes false path ∧ notes.length < stamp := by
  by_cases ht : ∃ note ∈ fresh, note.Takes false path ∧ notes.length < stamp
  · exact .inr ht
  · refine .inl (Ledger.Outstanding.of_append ?_ h)
    rintro note hn count hc ⟨hta, hs⟩
    exact ht ⟨note, hn, hta, by omega⟩

variable [DecidableEq Path] {world next : World Path} {fresh : List (Note Path)}
  {handed moved : List (WatcherDispatchEvent Path)}

/-- Every change that is owed is ahead of the cookies that were created after it. -/
structure Ordered (world : World Path) : Prop where
  rescan : world.drain.rescanRequired = true → ∀ path stamp, ¬ Owed path stamp world.notes
  stamps : ∀ cookie stamp, .cookieObserved cookie stamp ∈ world.line → stamp ≤ world.notes.length
  owed : ∀ path stamp, Owed path stamp world.notes →
    world.Settling path ∨ Covered false path world.line
  safe : ∀ path before cookie stamp after, ¬ world.Settling path →
    world.line = before ++ .cookieObserved cookie stamp :: after → Owed path stamp world.notes →
    Covered false path before
  acked : ∀ cookie stamp earlier, .acked cookie stamp :: earlier <:+ world.notes →
    ∀ path, ¬ Owed path stamp earlier

/-! ## Steps of the thread -/

theorem Threads.line (h : Threads world next handed moved fresh) :
    Refines (fun stamp => stamp = world.notes.length) (Lost fresh) world.line next.line := by
  unfold World.line
  rw [h.channel, List.append_assoc]
  refine (Refines.refl world.channel).append ?_
  have hb : Refines (fun stamp => stamp = world.notes.length) (Lost fresh)
      (world.backlog ++ handed ++ next.front) (moved ++ next.backlog ++ next.front) :=
    h.back.append (.refl next.front)
  rw [List.append_assoc, List.append_assoc] at hb
  exact ((Refines.refl world.backlog).append h.front).trans hb

theorem Threads.ordered (h : Threads world next handed moved fresh) (hw : Ordered world)
    (ht : ∀ paths kind rest, world.agenda = .take paths kind :: rest →
      world.drain.rescanRequired = false) : Ordered next := by
  have hs : ∀ cookie stamp, .cookieObserved cookie stamp ∈ next.line →
      stamp ≤ world.notes.length := by
    intro cookie stamp hmem
    obtain ⟨before, after, heq⟩ := List.append_of_mem hmem
    rcases h.line.cookie before cookie stamp after heq with ⟨ahead, behind, hl, -⟩ | ⟨rfl, -⟩
    · exact hw.stamps cookie stamp (by simp [hl])
    · exact le_rfl
  have hse : ∀ {path}, ¬ next.Settling path → ¬ world.Settling path := by
    rintro path hn (hp | hp)
    · exact hn (.inl (h.drain ▸ hp))
    · exact hn (.inr (h.gap (.inl hp)))
  have hlo : ∀ {path}, ¬ next.Settling path → (∀ note ∈ fresh, ¬ note.Records path) →
      ¬ Lost fresh false path := by
    rintro path hn hf (hmem | hmem)
    · exact hf _ hmem rfl
    · exact hn (.inr (h.gap (.inr hmem)))
  refine ⟨?_, ?_, ?_, ?_, ?_⟩
  · intro hr path stamp hn
    rw [h.drain] at hr
    rw [h.notes] at hn
    rcases hn.of_append with ⟨hold, -⟩ | ⟨note, hno, hta, -⟩
    · exact hw.rescan hr path stamp hold
    · obtain ⟨-, paths, kind, rest, hag⟩ := h.took _ path note hno hta
      have := ht paths kind rest hag
      rw [hr] at this
      cases this
  · intro cookie stamp hmem
    have := hs cookie stamp hmem
    rw [h.notes, List.length_append]
    omega
  · intro path stamp hn
    by_cases hp : next.Settling path
    · exact .inl hp
    · rw [h.notes] at hn
      rcases hn.of_append with ⟨hold, hf⟩ | ⟨note, hno, hta, -⟩
      · have hc := (hw.owed path stamp hold).resolve_left (hse hp)
        exact .inr ((h.line.carries _ _ hc).resolve_left (hlo hp hf))
      · have := (h.took _ path note hno hta).1
        exact .inr (by simp [World.line, this])
  · intro path before cookie stamp after hp heq hn
    have hst := hs cookie stamp (by simp [heq])
    rw [h.notes] at hn
    obtain ⟨hold, hf⟩ := hn.of_append.resolve_right fun ⟨_, _, _, hlt⟩ => by omega
    rcases h.line.cookie before cookie stamp after heq with ⟨ahead, behind, hl, hah⟩ | ⟨-, hall⟩
    · have hc := hw.safe path ahead cookie stamp behind (hse hp) hl hold
      exact (hah _ _ hc).resolve_left (hlo hp hf)
    · have hc := (hw.owed path stamp hold).resolve_left (hse hp)
      exact (hall _ _ hc).resolve_left (hlo hp hf)
  · intro cookie stamp earlier hsu
    rw [h.notes] at hsu
    rcases Ledger.cons_suffix_append hsu with ⟨newer, older, hf, -⟩ | hsu
    · cases h.kind (.acked cookie stamp) (by simp [hf])
    · exact hw.acked cookie stamp earlier hsu

/-! ## Steps of the drain -/

theorem Draining.ordered {kept : Prop} (h : Draining kept world next fresh) (hk : kept)
    (hw : Ordered world) : Ordered next := by
  have ht : ∀ {path}, ¬ ∃ note ∈ fresh, note.Takes false path := by
    rintro path ⟨note, hn, ht⟩
    have := h.kind note hn
    cases note with
    | took => cases this
    | _ => exact ht
  have ho : ∀ {path stamp}, Owed path stamp next.notes →
      Owed path stamp world.notes ∧ ∀ note ∈ fresh, ¬ note.Records path := by
    intro path stamp hne
    rw [h.notes] at hne
    exact hne.of_append.resolve_right fun ⟨note, hn, hne, _⟩ => ht ⟨note, hn, hne⟩
  have hs : ∀ {path stamp}, Owed path stamp next.notes → ¬ next.Settling path →
      ¬ world.Settling path := by
    intro path stamp hne hp hold
    rcases h.settling hk path hold with hold | ⟨note, hn, hr⟩
    · exact hp hold
    · exact (ho hne).2 note hn hr
  -- What the drain took from the line is with the drain now.
  have hl : ∃ taken, world.line = taken ++ next.line ∧ ∀ path stamp,
      Owed path stamp next.notes → ¬ next.Settling path → ¬ Covered false path taken := by
    unfold World.line
    rw [h.thread.1, h.front]
    rcases h.channel with heq | ⟨event, heq, hev⟩
    · exact ⟨[], by rw [heq]; rfl, fun _ _ _ _ => not_covered_nil⟩
    · refine ⟨[event], by rw [heq]; rfl, fun path stamp hne hp hc => ?_⟩
      have hco : event.Covers false path := by simpa using hc
      rcases hev path hco with hre | hp' | ⟨note, hn, hr⟩
      · exact hw.rescan hre path stamp (ho hne).1
      · exact hp hp'
      · exact (ho hne).2 note hn hr
  obtain ⟨taken, hl, hta⟩ := hl
  refine ⟨?_, ?_, ?_, ?_, ?_⟩
  · intro hre path stamp hne
    rcases h.rescan hre with hre | hmem
    · exact hw.rescan hre path stamp (ho hne).1
    · exact (ho hne).2 _ hmem trivial
  · intro cookie stamp hmem
    have := hw.stamps cookie stamp (by simp [hl, hmem])
    rw [h.notes, List.length_append]
    omega
  · intro path stamp hne
    by_cases hp : next.Settling path
    · exact .inl hp
    · have hold := (hw.owed path stamp (ho hne).1).resolve_left (hs hne hp)
      rw [hl, covered_append] at hold
      exact .inr (hold.resolve_left (hta path stamp hne hp))
  · intro path before cookie stamp after hp heq hne
    have hold := hw.safe path (taken ++ before) cookie stamp after (hs hne hp)
      (by simp [hl, heq]) (ho hne).1
    exact (covered_append.mp hold).resolve_left (hta path stamp hne hp)
  · intro cookie stamp earlier hsu path hea
    rw [h.notes] at hsu
    rcases Ledger.cons_suffix_append hsu with ⟨newer, older, hf, rfl⟩ | hsu
    · obtain ⟨hch, hr⟩ := h.acked cookie stamp newer older hf
      rcases hea.of_append with ⟨hold, holder⟩ | ⟨note, hn, hne, -⟩
      · by_cases hp : world.Settling path
        · obtain ⟨note, hn, hn'⟩ := hr path hp
          exact holder note hn hn'
        · have hh : world.line = [] ++ .cookieObserved cookie stamp ::
              (next.channel ++ (world.backlog ++ world.front)) := by
            rw [World.line, hch]
            rfl
          exact not_covered_nil (hw.safe path [] cookie stamp _ hp hh hold)
      · exact ht ⟨note, by simp [hf, hn], hne⟩
    · exact hw.acked cookie stamp earlier hsu path hea

/-! ## Runs -/

def World.orderlyRun (world : World Path) : List (World.Step Path) → Bool
  | [] => true
  | step :: steps => world.orderly step && (world.step step).orderlyRun steps

theorem Ordered.step (hw : Ordered world) (step : World.Step Path)
    (ho : world.orderly step = true) : Ordered (world.step step) := by
  cases step with
  | thread step =>
    obtain ⟨handed, moved, fresh, h⟩ := world.threads_threadStep step
    cases hag : world.agenda with
    | nil => exact h.ordered hw fun _ _ _ ht => by simp [hag] at ht
    | cons task rest =>
      cases step with
      | work room =>
        refine h.ordered hw fun paths kind tail ht => ?_
        simpa [World.orderly, ht] using ho
      | _ => simpa [World.step, World.threadStep, hag] using hw
  | drain step =>
    obtain ⟨fresh, h⟩ := draining_drainStep world step
    exact h.ordered ho hw

theorem Ordered.run (hw : Ordered world) (steps : List (World.Step Path))
    (ho : world.orderlyRun steps = true) : Ordered (world.run steps) := by
  induction steps generalizing world with
  | nil => exact hw
  | cons step steps ih =>
    rw [World.orderlyRun, Bool.and_eq_true] at ho
    exact ih (hw.step step ho.1) ho.2

theorem Ordered.start (matcher : Matcher Path) : Ordered (World.start matcher) where
  rescan := nofun
  stamps := by simp [World.line, World.start, World.front, World.windowEvents]
  owed := fun _ _ h => absurd h id
  safe := fun _ _ _ _ _ _ _ h => absurd h id
  acked := by simp [World.start]

/-- In every orderly run, when the drain acknowledges a cookie, each change taken in before the
cookie was created, and dropped by no matcher since, is recorded, or an overflow was recorded after
it. -/
theorem acked_after_changes (matcher : Matcher Path) (steps : List (World.Step Path))
    (horderly : (World.start matcher).orderlyRun steps = true) :
    ∀ cookie stamp later earlier,
      ((World.start matcher).run steps).notes = later ++ .acked cookie stamp :: earlier →
      ∀ path contentOnly since before, earlier = since ++ .took path contentOnly :: before →
        before.length < stamp → (∀ note ∈ since, note ≠ .ignored path ∧ note ≠ .dropped path) →
        .change path ∈ since ∨ .overflow ∈ since := by
  rintro cookie stamp later earlier hnotes path contentOnly since before rfl hstamp hdropped
  have hclean := ((Ordered.start matcher).run steps horderly).acked cookie stamp _
    ⟨later, hnotes.symm⟩ path
  obtain ⟨note, hnote, hrecords⟩ :=
    Ledger.exists_closes hclean ⟨⟨rfl, by simp⟩, hstamp⟩ id
  cases note with
  | change recorded =>
    obtain rfl := hrecords
    exact .inl hnote
  | overflow => exact .inr hnote
  | dropped other =>
    obtain rfl := hrecords
    exact absurd rfl (hdropped _ hnote).2
  | ignored other =>
    obtain rfl := hrecords
    exact absurd rfl (hdropped _ hnote).1
  | _ => exact absurd hrecords id

/-- A change, a cookie, and the drain that receives both. -/
def cookieSteps : List (World.Step ℕ) :=
  [.thread (.receive [0] false []), .thread (.work 1), .thread (.receive [] false [9]),
    .thread (.work 1), .thread (.work 1), .thread (.work 1), .drain (.receive none []),
    .drain (.receive none [])]

theorem acked_after_changes_cookieSteps :
    ((World.start Matcher.permissive).run cookieSteps).notes =
        [] ++ .acked 9 1 :: ([.change 0, .sent (.cookieObserved 9 1),
          .dispatched (.cookieObserved 9 1), .sent (.paths [0]), .dispatched (.paths [0])] ++
          .took 0 false :: []) ∧
      (Note.change 0 ∈ [.change 0, .sent (.cookieObserved 9 1),
          .dispatched (.cookieObserved 9 1), .sent (.paths [0]), .dispatched (.paths [0])] ∨
        Note.overflow ∈ [.change 0, .sent (.cookieObserved 9 1),
          .dispatched (.cookieObserved 9 1), .sent (.paths [0]), .dispatched (.paths [0])]) := by
  refine ⟨by decide +kernel, ?_⟩
  exact acked_after_changes Matcher.permissive cookieSteps (by decide +kernel) 9 1 [] _
    (by decide +kernel) 0 false _ [] rfl (by decide) (by decide)

/-- A change while the drain waits for a rescan is skipped, and the cookie after it is acknowledged
although the change is not recorded and the overflow is older. -/
theorem cookie_overtakes_change :
    ((World.start Matcher.permissive).run
      [.thread (.rescanNotice .userDropped), .thread (.work 1), .drain (.receive none []),
        .thread (.receive [0] false []), .thread (.work 1), .thread (.receive [] false [9]),
        .thread (.work 1), .thread (.work 1), .thread (.work 1), .drain (.receive none []),
        .drain (.receive none [])]).notes =
      [.acked 9 4, .sent (.cookieObserved 9 4), .dispatched (.cookieObserved 9 4),
        .sent (.paths [0]), .dispatched (.paths [0]), .took 0 false, .overflow,
        .sent (.rescanRequired .userDropped), .dispatched (.rescanRequired .userDropped)] := by
  decide +kernel

end Aft.Watch
