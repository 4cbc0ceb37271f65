import Aft.Hashline.Syntax

/-!
# Clipboard registers

The session's bounded registers. A request works on a fork (`RegisterStore.stage`); a capture that
would break a bound rejects the patch, and only `RegisterStore.commit` publishes the fork. A store
and every fork of it stay within the bounds (`run_bounded`).
-/

namespace Aft.Hashline

def maxNamedRegisters : ℕ := 64
def maxRegisterBytes : ℕ := 8 * 1024 * 1024
def maxRegisterTotalBytes : ℕ := 32 * 1024 * 1024

abbrev RegisterLines := List String

/-- The bytes of a capture: its lines joined by one byte each. -/
def registerPayloadBytes (lines : RegisterLines) : ℕ :=
  if lines.isEmpty then 0 else (lines.map String.utf8ByteSize).sum + (lines.length - 1)

structure RegisterStore where
  named : SortedMap String RegisterLines
  anonymous : Option RegisterLines
deriving DecidableEq

/-- One capture of a request. -/
structure RegisterWrite where
  register : RegisterRef
  lines : RegisterLines
deriving DecidableEq

/-- A request's fork of the registers. -/
structure StagedRegisters where
  base : RegisterStore
  working : RegisterStore
  writes : List RegisterWrite
deriving DecidableEq

namespace RegisterStore

def new : RegisterStore := ⟨.empty, none⟩

def get (store : RegisterStore) : RegisterRef → Option RegisterLines
  | .anonymous => store.anonymous
  | .named name => store.named.find? name

def totalBytes (store : RegisterStore) : ℕ :=
  store.named.sumValues registerPayloadBytes + (store.anonymous.map registerPayloadBytes).getD 0

def stage (store : RegisterStore) : StagedRegisters := ⟨store, store, []⟩

def commit (_store : RegisterStore) (staged : StagedRegisters) : RegisterStore := staged.working

def clear (_store : RegisterStore) : RegisterStore := .new

end RegisterStore

def registerOverflow (message : String) : HashlineRejection :=
  .new .registerOverflow .register message

def namedRegisterOverflow : HashlineRejection :=
  registerOverflow "named register count would exceed MAX_NAMED_REGISTERS"

/-- Whether a capture would add a named register beyond the limit. -/
def RegisterStore.namedFull (store : RegisterStore) : RegisterRef → Bool
  | .anonymous => false
  | .named name => (store.named.find? name).isNone && decide (maxNamedRegisters ≤ store.named.size)

def checkRegisterBounds (store : RegisterStore) (register : RegisterRef) (lines : RegisterLines) :
    Except HashlineRejection Unit :=
  let incoming := registerPayloadBytes lines
  if incoming > maxRegisterBytes then
    .error (registerOverflow "a single register capture exceeds MAX_REGISTER_BYTES")
  else
    let previous := ((store.get register).map registerPayloadBytes).getD 0
    let total := store.totalBytes - previous + incoming
    if total > maxRegisterTotalBytes then
      .error (registerOverflow "register captures would exceed MAX_REGISTER_TOTAL_BYTES")
    else if store.namedFull register then .error namedRegisterOverflow
    else .ok ()

namespace StagedRegisters

section

variable (staged : StagedRegisters) (register : RegisterRef)

def get : Option RegisterLines :=
  staged.working.get register

/-- Capture lines into a register, if the working set stays within its bounds. -/
def capture (lines : RegisterLines) : Except HashlineRejection StagedRegisters := do
  checkRegisterBounds staged.working register lines
  let working ← match register with
    | .anonymous => pure { staged.working with anonymous := some lines }
    | .named name =>
      if staged.working.namedFull register then throw namedRegisterOverflow
      else pure { staged.working with named := staged.working.named.insert name lines }
  return { staged with working := working, writes := staged.writes ++ [⟨register, lines⟩] }

def readForPut (targetIsSpan : Bool) : Except HashlineRejection RegisterLines :=
  match staged.get register with
  | some lines =>
    if !lines.isEmpty || !targetIsSpan then .ok lines
    else .error (.new .parseError .register
      "register paste over a span requires a non-empty capture")
  | none =>
    if register ≠ .anonymous ∧ targetIsSpan = false then .ok []
    else .error (.new .parseError .register "register is empty or unknown for this PUT")

end

end StagedRegisters

open SortedMap

def RegisterStore.set (store : RegisterStore) (lines : RegisterLines) : RegisterRef → RegisterStore
  | .anonymous => { store with anonymous := some lines }
  | .named name => { store with named := store.named.insert name lines }

section

variable (registers : StagedRegisters) (register : RegisterRef) (lines : RegisterLines)

/-- The fork after a capture. -/
def StagedRegisters.captured : StagedRegisters :=
  { registers with
    working := registers.working.set lines register
    writes := registers.writes ++ [⟨register, lines⟩] }

theorem capture_eq :
    registers.capture register lines = checkRegisterBounds registers.working register lines >>=
      fun _ => if registers.working.namedFull register then .error namedRegisterOverflow
        else .ok (registers.captured register lines) := by
  unfold StagedRegisters.capture
  cases register with
  | anonymous => rfl
  | named name =>
    by_cases hf : registers.working.namedFull (.named name) = true
    · simp only [hf]
      rfl
    · simp only [hf]
      rfl

end

/-! ## One capture -/

structure RegisterStore.Bounded (store : RegisterStore) : Prop where
  named : store.named.size ≤ maxNamedRegisters
  each : ∀ register, ∀ lines ∈ store.get register, registerPayloadBytes lines ≤ maxRegisterBytes
  total : store.totalBytes ≤ maxRegisterTotalBytes

variable {store : RegisterStore} {register : RegisterRef} {lines : RegisterLines}

/-- The bytes that a capture replaces. -/
def RegisterStore.previousBytes (store : RegisterStore) (register : RegisterRef) : ℕ :=
  ((store.get register).map registerPayloadBytes).getD 0

/-- The total is that of the other registers and the replaced bytes, or the new ones. -/
theorem exists_otherBytes (store : RegisterStore) (register : RegisterRef) :
    ∃ others, store.totalBytes = others + store.previousBytes register ∧
      ∀ lines, (store.set lines register).totalBytes = others + registerPayloadBytes lines := by
  cases register with
  | anonymous => exact ⟨store.named.sumValues registerPayloadBytes, rfl, fun _ => rfl⟩
  | named name =>
    refine ⟨(store.named.erase name).sumValues registerPayloadBytes +
      (store.anonymous.map registerPayloadBytes).getD 0, ?_, fun lines => ?_⟩
    · simp only [RegisterStore.totalBytes, RegisterStore.previousBytes, RegisterStore.get]
      cases hf : store.named.find? name with
      | none => rw [erase_eq_self hf, Option.map_none, Option.getD_none, Nat.add_zero]
      | some held =>
        rw [sumValues_of_find? registerPayloadBytes hf, Option.map_some, Option.getD_some]
        omega
    · simp only [RegisterStore.totalBytes, RegisterStore.set, sumValues_insert]
      omega

theorem mem_get_set {other : RegisterRef} {held : RegisterLines}
    (h : held ∈ (store.set lines register).get other) : held = lines ∨ held ∈ store.get other := by
  cases register <;> cases other
  case anonymous.anonymous => exact .inl (Option.some.inj h).symm
  case named.named name other =>
    by_cases hn : other = name
    · subst hn
      exact .inl (Option.mem_unique (find?_insert_self _ _ _) h).symm
    · exact .inr ((find?_insert_of_ne _ _ hn).symm.trans h)
  all_goals exact .inr h

theorem size_set_le (h : store.named.size ≤ maxNamedRegisters) (hf : ¬ store.namedFull register) :
    (store.set lines register).named.size ≤ maxNamedRegisters := by
  cases register with
  | anonymous => exact h
  | named name =>
    simp only [RegisterStore.set]
    cases hn : store.named.find? name with
    | none =>
      simp [RegisterStore.namedFull, hn] at hf
      rwa [size_insert_of_none _ hn]
    | some held => rwa [size_insert_of_some _ hn]

theorem RegisterStore.Bounded.set (h : store.Bounded)
    (hc : checkRegisterBounds store register lines = .ok ()) :
    (store.set lines register).Bounded := by
  obtain ⟨others, ht, hs⟩ := exists_otherBytes store register
  unfold checkRegisterBounds at hc
  simp only at hc
  split_ifs at hc with hone hall hfull
  refine ⟨size_set_le h.named hfull, fun other held hm => ?_, ?_⟩
  · rcases mem_get_set hm with rfl | hm
    · exact not_lt.1 hone
    · exact h.each other held hm
  · rw [RegisterStore.previousBytes] at ht
    rw [hs]
    omega

/-- `StagedRegisters.capture` as the code runs it: on the fork in place, with its verdict. -/
def StagedRegisters.captureInPlace (staged : StagedRegisters) (register : RegisterRef)
    (lines : RegisterLines) : Except HashlineRejection Unit × StagedRegisters :=
  match checkRegisterBounds staged.working register lines with
  | .error rejection => (.error rejection, staged)
  | .ok () =>
    if staged.working.namedFull register then (.error namedRegisterOverflow, staged)
    else
      let staged := { staged with working := staged.working.set lines register }
      (.ok (), { staged with writes := staged.writes ++ [⟨register, lines⟩] })

variable (fork : StagedRegisters)

/-- In place, a capture does what the planner's pure one does; a refused one does nothing. -/
theorem captureInPlace_eq (register : RegisterRef) (lines : RegisterLines) :
    fork.captureInPlace register lines = match fork.capture register lines with
      | .ok next => (.ok (), next)
      | .error rejection => (.error rejection, fork) := by
  rw [capture_eq, StagedRegisters.captureInPlace]
  cases checkRegisterBounds fork.working register lines with
  | error rejection => rfl
  | ok _ =>
    split_ifs <;> rfl

variable {fork}

theorem captureInPlace_bounded (h : fork.working.Bounded) (register : RegisterRef)
    (lines : RegisterLines) : (fork.captureInPlace register lines).2.working.Bounded := by
  unfold StagedRegisters.captureInPlace
  cases hc : checkRegisterBounds fork.working register lines with
  | error rejection => exact h
  | ok _ =>
    split_ifs
    · exact h
    · exact h.set hc

/-! ## Runs -/

/-- A session: its committed store and the forks of the requests at work. -/
structure RegisterSession where
  store : RegisterStore
  forks : List StagedRegisters

inductive RegisterEvent where
  | stage
  | capture (fork : ℕ) (register : RegisterRef) (lines : RegisterLines)
  | commit (fork : ℕ)
  | discard (fork : ℕ)

namespace RegisterSession

/-- One event; a fork that is not there is left alone. -/
def step (session : RegisterSession) : RegisterEvent → RegisterSession
  | .stage => { session with forks := session.store.stage :: session.forks }
  | .capture fork register lines => { session with
      forks := session.forks.modify fork fun staged => (staged.captureInPlace register lines).2 }
  | .commit fork => match session.forks[fork]? with
    | some staged => ⟨session.store.commit staged, session.forks.eraseIdx fork⟩
    | none => session
  | .discard fork => { session with forks := session.forks.eraseIdx fork }

def run (events : List RegisterEvent) : RegisterSession := events.foldl step ⟨.new, []⟩

def Bounded (session : RegisterSession) : Prop :=
  session.store.Bounded ∧ ∀ fork ∈ session.forks, fork.working.Bounded

theorem step_bounded {session : RegisterSession} (h : session.Bounded) (event : RegisterEvent) :
    (session.step event).Bounded := by
  obtain ⟨hs, hf⟩ := h
  cases event with
  | stage => exact ⟨hs, List.forall_mem_cons.2 ⟨hs, hf⟩⟩
  | capture fork register lines =>
    refine ⟨hs, fun staged hm => ?_⟩
    obtain ⟨i, hi⟩ := List.mem_iff_getElem?.1 hm
    simp only [step, List.getElem?_modify] at hi
    obtain ⟨held, hh, rfl⟩ := Option.map_eq_some_iff.1 hi
    have hb := hf held (List.mem_of_getElem? hh)
    split_ifs
    · exact captureInPlace_bounded hb register lines
    · exact hb
  | commit fork =>
    simp only [step]
    cases hk : session.forks[fork]? with
    | none => exact ⟨hs, hf⟩
    | some staged =>
      exact ⟨hf staged (List.mem_of_getElem? hk), fun other hm =>
        hf other (List.mem_of_mem_eraseIdx hm)⟩
  | discard fork => exact ⟨hs, fun other hm => hf other (List.mem_of_mem_eraseIdx hm)⟩

/-- The store and every fork stay within the bounds in every run; the replaced bytes never exceed
the total, and a refused capture leaves its fork alone. -/
theorem run_bounded (events : List RegisterEvent) :
    (run events).store.Bounded ∧ ∀ fork ∈ (run events).forks, fork.working.Bounded ∧
      ∀ register lines, fork.working.previousBytes register ≤ fork.working.totalBytes ∧
        ∀ rejection, (fork.captureInPlace register lines).1 = .error rejection →
          (fork.captureInPlace register lines).2 = fork := by
  have hr : (run events).Bounded := by
    refine List.foldlRecOn events step ⟨⟨Nat.zero_le _, ?_, Nat.zero_le _⟩, nofun⟩
      fun session h event _ => step_bounded h event
    intro register lines hm
    cases register <;> exact absurd hm nofun
  refine ⟨hr.1, fun fork hm => ⟨hr.2 fork hm, fun register lines => ⟨?_, fun rejection he => ?_⟩⟩⟩
  · obtain ⟨others, ht, -⟩ := exists_otherBytes fork.working register
    omega
  · rw [captureInPlace_eq] at he ⊢
    cases hc : fork.capture register lines with
    | error _ => rfl
    | ok next =>
      rw [hc] at he
      exact nomatch he

end RegisterSession

end Aft.Hashline
