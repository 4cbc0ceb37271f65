import Aft.Executor.Jobs

/-!
# The race for a cancellation token

One job and its token, at the grain of the atomic operations: the worker marks the token running,
seals it and returns it to pending, while any number of calls signal it. The loops of
`try_seal_committed` and `signal_cancel` load the state and exchange it in two steps, between which
everybody else may step.
-/

namespace Aft.Executor

open List

namespace TokenState

/-- The states that a token does not leave. -/
def Terminal (state : TokenState) : Prop := state = .committed ∨ state = .cancelled

instance (state : TokenState) : Decidable state.Terminal :=
  inferInstanceAs (Decidable (_ ∨ _))

/-- A step of a token: it stays, or it was not terminal. -/
def Moves (state state' : TokenState) : Prop := state' = state ∨ ¬ state.Terminal

theorem moves_markRunning (state : TokenState) : state.Moves state.markRunning.1 := by
  cases state <;> simp [Moves, Terminal, markRunning]

theorem moves_returnToPending (state : TokenState) : state.Moves state.returnToPending.1 := by
  cases state <;> simp [Moves, Terminal, returnToPending]

theorem Moves.eq_of_terminal {state state' : TokenState} (h : state.Moves state')
    (ht : state.Terminal) : state' = state :=
  h.resolve_right (not_not_intro ht)

end TokenState

inductive JobCancelOutcome where
  | queuedRemoved | runningSignalled | runningCommitted | notFound
deriving DecidableEq, Repr

inductive PreExecutionCancelOutcome where
  | queuedRemoved | dispatchedCancelled | alreadyStarted
deriving DecidableEq, Repr

namespace TokenRace

/-! ## The job -/

/-- Where a worker is with the job; `sealing` and `exchanging` are in `try_seal_committed`. -/
inductive Worker where
  | entering
  | marking
  | starting
  | running
  | sealing (inClosure : Bool)
  | exchanging (inClosure : Bool) (current : TokenState)
  | returning
  | rechecking
deriving DecidableEq, Repr

/-- The job is in a queue, with a worker, in the requeue slot of a completion event, or answered. -/
inductive Place where
  | queued
  | held (worker : Worker)
  | slot
  | settled
deriving DecidableEq, Repr

/-- What the threads share, and what happened so far. -/
structure Shared where
  token : TokenState
  place : Place
  /-- `cancel_job_before_execution` holds the scheduler's lock. -/
  locked : Bool
  /-- The successful calls of `mark_running`. -/
  attempts : ℕ
  /-- The attempts that invoked the closure. -/
  invoked : List ℕ
  /-- The results of `try_seal_committed`. -/
  seals : List Bool
  /-- The states that a cancel moved away from or found. -/
  observed : List TokenState
deriving DecidableEq, Repr

def Worker.afterSeal (inClosure sealed : Bool) : Place :=
  if inClosure then .held .running else if sealed then .held .starting else .settled

/-- A step of the scheduler or of the worker. -/
inductive JobStep : Shared → Shared → Prop
  | dispatch {shared} (hplace : shared.place = .queued) (hlock : shared.locked = false) :
      JobStep shared { shared with place := .held .entering }
  /-- The queue is failed or cancelled as a whole. -/
  | drop {shared} (hplace : shared.place = .queued) (hlock : shared.locked = false) :
      JobStep shared { shared with place := .settled }
  /-- The completion event with the job in its requeue slot is processed. -/
  | requeue {shared} (hplace : shared.place = .slot) (hlock : shared.locked = false)
      (htoken : shared.token ≠ .cancelled) : JobStep shared { shared with place := .queued }
  | settle {shared} (hplace : shared.place = .slot) (hlock : shared.locked = false) :
      JobStep shared { shared with place := .settled }
  /-- The worker finds no cancel before the start; its own, for a root that is gone, is a
  canceller's step. -/
  | proceed {shared} (hplace : shared.place = .held .entering)
      (htoken : shared.token ≠ .cancelled) : JobStep shared { shared with place := .held .marking }
  /-- The worker finds a cancel or a root that was unbound. -/
  | refuse {shared} (hplace : shared.place = .held .entering) :
      JobStep shared { shared with place := .settled }
  /-- A repeatable bind finds the epoch gate held. -/
  | backOff {shared} (hplace : shared.place = .held .entering) :
      JobStep shared { shared with place := .held .returning }
  | markRunning {shared} (hplace : shared.place = .held .marking)
      (hmarked : shared.token.markRunning.2 = true) :
      JobStep shared { shared with
        token := shared.token.markRunning.1
        place := .held .starting
        attempts := shared.attempts + 1 }
  | markCancelled {shared} (hplace : shared.place = .held .marking)
      (hmarked : shared.token.markRunning.2 = false) :
      JobStep shared { shared with token := shared.token.markRunning.1, place := .settled }
  | invoke {shared} (hplace : shared.place = .held .starting) :
      JobStep shared { shared with
        place := .held .running
        invoked := shared.invoked ++ [shared.attempts] }
  | callSeal {shared inClosure}
      (hplace : shared.place = .held (if inClosure then .running else .starting)) :
      JobStep shared { shared with place := .held (.sealing inClosure) }
  | sealLoad {shared inClosure} (hplace : shared.place = .held (.sealing inClosure))
      (htoken : ¬ shared.token.Terminal) :
      JobStep shared { shared with place := .held (.exchanging inClosure shared.token) }
  | sealDecided {shared inClosure} (hplace : shared.place = .held (.sealing inClosure))
      (htoken : shared.token.Terminal) :
      JobStep shared { shared with
        place := Worker.afterSeal inClosure (shared.token == .committed)
        seals := shared.seals ++ [shared.token == .committed] }
  | sealExchange {shared inClosure}
      (hplace : shared.place = .held (.exchanging inClosure shared.token)) :
      JobStep shared { shared with
        token := .committed
        place := Worker.afterSeal inClosure true
        seals := shared.seals ++ [true] }
  | sealRetry {shared inClosure current}
      (hplace : shared.place = .held (.exchanging inClosure current))
      (htoken : shared.token ≠ current) :
      JobStep shared { shared with place := .held (.sealing inClosure) }
  /-- The closure returns or panics. -/
  | finish {shared} (hplace : shared.place = .held .running) :
      JobStep shared { shared with place := .settled }
  /-- A bind with a shared hold asks to run again. -/
  | rerun {shared} (hplace : shared.place = .held .running) :
      JobStep shared { shared with place := .held .returning }
  | returnToPending {shared} (hplace : shared.place = .held .returning) :
      JobStep shared { shared with
        token := shared.token.returnToPending.1
        place := if shared.token.returnToPending.2 then .held .rechecking else .settled }
  | recheck {shared} (hplace : shared.place = .held .rechecking) :
      JobStep shared { shared with place := if shared.token = .cancelled then .settled else .slot }

/-! ## Cancellers -/

/-- What a cancelling call returned. -/
inductive Answer where
  | requested (observed : TokenState)
  | job (outcome : JobCancelOutcome)
  | beforeExecution (outcome : PreExecutionCancelOutcome)
deriving DecidableEq, Repr

/-- Where a cancelling call is: `loading` and `exchanging` are in `signal_cancel`, called by
`request_cancel` or by `cancel_job`; `removing` holds the scheduler's lock. -/
inductive Canceller where
  | idle
  | loading (ofJob : Bool)
  | exchanging (ofJob : Bool) (current : TokenState)
  | signalled (ofJob : Bool) (observed : TokenState)
  | removing
  | done (answer : Answer)
deriving DecidableEq, Repr

def signalOutcome : TokenState → JobCancelOutcome
  | .committed => .runningCommitted
  | .running | .pending => .runningSignalled
  | .cancelled => .notFound

/-- No call is under way. -/
def Canceller.Free : Canceller → Prop
  | .idle | .done _ => True
  | _ => False

inductive CancelStep : Canceller → Shared → Canceller → Shared → Prop
  | call {canceller shared} (hfree : canceller.Free) (ofJob : Bool) :
      CancelStep canceller shared (.loading ofJob) shared
  | load {shared ofJob} (htoken : ¬ shared.token.Terminal) :
      CancelStep (.loading ofJob) shared (.exchanging ofJob shared.token) shared
  | decided {shared ofJob} (htoken : shared.token.Terminal) :
      CancelStep (.loading ofJob) shared (.signalled ofJob shared.token)
        { shared with observed := shared.observed ++ [shared.token] }
  | exchange {shared ofJob} :
      CancelStep (.exchanging ofJob shared.token) shared (.signalled ofJob shared.token)
        { shared with token := .cancelled, observed := shared.observed ++ [shared.token] }
  | retry {shared ofJob current} (htoken : shared.token ≠ current) :
      CancelStep (.exchanging ofJob current) shared (.loading ofJob) shared
  | requested {shared observed} :
      CancelStep (.signalled false observed) shared (.done (.requested observed)) shared
  /-- `cancel_job` finds the job in a queue of its actor. -/
  | removeQueued {shared observed} (hlock : shared.locked = false)
      (hplace : shared.place = .queued) :
      CancelStep (.signalled true observed) shared (.done (.job .queuedRemoved))
        { shared with place := .settled }
  /-- `cancel_job` finds no actor, or not the job. -/
  | report {shared observed} (hlock : shared.locked = false) :
      CancelStep (.signalled true observed) shared (.done (.job (signalOutcome observed))) shared
  | cancelPending {canceller shared} (hfree : canceller.Free) (hlock : shared.locked = false)
      (hcancelled : shared.token.tryCancelBeforeRunning.2 = true) :
      CancelStep canceller shared .removing
        { shared with
          token := shared.token.tryCancelBeforeRunning.1
          locked := true
          observed := shared.observed ++ [shared.token] }
  | alreadyStarted {canceller shared} (hfree : canceller.Free) (hlock : shared.locked = false)
      (hcancelled : shared.token.tryCancelBeforeRunning.2 = false) :
      CancelStep canceller shared (.done (.beforeExecution .alreadyStarted)) shared
  | removePending {shared} (hplace : shared.place = .queued) :
      CancelStep .removing shared (.done (.beforeExecution .queuedRemoved))
        { shared with place := .settled, locked := false }
  | cancelDispatched {shared} :
      CancelStep .removing shared (.done (.beforeExecution .dispatchedCancelled))
        { shared with locked := false }

structure State where
  shared : Shared
  cancellers : ℕ → Canceller

def initial : State where
  shared := ⟨.pending, .queued, false, 0, [], [], []⟩
  cancellers := fun _ => .idle

inductive Step : State → State → Prop
  | job {state shared} (h : JobStep state.shared shared) : Step state { state with shared }
  | cancel {state shared canceller} (k : ℕ)
      (h : CancelStep (state.cancellers k) state.shared canceller shared) :
      Step state ⟨shared, Function.update state.cancellers k canceller⟩

/-- A run is any interleaving of steps. -/
abbrev Steps : State → State → Prop := Relation.ReflTransGen Step

/-! ## What one step keeps -/

/-- The states of the token for each place of the job. -/
def Place.Fits (token : TokenState) : Place → Prop
  | .queued | .slot | .held .entering | .held .marking | .held .rechecking =>
    token = .pending ∨ token = .cancelled
  | .held (.exchanging _ current) => token ≠ .pending ∧ ¬ current.Terminal
  | .held .starting | .held .running | .held (.sealing _) => token ≠ .pending
  | .held .returning | .settled => True

structure Shared.Sound (shared : Shared) : Prop where
  place : shared.place.Fits shared.token
  invoked : ∀ attempt ∈ shared.invoked, attempt ≤ shared.attempts
  seals : true ∈ shared.seals → shared.token = .committed
  observed : ∀ state ∈ shared.observed, ¬ state.Terminal → shared.token = .cancelled

/-- The answers that promise that the job does not run. -/
def Answer.Wins : Answer → Prop
  | .job .queuedRemoved | .job .runningSignalled => True
  | .beforeExecution .queuedRemoved | .beforeExecution .dispatchedCancelled => True
  | _ => False

def Canceller.Knows (token : TokenState) : Canceller → Prop
  | .exchanging _ current => ¬ current.Terminal
  | .signalled _ observed => token = if observed = .committed then .committed else .cancelled
  | .removing => token = .cancelled
  | .done answer => answer.Wins → token = .cancelled
  | _ => True

variable {token : TokenState} {canceller : Canceller}

theorem Canceller.Knows.move {token' : TokenState} (h : canceller.Knows token)
    (hm : token.Moves token') : canceller.Knows token' := by
  cases canceller with
  | signalled ofJob observed =>
    have ht : token = if observed = .committed then .committed else .cancelled := h
    have hte : token.Terminal := by
      split at ht
      · exact .inl ht
      · exact .inr ht
    rw [hm.eq_of_terminal hte]
    exact h
  | removing => rwa [hm.eq_of_terminal (.inr h)]
  | done answer => exact fun hw => (hm.eq_of_terminal (.inr (h hw))).trans (h hw)
  | _ => exact h

variable {shared : Shared}

/-- The part of soundness that does not depend on the place. -/
theorem Shared.Sound.moveTo (h : shared.Sound) (token : TokenState) (place : Place)
    (hm : shared.token.Moves token) (hp : place.Fits token) (locked : Bool) :
    Shared.Sound { shared with token, place, locked } where
  place := hp
  invoked := h.invoked
  seals hs :=
    (hm.eq_of_terminal (.inl (h.seals hs))).trans (h.seals hs)
  observed state hst hn :=
    (hm.eq_of_terminal (.inr (h.observed state hst hn))).trans (h.observed state hst hn)

theorem Worker.fits_afterSeal (ht : token ≠ .pending) {inClosure sealed : Bool} :
    (Worker.afterSeal inClosure sealed).Fits token := by
  cases inClosure <;> cases sealed <;> first | exact ht | trivial

variable {shared' : Shared}

theorem JobStep.sound (h : JobStep shared shared') (hs : shared.Sound) :
    shared'.Sound ∧ shared.token.Moves shared'.token := by
  have hf := hs.place
  have hst : shared.token.Moves shared.token := .inl rfl
  cases h with
  | dispatch hp | requeue hp | proceed hp | callSeal hp =>
    rw [hp] at hf
    refine ⟨hs.moveTo _ _ hst ?_ _, hst⟩
    first | exact hf | (rename_i inClosure; cases inClosure <;> exact hf)
  | drop | settle | refuse | backOff | finish | rerun =>
    exact ⟨hs.moveTo _ _ hst (by trivial) _, hst⟩
  | markRunning hp hm =>
    have hmo := shared.token.moves_markRunning
    have hsta : Place.Fits shared.token.markRunning.1 (.held .starting) := by
      cases ht : shared.token <;> simp [Place.Fits, TokenState.markRunning]
    have hmov := hs.moveTo _ _ hmo hsta shared.locked
    exact ⟨⟨hmov.place, fun attempt hat => (hs.invoked attempt hat).trans
      (Nat.le_succ _), hmov.seals, hmov.observed⟩, hmo⟩
  | markCancelled hp hm =>
    have hmo := shared.token.moves_markRunning
    exact ⟨hs.moveTo _ _ hmo (by trivial) _, hmo⟩
  | invoke hp =>
    rw [hp] at hf
    refine ⟨⟨hf, fun attempt hat => ?_, hs.seals, hs.observed⟩, hst⟩
    rcases mem_append.1 hat with hold | hnew
    · exact hs.invoked attempt hold
    · exact (mem_singleton.1 hnew).le
  | sealLoad hp ht =>
    rw [hp] at hf
    exact ⟨hs.moveTo _ _ hst (by exact ⟨hf, ht⟩) _, hst⟩
  | sealDecided hp ht =>
    rw [hp] at hf
    refine ⟨⟨Worker.fits_afterSeal hf, hs.invoked, fun hse => ?_, hs.observed⟩, hst⟩
    rcases mem_append.1 hse with hold | hnew
    · exact hs.seals hold
    · exact beq_iff_eq.1 (mem_singleton.1 hnew).symm
  | sealExchange hp =>
    rw [hp] at hf
    have hmo : shared.token.Moves .committed := .inr hf.2
    have hc : TokenState.committed ≠ .pending := nofun
    exact ⟨⟨Worker.fits_afterSeal hc, hs.invoked, fun _ => rfl,
      (hs.moveTo _ .settled hmo trivial false).observed⟩, hmo⟩
  | sealRetry hp ht =>
    rw [hp] at hf
    exact ⟨hs.moveTo _ _ hst (by exact hf.1) _, hst⟩
  | returnToPending hp =>
    have hmo := shared.token.moves_returnToPending
    refine ⟨hs.moveTo _ _ hmo ?_ _, hmo⟩
    cases ht : shared.token <;> simp [Place.Fits, TokenState.returnToPending]
  | recheck hp =>
    rw [hp] at hf
    refine ⟨hs.moveTo _ _ hst ?_ _, hst⟩
    split
    · trivial
    · exact hf

theorem Place.Fits.cancel {place : Place} (h : place.Fits token) : place.Fits .cancelled := by
  have hc : TokenState.cancelled ≠ .pending := nofun
  unfold Place.Fits at h ⊢
  split at h
  all_goals first | exact .inr rfl | exact ⟨hc, h.2⟩ | exact hc | trivial

/-- A cancel that finds the token pending or running wins. -/
theorem Shared.Sound.cancel (h : shared.Sound) (hn : ¬ shared.token.Terminal) (locked : Bool) :
    Shared.Sound { shared with
      token := .cancelled, locked, observed := shared.observed ++ [shared.token] } where
  place := h.place.cancel
  invoked := h.invoked
  seals hs := absurd (.inl (h.seals hs)) hn
  observed _ _ _ := rfl

variable {canceller' : Canceller}

theorem CancelStep.sound (h : CancelStep canceller shared canceller' shared')
    (hs : shared.Sound) (hk : canceller.Knows shared.token) :
    shared'.Sound ∧ shared.token.Moves shared'.token ∧ canceller'.Knows shared'.token := by
  have hst : shared.token.Moves shared.token := .inl rfl
  cases h with
  | call => exact ⟨hs, hst, trivial⟩
  | load ht => exact ⟨hs, hst, ht⟩
  | decided ht =>
    refine ⟨⟨hs.place, hs.invoked, hs.seals, fun state hsta hn => ?_⟩, hst, ?_⟩
    · rcases mem_append.1 hsta with hold | hnew
      · exact hs.observed state hold hn
      · rw [mem_singleton.1 hnew] at hn
        exact absurd ht hn
    · rcases ht with ht | ht <;> simp [Canceller.Knows, ht]
  | exchange =>
    exact ⟨hs.cancel hk _, .inr hk, (if_neg fun h => hk (.inl h)).symm⟩
  | retry => exact ⟨hs, hst, trivial⟩
  | requested => exact ⟨hs, hst, nofun⟩
  | @removeQueued _ observed hl hp =>
    have hf := hs.place
    rw [hp] at hf
    refine ⟨hs.moveTo _ _ hst (by trivial) _, hst, fun _ => hf.resolve_left fun h => ?_⟩
    have ht : shared.token = if observed = .committed then .committed else .cancelled := hk
    rw [h] at ht
    split at ht <;> cases ht
  | @report _ observed hl =>
    refine ⟨hs, hst, fun hw => ?_⟩
    have ht : shared.token = if observed = .committed then .committed else .cancelled := hk
    rw [ht, if_neg]
    rintro rfl
    exact hw
  | cancelPending hfr hl hc =>
    have ht : shared.token = .pending := by
      simpa [TokenState.tryCancelBeforeRunning] using hc
    have hn : ¬ shared.token.Terminal := by
      rw [ht]
      decide
    have haf : shared.token.tryCancelBeforeRunning.1 = .cancelled := by rw [ht]; rfl
    rw [haf]
    exact ⟨hs.cancel hn true, .inr hn, rfl⟩
  | alreadyStarted => exact ⟨hs, hst, nofun⟩
  | removePending => exact ⟨hs.moveTo _ _ hst (by trivial) _, hst, fun _ => hk⟩
  | cancelDispatched => exact ⟨hs.moveTo _ _ hst hs.place _, hst, fun _ => hk⟩

/-! ## Runs -/

structure State.Sound (state : State) : Prop where
  shared : state.shared.Sound
  cancellers : ∀ k, (state.cancellers k).Knows state.shared.token

variable {state state' : State}

theorem Step.sound (h : Step state state') (hs : state.Sound) :
    state'.Sound ∧ state.shared.token.Moves state'.shared.token := by
  cases h with
  | job hjob =>
    obtain ⟨hsh, hm⟩ := hjob.sound hs.shared
    exact ⟨⟨hsh, fun k => (hs.cancellers k).move hm⟩, hm⟩
  | cancel k hc =>
    obtain ⟨hsh, hm, hk⟩ := hc.sound hs.shared (hs.cancellers k)
    refine ⟨⟨hsh, fun other => ?_⟩, hm⟩
    dsimp only
    by_cases ho : other = k
    · subst ho
      rw [Function.update_self]
      exact hk
    · rw [Function.update_of_ne ho]
      exact (hs.cancellers other).move hm

theorem CancelStep.attempts_eq (h : CancelStep canceller shared canceller' shared') :
    shared'.attempts = shared.attempts := by
  cases h <;> rfl

/-- After a cancel won, no attempt is marked running. -/
theorem Step.attempts_eq (h : Step state state') (ht : state.shared.token = .cancelled) :
    state'.shared.attempts = state.shared.attempts := by
  cases h with
  | job hjob =>
    cases hjob with
    | markRunning _ hm =>
      rw [ht] at hm
      cases hm
    | _ => rfl
  | cancel k hc => exact hc.attempts_eq

theorem sound_initial : initial.Sound where
  shared := ⟨.inl rfl, (nofun), (nofun), nofun⟩
  cancellers _ := trivial

theorem Steps.sound (h : Steps state state') (hs : state.Sound) :
    state'.Sound ∧ (state.shared.token.Terminal → state'.shared.token = state.shared.token) ∧
      (state.shared.token = .cancelled → state'.shared.attempts = state.shared.attempts) := by
  induction h with
  | refl => exact ⟨hs, fun _ => rfl, fun _ => rfl⟩
  | tail _ hst ih =>
    obtain ⟨hmid, ht, hat⟩ := ih
    obtain ⟨hl, hm⟩ := hst.sound hmid
    refine ⟨hl, fun hte => ?_, fun hc => ?_⟩
    · have hsa := ht hte
      exact (hm.eq_of_terminal (hsa ▸ hte)).trans hsa
    · have hmid' := (ht (.inr hc)).trans hc
      exact (hst.attempts_eq hmid').trans (hat hc)

/-- In every interleaving, a token does not leave the cancelled and the committed state; no seal
returns true in a run with a cancel that found the token pending or running; and once a cancelling
call returned that the job was removed, cancelled or signalled, no later attempt is marked running
or invoked, and no seal returns true. -/
theorem cancel_excludes_commit {state : State} (h : Steps initial state) :
    (∀ later, Steps state later → state.shared.token.Terminal →
        later.shared.token = state.shared.token) ∧
      ¬ (true ∈ state.shared.seals ∧ ∃ observed ∈ state.shared.observed, ¬ observed.Terminal) ∧
      ∀ k answer, state.cancellers k = .done answer → answer.Wins → ∀ later, Steps state later →
        later.shared.attempts = state.shared.attempts ∧
          (∀ attempt ∈ later.shared.invoked, attempt ≤ state.shared.attempts) ∧
          true ∉ later.shared.seals := by
  obtain ⟨hsound, -⟩ := Steps.sound h sound_initial
  refine ⟨fun later hlater => (Steps.sound hlater hsound).2.1, ?_, ?_⟩
  · rintro ⟨hsealed, observed, hobserved, hnonterminal⟩
    have hcommitted := hsound.shared.seals hsealed
    rw [hsound.shared.observed observed hobserved hnonterminal] at hcommitted
    cases hcommitted
  · intro k answer hdone hwins later hlater
    have hknows := hsound.cancellers k
    rw [hdone] at hknows
    have hcancelled : state.shared.token = .cancelled := hknows hwins
    obtain ⟨hlast, htoken, hattempts⟩ := Steps.sound hlater hsound
    refine ⟨hattempts hcancelled, fun attempt hattempt => ?_, fun hsealed => ?_⟩
    · exact hattempts hcancelled ▸ hlast.shared.invoked attempt hattempt
    · have hcommitted := hlast.shared.seals hsealed
      rw [htoken (.inr hcancelled), hcancelled] at hcommitted
      cases hcommitted

/-- The queued job after a call of `cancel_job_before_execution` removed it. -/
def removed : State where
  shared := ⟨.cancelled, .settled, false, 0, [], [], [.pending]⟩
  cancellers := Function.update (Function.update (fun _ => .idle) 0 .removing) 0
    (.done (.beforeExecution .queuedRemoved))

theorem steps_removed : Steps initial removed :=
  .tail (.single (.cancel 0 (.cancelPending trivial rfl rfl))) (.cancel 0 (.removePending rfl))

theorem cancel_excludes_commit_removed :
    Steps initial removed ∧ ∀ later, Steps removed later →
      later.shared.attempts = 0 ∧ (∀ attempt ∈ later.shared.invoked, attempt ≤ 0) ∧
        true ∉ later.shared.seals :=
  ⟨steps_removed,
    (cancel_excludes_commit steps_removed).2.2 0 (.beforeExecution .queuedRemoved) rfl trivial⟩

end TokenRace

end Aft.Executor
