import Aft.ColdBuild.Limiter

/-!
# Class turns

A class turn is reserved with the permit of a new slot, and settled or withdrawn once, in any order.
The limiter keeps the pending turns and one settled turn; `Admissions` also remembers what they stand
for, the reservations that were not withdrawn and those that were settled.
-/

namespace Aft.ColdBuild

open List

/-- `ADMISSION_EVENT_RETENTION`. -/
def admissionEventRetention : ℕ := 64

structure AdmissionEvent where
  requestId : String
  admissionClass : AdmissionClass
  admissionOrder : ℕ
deriving DecidableEq, Repr

/-- A `ClassTurnReservation`, with the request that it was taken for. -/
structure Reservation where
  turn : ℕ
  requestId : String
  admissionClass : AdmissionClass
deriving DecidableEq, Repr

structure Admissions where
  limiter : Limiter
  nextAdmissionOrder : ℕ
  events : List AdmissionEvent
  /-- The reservations taken so far and not withdrawn. -/
  kept : List Reservation
  /-- The reservations settled so far, in the order of settling. -/
  settled : List Reservation

namespace Admissions

def initial (limit : ℕ) : Admissions := ⟨.new limit, 1, [], [], []⟩

variable (state : Admissions) (reservation : Reservation)

def recordAdmissionLocked : Admissions :=
  { state with
    nextAdmissionOrder := state.nextAdmissionOrder + 1
    events := (if state.events.length = admissionEventRetention then state.events.tail
        else state.events) ++
      [⟨reservation.requestId, reservation.admissionClass, state.nextAdmissionOrder⟩] }

def take (requestId : String) (admissionClass : AdmissionClass) : Admissions :=
  { state with
    limiter := state.limiter.reserveTurn admissionClass
    kept := state.kept ++ [⟨state.limiter.nextTurn, requestId, admissionClass⟩] }

def settle : Admissions :=
  { state.recordAdmissionLocked reservation with
    limiter := state.limiter.settleTurn reservation.turn
    settled := state.settled ++ [reservation] }

def withdraw : Admissions :=
  { state with
    limiter := state.limiter.withdrawTurn reservation.turn
    kept := state.kept.filter (· ≠ reservation) }

end Admissions

/-- A reservation is taken, settled or withdrawn, or the limiter changes something else. -/
inductive TurnStep : Admissions → Admissions → Prop
  | take {state} (requestId : String) (admissionClass : AdmissionClass)
      (hturn : state.limiter.nextTurn < maxId) :
      TurnStep state (state.take requestId admissionClass)
  | settle {state reservation} (hkept : reservation ∈ state.kept)
      (hopen : reservation ∉ state.settled) : TurnStep state (state.settle reservation)
  | withdraw {state reservation} (hkept : reservation ∈ state.kept)
      (hopen : reservation ∉ state.settled) : TurnStep state (state.withdraw reservation)
  | other {state : Admissions} (limiter : Limiter) (hnext : limiter.nextTurn = state.limiter.nextTurn)
      (hsettled : limiter.settledTurn = state.limiter.settledTurn)
      (hpending : limiter.pendingTurns = state.limiter.pendingTurns) :
      TurnStep state { state with limiter }

/-- The last `n` elements of a growing list, with the first one dropped when they are `n`. -/
theorem rtake_concat {α : Type*} (l : List α) {n : ℕ} (hn : 0 < n) (a : α) :
    (l ++ [a]).rtake n =
      (if (l.rtake n).length = n then (l.rtake n).tail else l.rtake n) ++ [a] := by
  obtain ⟨k, rfl⟩ : ∃ k, n = k + 1 := ⟨n - 1, by omega⟩
  rw [rtake_concat_succ]
  simp only [rtake, length_drop]
  split_ifs with hlen
  · rw [tail_drop, show l.length - (k + 1) + 1 = l.length - k by omega]
  · rw [show l.length - (k + 1) = l.length - k by omega]

namespace Admissions

open Reservation

/-- What the limiter keeps of the reservations. -/
structure Summarizes (state : Admissions) : Prop where
  rising : (state.kept.map Reservation.turn ++ [state.limiter.nextTurn]).Pairwise (· < ·)
  settled_kept : ∀ r ∈ state.settled, r ∈ state.kept
  pending : ∀ turn admissionClass, (turn, admissionClass) ∈ state.limiter.pendingTurns.entries ↔
    ∃ r ∈ state.kept, r ∉ state.settled ∧ r.turn = turn ∧ r.admissionClass = admissionClass
  latest : state.limiter.settledTurn =
    (state.settled.argmax Reservation.turn).map fun r => (r.turn, r.admissionClass)
  order : state.nextAdmissionOrder = state.settled.length + 1
  events : state.events = (((state.settled.zipIdx 1).map fun r =>
    ⟨r.1.requestId, r.1.admissionClass, r.2⟩ : List AdmissionEvent)).rtake admissionEventRetention

variable {state : Admissions} {reservation r r' : Reservation}

section

variable (h : state.Summarizes)
include h

theorem Summarizes.turn_lt (hr : r ∈ state.kept) : r.turn < state.limiter.nextTurn :=
  (pairwise_append.1 h.rising).2.2 _ (mem_map_of_mem hr) _ (mem_singleton.2 rfl)

theorem Summarizes.eq_of_turn_eq (hr : r ∈ state.kept) (hr' : r' ∈ state.kept)
    (heq : r.turn = r'.turn) : r = r' :=
  inj_on_of_nodup_map ((pairwise_append.1 h.rising).1.imp ne_of_lt) hr hr' heq

theorem Summarizes.take (requestId : String) (admissionClass : AdmissionClass)
    (hturn : state.limiter.nextTurn < maxId) : (state.take requestId admissionClass).Summarizes := by
  have hnext : (state.take requestId admissionClass).limiter.nextTurn = state.limiter.nextTurn + 1 :=
    Nat.min_eq_left hturn
  refine ⟨?_, fun r hr => mem_append_left _ (h.settled_kept r hr), fun turn cls => ?_, h.latest,
    h.order, h.events⟩
  · rw [hnext]
    simp only [Admissions.take, map_append, map_cons, map_nil]
    refine pairwise_append.2 ⟨h.rising, pairwise_singleton .., ?_⟩
    have hlt := (pairwise_append.1 h.rising).2.2
    simp only [mem_append, mem_singleton, forall_eq] at hlt ⊢
    rintro turn (hturn | rfl)
    · exact (hlt turn hturn).trans (Nat.lt_succ_self _)
    · exact Nat.lt_succ_self _
  · have hlt : ∀ r ∈ state.kept, r.turn ≠ state.limiter.nextTurn := fun r hr => (h.turn_lt hr).ne
    have hnew : ⟨state.limiter.nextTurn, requestId, admissionClass⟩ ∉ state.settled :=
      fun hmem => hlt _ (h.settled_kept _ hmem) rfl
    simp only [Admissions.take, Limiter.reserveTurn, SortedMap.mem_insert, h.pending]
    grind

section

variable (hkept : reservation ∈ state.kept) (hopen : reservation ∉ state.settled)
include hkept hopen

theorem Summarizes.withdraw : (state.withdraw reservation).Summarizes := by
  refine ⟨h.rising.sublist ((filter_sublist.map _).append_right _), fun r hr => ?_, fun turn cls => ?_,
    h.latest, h.order, h.events⟩
  · exact mem_filter.2 ⟨h.settled_kept r hr, by simpa using ne_of_mem_of_not_mem hr hopen⟩
  · have heq := fun r (hr : r ∈ state.kept) => h.eq_of_turn_eq hr hkept
    simp only [Admissions.withdraw, Limiter.withdrawTurn, SortedMap.mem_erase, h.pending, mem_filter]
    grind

theorem Summarizes.settle : (state.settle reservation).Summarizes := by
  have hpending : state.limiter.pendingTurns.find? reservation.turn =
      some reservation.admissionClass :=
    SortedMap.find?_eq_some_iff.2 ((h.pending ..).2 ⟨reservation, hkept, hopen, rfl, rfl⟩)
  have hlimiter : (state.settle reservation).limiter = { state.limiter.withdrawTurn reservation.turn with
      settledTurn := if state.limiter.settledTurn.all (·.1 < reservation.turn) then
        some (reservation.turn, reservation.admissionClass) else state.limiter.settledTurn } := by
    simp only [Admissions.settle, Limiter.settleTurn, hpending]
  refine ⟨?_, ?_, fun turn cls => ?_, ?_, ?_, ?_⟩
  · rw [hlimiter]
    exact h.rising
  · simpa [Admissions.settle, or_imp, forall_and] using ⟨h.settled_kept, hkept⟩
  · have heq := fun r (hr : r ∈ state.kept) => h.eq_of_turn_eq hr hkept
    simp only [hlimiter, Limiter.withdrawTurn, SortedMap.mem_erase, h.pending]
    simp only [Admissions.settle, recordAdmissionLocked, mem_append, mem_singleton]
    grind
  · rw [hlimiter, h.latest]
    simp only [Admissions.settle, argmax_concat]
    cases state.settled.argmax turn with
    | none => rfl
    | some latest => by_cases hlt : latest.turn < reservation.turn <;> simp [hlt]
  · simp [Admissions.settle, recordAdmissionLocked, h.order]
  · simp only [Admissions.settle, recordAdmissionLocked, zipIdx_append, map_append]
    rw [zipIdx_singleton, map_singleton, rtake_concat _ (by decide : 0 < admissionEventRetention),
      ← h.events, h.order, Nat.add_comm 1]

end

theorem Summarizes.lastAdmittedClass : state.limiter.lastAdmittedClass =
    (state.kept.argmax turn).map admissionClass := by
  have hmax : ∀ l : List Reservation, ∀ r ∈ l.argmax turn,
      r ∈ l ∧ ∀ r' ∈ l, r'.turn ≤ r.turn :=
    fun l r hr => ⟨argmax_mem hr, fun r' hr' => le_of_mem_argmax hr' hr⟩
  have hlast : ∀ e ∈ state.limiter.pendingTurns.entries.getLast?,
      e ∈ state.limiter.pendingTurns.entries ∧
        ∀ e' ∈ state.limiter.pendingTurns.entries, e'.1 ≤ e.1 :=
    fun e he => ⟨mem_of_getLast? he, fun e' he' => state.limiter.pendingTurns.le_getLast he he'⟩
  have hkept : ∀ r ∈ state.kept, r ∈ state.settled ∨
      (r.turn, r.admissionClass) ∈ state.limiter.pendingTurns.entries := fun r hr =>
    or_iff_not_imp_left.2 fun hopen => (h.pending ..).2 ⟨r, hr, hopen, rfl, rfl⟩
  have hopen := fun (e : ℕ × AdmissionClass) => (h.pending e.1 e.2).1
  have heq : ∀ r ∈ state.kept, ∀ r' ∈ state.kept, r.turn = r'.turn → r = r' :=
    fun _ hr _ hr' => h.eq_of_turn_eq hr hr'
  have hsettled := h.settled_kept
  unfold Limiter.lastAdmittedClass
  rw [h.latest]
  cases hp : state.limiter.pendingTurns.entries.getLast? <;>
    cases hs : state.settled.argmax turn <;>
      cases hk : state.kept.argmax turn <;>
        grind [argmax_eq_none, getLast?_eq_none_iff]

end

theorem summarizes_initial (limit : ℕ) : (initial limit).Summarizes := by
  refine ⟨?_, ?_, ?_, rfl, rfl, rfl⟩ <;> simp [initial, Limiter.new, SortedMap.empty]

theorem Summarizes.step {next : Admissions} (h : state.Summarizes) (hs : TurnStep state next) :
    next.Summarizes := by
  cases hs with
  | take requestId admissionClass hturn => exact h.take requestId admissionClass hturn
  | settle hkept hopen => exact h.settle hkept hopen
  | withdraw hkept hopen => exact h.withdraw hkept hopen
  | other limiter hnext hsettled hpending =>
    exact ⟨hnext ▸ h.rising, h.settled_kept, hpending ▸ h.pending, hsettled ▸ h.latest, h.order,
      h.events⟩

/-- In every interleaving, the class turn is that of the latest reservation not withdrawn, and the
events are the settled ones, numbered in the order of settling. -/
theorem refused_turns_leave_no_trace {limit : ℕ}
    (hrun : Relation.ReflTransGen TurnStep (initial limit) state) :
    state.limiter.lastAdmittedClass =
        (state.kept.argmax Reservation.turn).map Reservation.admissionClass ∧
      state.events = (((state.settled.zipIdx 1).map fun r =>
        ⟨r.1.requestId, r.1.admissionClass, r.2⟩ : List AdmissionEvent)).rtake
          admissionEventRetention := by
  have h : state.Summarizes := by
    induction hrun with
    | refl => exact summarizes_initial limit
    | tail _ hstep ih => exact ih.step hstep
  exact ⟨h.lastAdmittedClass, h.events⟩

theorem refused_turns_leave_no_trace_withdrawn :
    ∃ state : Admissions, Relation.ReflTransGen TurnStep (initial 2) state ∧
      state.kept = [⟨1, "a", .maintenance⟩] ∧ state.limiter.lastAdmittedClass = some .maintenance ∧
      state.events = [⟨"a", .maintenance, 1⟩] := by
  let first : Reservation := ⟨1, "a", .maintenance⟩
  let second : Reservation := ⟨2, "b", .standing⟩
  let taken := ((initial 2).take "a" .maintenance).take "b" .standing
  have hrun : Relation.ReflTransGen TurnStep (initial 2) ((taken.settle first).withdraw second) :=
    .tail (.tail (.tail (.tail .refl (.take "a" .maintenance (by decide)))
      (.take "b" .standing (by decide))) (@TurnStep.settle _ first (by decide) (by decide)))
      (@TurnStep.withdraw _ second (by decide) (by decide))
  obtain ⟨hlast, hevents⟩ := refused_turns_leave_no_trace hrun
  exact ⟨_, hrun, by decide, hlast, hevents⟩

end Admissions

end Aft.ColdBuild
