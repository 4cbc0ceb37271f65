import Aft.Calls.Edits

/-!
# One call, one withdrawal answer

A `Watch` follows one admitted call until its row is deleted, with the bodies that `withdraw`
returned for it and the answers that were delivered. Every delivered answer is the stored one, and
an answer that says the call never ran is given only for a settled call, which stays settled.
-/

namespace Aft.Calls

open Ledger Option RowStep

variable {other : Key} {body : List Char} {now : ℤ} {maxBody : ℕ} {stamp : Option ScopeIdentity}

namespace Ledger

/-! ## Rows along edits -/

variable {ledger next : Ledger} {key : Key} {row' : Row}

/-- Every row of the key after an edit comes from one before it, by a `RowStep`. -/
theorem Edit.rowStep (h : Edit ledger next) (hget : next.get key = some row') :
    ∃ row, ledger.get key = some row ∧ RowStep row row' := by
  have hset : ∀ {other : Key} {row new : Row} {base : Ledger}, base.get key = ledger.get key →
      ledger.get other = some row → RowStep row new → (base.set other new).get key = some row' →
      ∃ row, ledger.get key = some row ∧ RowStep row row' := by
    intro other row new base hb hrow hs hnew
    by_cases hkey : key = other
    · subst hkey
      obtain rfl := mem_unique (get_set_self ..) hnew
      exact ⟨row, hrow, hs⟩
    · rw [get_set_of_ne _ _ _ _ hkey, hb] at hnew
      exact ⟨row', hnew, refl row'⟩
  cases h with
  | rewrite hrow hs => exact hset rfl hrow hs.toRowStep hget
  | settleUnscoped hrow => exact hset rfl hrow (rowStep_settledRow ..) hget
  | settleScoped hrow _ hal =>
    exact hset (get_allocate hal key) hrow (rowStep_settledRow ..) hget
  | delete deleted => exact ⟨row', get_of_get_delete hget, refl row'⟩
  | clear => exact ⟨row', hget, refl row'⟩
  | hold hal => exact ⟨row', (get_allocate hal key).symm.trans hget, refl row'⟩

theorem Edits.rowStep (h : Edits ledger next) (hget : next.get key = some row') :
    ∃ row, ledger.get key = some row ∧ RowStep row row' := by
  induction h generalizing row' with
  | refl => exact ⟨row', hget, RowStep.refl row'⟩
  | tail _ hed ih =>
    obtain ⟨middle, hm, hs⟩ := hed.rowStep hget
    obtain ⟨row, hrow, hs'⟩ := ih hm
    exact ⟨row, hrow, hs'.trans hs⟩

/-! ## Answers -/

theorem get_update_of_ne (h : key ≠ other) (change : Row → Option Row) :
    (ledger.update other change).1.get key = ledger.get key := by
  unfold update
  split
  · exact get_set_of_ne _ _ _ _ h
  · rfl

theorem get_update_some {new : Row → Row}
    (hget : (ledger.update key fun row => some (new row)).1.get key = some row') :
    ∃ row, ledger.get key = some row ∧ row' = new row := by
  unfold update at hget
  cases hrow : ledger.get key with
  | none =>
    rw [hrow] at hget
    exact absurd (hrow.symm.trans hget) (by simp)
  | some row =>
    rw [hrow] at hget
    exact ⟨row, rfl, (mem_unique (get_set_self ..) hget).symm⟩

theorem get_admitCall_of_some {row : Row} {digest : String} {scope : Option ScopeIdentity}
    {state : State} {eventId : String} (hrow : ledger.get key = some row) :
    (ledger.admitCall other digest scope state eventId).1.get key = some row := by
  unfold admitCall
  split
  · exact hrow
  · next hn =>
      refine (get_set_of_ne _ _ _ _ ?_).trans hrow
      rintro rfl
      simp [hrow] at hn

theorem withdrawAnswer_storeAnswer (hget : (ledger.storeAnswer key body).get key = some row') :
    row'.withdrawAnswer = some body := by
  obtain ⟨row, -, rfl⟩ := get_update_some hget
  rfl

variable {killTask : Option String} {held : Bool}

theorem firstAnswer_stored {row : Row}
    (h : ledger.firstAnswer key row now maxBody = some (next, .answer body killTask held))
    (hget : next.get key = some row') :
    row'.withdrawAnswer = some body ∨ killTask.isSome ∧ body = answerBytes .alreadyStarted := by
  unfold firstAnswer at h
  split at h
  case h_1 | h_2 =>
    obtain ⟨settled, -, heq⟩ := bind_eq_some_iff.1 h
    cases heq
    exact .inl (withdrawAnswer_storeAnswer hget)
  · dsimp only at h
    split at h
    · cases h
      exact .inr ⟨rfl, rfl⟩
    · cases h
      exact .inl (withdrawAnswer_storeAnswer hget)
  · dsimp only at h
    split_ifs at h
    all_goals
      cases h
      exact .inl (withdrawAnswer_storeAnswer hget)

theorem withdraw_stored
    (h : ledger.withdraw key stamp now maxBody = some (next, .answer body killTask held))
    (hget : next.get key = some row') :
    row'.withdrawAnswer = some body ∨ killTask.isSome ∧ body = answerBytes .alreadyStarted := by
  unfold withdraw at h
  dsimp only at h
  split at h
  · cases h
  · next row hrow =>
      split_ifs at h
      · cases h
      · split at h
        · next hs =>
            cases h
            obtain rfl := mem_unique hrow hget
            exact .inl hs
        · exact firstAnswer_stored h hget

end Ledger

/-! ## Watching a call -/

/-- A ledger, the bodies returned for the watched call and the answers delivered. -/
structure Watch where
  ledger : Ledger
  returned : List (List Char) := []
  delivered : List (List Char) := []

namespace Watch

def returnedBy (key : Key) : Op → Reply → List (List Char)
  | .withdraw other _ _ _, .withdrawal (.answer body _ _) => if other = key then [body] else []
  | _, _ => []

/-- The answer that a transaction delivers: of a withdrawal with no task to kill, or the frozen
one. -/
def deliveredBy (key : Key) : Op → Reply → List (List Char)
  | .withdraw other _ _ _, .withdrawal (.answer body none _) => if other = key then [body] else []
  | .freezeWithdrawAnswer other _, .frozen body => if other = key then [body] else []
  | _, _ => []

/-- Only a body that `withdraw` returned is frozen. -/
def Allowed (watch : Watch) (key : Key) : Op → Prop
  | .freezeWithdrawAnswer other body => other = key → body ∈ watch.returned
  | _ => True

def after (key : Key) (watch : Watch) (op : Op) : Watch where
  ledger := (watch.ledger.step op).1
  returned := watch.returned ++ returnedBy key op (watch.ledger.step op).2
  delivered := watch.delivered ++ deliveredBy key op (watch.ledger.step op).2

/-- One transaction while the row of the call lives. -/
def Step (key : Key) (watch next : Watch) : Prop :=
  ∃ op, watch.Allowed key op ∧ next = watch.after key op ∧ (next.ledger.get key).isSome

/-- The watched call after any number of transactions. -/
def Reaches (key : Key) : Watch → Watch → Prop := Relation.ReflTransGen (Step key)

/-- Every delivered answer is stored, and an answer that says the call never ran is about a settled
call. -/
structure Truthful (watch : Watch) (row : Row) : Prop where
  delivered : ∀ body ∈ watch.delivered, row.withdrawAnswer = some body
  returned : ∀ body ∈ watch.returned, SaysNeverRan body → row.state = .settled
  stored : ∀ body, row.withdrawAnswer = some body → SaysNeverRan body → row.state = .settled

variable {key : Key} {watch next : Watch} {row row' : Row}

theorem Truthful.rowStep (h : watch.Truthful row) (hs : RowStep row row') :
    watch.Truthful row' := by
  refine ⟨fun body hb => hs.kept body (h.delivered body hb),
    fun body hb hn => hs.settled (h.returned body hb hn), fun body hb hn => ?_⟩
  rcases hs.stored body hb with hold | hse
  · exact hs.settled (h.stored body hold hn)
  · exact hse hn

theorem Truthful.append (h : watch.Truthful row) {returned delivered : List (List Char)}
    (ledger : Ledger)
    (hb : ∀ body ∈ returned, row.withdrawAnswer = some body ∨ ¬ SaysNeverRan body)
    (han : ∀ body ∈ delivered, row.withdrawAnswer = some body) :
    Truthful ⟨ledger, watch.returned ++ returned, watch.delivered ++ delivered⟩ row := by
  refine ⟨fun body hbo => ?_, fun body hbo hn => ?_, h.stored⟩
  · rcases List.mem_append.1 hbo with hbo | hbo
    · exact h.delivered body hbo
    · exact han body hbo
  · rcases List.mem_append.1 hbo with hbo | hbo
    · exact h.returned body hbo hn
    · rcases hb body hbo with hs | hnot
      · exact h.stored body hs hn
      · exact absurd hn hnot

/-- The row of the call after an allowed transaction. -/
theorem Truthful.exists_rowStep {op : Op} (h : watch.Truthful row)
    (hrow : watch.ledger.get key = some row) (hal : watch.Allowed key op)
    (hget : (watch.ledger.step op).1.get key = some row') : RowStep row row' := by
  by_cases hed : op.Editing
  · obtain ⟨found, hf, hs⟩ := (edits_step watch.ledger hed).rowStep hget
    obtain rfl := mem_unique hrow hf
    exact hs
  · cases op with
    | admitCall =>
      obtain rfl := mem_unique (get_admitCall_of_some hrow) hget
      exact refl row
    | freezeWithdrawAnswer other body =>
      by_cases hkey : other = key
      · subst hkey
        obtain ⟨found, hf, rfl⟩ := get_update_some hget
        obtain rfl := mem_unique hrow hf
        -- A body that is stored already stays.
        cases han : row.withdrawAnswer with
        | none => exact .storeFirst han (h.returned body (hal rfl))
        | some stored => exact .of_answer_eq (id) han.symm
      · have hsa := get_update_of_ne (Ne.symm hkey) _ |>.symm.trans hget
        obtain rfl := mem_unique hrow hsa
        exact refl row
    | _ => exact absurd trivial hed

theorem replies_withdraw {ledger : Ledger}
    (hget : (ledger.step (.withdraw other stamp now maxBody)).1.get key = some row') :
    (∀ body ∈ returnedBy key (.withdraw other stamp now maxBody)
        (ledger.step (.withdraw other stamp now maxBody)).2,
      row'.withdrawAnswer = some body ∨ ¬ SaysNeverRan body) ∧
    ∀ body ∈ deliveredBy key (.withdraw other stamp now maxBody)
        (ledger.step (.withdraw other stamp now maxBody)).2,
      row'.withdrawAnswer = some body := by
  simp only [step] at hget ⊢
  cases hr : ledger.withdraw other stamp now maxBody with
  | none => simp [commit, returnedBy, deliveredBy]
  | some result =>
    obtain ⟨after, found⟩ := result
    rw [hr] at hget
    cases found with
    | unknownCall | notPermitted => simp [commit, returnedBy, deliveredBy]
    | answer body killTask held =>
      by_cases hkey : other = key
      · subst hkey
        rcases withdraw_stored hr hget with hs | ⟨hk, rfl⟩
        · cases killTask <;> simp [commit, returnedBy, deliveredBy, hs]
        · obtain ⟨task, rfl⟩ := isSome_iff_exists.1 hk
          simp [commit, returnedBy, deliveredBy, not_saysNeverRan_alreadyStarted]
      · cases killTask <;> simp [commit, returnedBy, deliveredBy, hkey]

theorem replies_stored {ledger : Ledger} {op : Op} (hget : (ledger.step op).1.get key = some row') :
    (∀ body ∈ returnedBy key op (ledger.step op).2,
      row'.withdrawAnswer = some body ∨ ¬ SaysNeverRan body) ∧
    ∀ body ∈ deliveredBy key op (ledger.step op).2, row'.withdrawAnswer = some body := by
  cases op with
  | withdraw other stamp now maxBody => exact replies_withdraw hget
  | freezeWithdrawAnswer other body =>
    refine ⟨fun body hb => absurd hb List.not_mem_nil, fun answer han => ?_⟩
    by_cases hkey : other = key
    · subst hkey
      obtain rfl : answer = ((ledger.freezeWithdrawAnswer other body).1.get other |>.bind
          Row.withdrawAnswer).getD body := by
        simpa [step, deliveredBy, freezeWithdrawAnswer] using han
      have hrow : (ledger.freezeWithdrawAnswer other body).1.get other = some row' := hget
      obtain ⟨row, -, rfl⟩ := get_update_some hget
      rw [hrow]
      cases row.withdrawAnswer <;> simp
    · simp [step, deliveredBy, hkey] at han
  | _ => exact ⟨fun body hb => absurd hb List.not_mem_nil,
      fun body hb => absurd hb List.not_mem_nil⟩

section

variable (hrow : watch.ledger.get key = some row) (h : watch.Truthful row)
include hrow h

theorem Truthful.step (hs : Step key watch next) :
    ∃ row', next.ledger.get key = some row' ∧ RowStep row row' ∧ next.Truthful row' := by
  obtain ⟨op, hal, rfl, hl⟩ := hs
  obtain ⟨row', hget⟩ := isSome_iff_exists.1 hl
  have hr := h.exists_rowStep hrow hal hget
  obtain ⟨hb, han⟩ := replies_stored hget
  exact ⟨row', hget, hr, (h.rowStep hr).append _ hb han⟩

/-- Along any number of transactions the row keeps its answer and the watch stays truthful. -/
theorem Truthful.reaches (hr : Reaches key watch next) :
    ∃ row', next.ledger.get key = some row' ∧ RowStep row row' ∧ next.Truthful row' := by
  induction hr with
  | refl => exact ⟨row, hrow, refl row, h⟩
  | tail _ hs ih =>
    obtain ⟨middle, hm, hro, ht⟩ := ih
    obtain ⟨row', hget, hr', ht'⟩ := ht.step hm hs
    exact ⟨row', hget, hro.trans hr', ht'⟩

end

/-- From admission to the deletion of the row, all delivered answers are the same, and once one says
that the call never ran, the call is settled and stays so. -/
theorem one_withdraw_answer (ledger : Ledger) (key : Key) (digest : String)
    (scope : Option ScopeIdentity) (state : State) (eventId : String)
    (hfree : ledger.get key = none) (middle final : Watch)
    (hmiddle : Reaches key ⟨(ledger.admitCall key digest scope state eventId).1, [], []⟩ middle)
    (hfinal : Reaches key middle final) :
    (∀ answer ∈ middle.delivered, ∀ answer' ∈ final.delivered, answer = answer') ∧
      ∀ answer ∈ middle.delivered, SaysNeverRan answer →
        ∃ row row', middle.ledger.get key = some row ∧ row.state = .settled ∧
          final.ledger.get key = some row' ∧ row'.state = .settled := by
  have hadmitted : (ledger.admitCall key digest scope state eventId).1.get key =
      some { digest, state, scope, eventId } := by
    unfold Ledger.admitCall
    rw [hfree]
    exact Ledger.get_set_self ..
  have hstart : Truthful ⟨(ledger.admitCall key digest scope state eventId).1, [], []⟩
      { digest, state, scope, eventId } :=
    ⟨fun _ h => absurd h List.not_mem_nil, fun _ h => absurd h List.not_mem_nil,
      fun _ h => absurd h (by simp)⟩
  obtain ⟨row, hrow, -, htruthful⟩ := hstart.reaches hadmitted hmiddle
  obtain ⟨row', hrow', hstep, htruthful'⟩ := htruthful.reaches hrow hfinal
  refine ⟨fun answer hanswer answer' hanswer' => ?_, fun answer hanswer hnever => ?_⟩
  · have hkept := hstep.kept answer (htruthful.delivered answer hanswer)
    exact Option.mem_unique hkept (htruthful'.delivered answer' hanswer')
  · have hsettled := htruthful.stored answer (htruthful.delivered answer hanswer) hnever
    exact ⟨row, row', hrow, hsettled, hrow', hstep.settled hsettled⟩

theorem one_withdraw_answer_held :
    ∃ middle final : Watch, middle.delivered = [answerBytes .withdrawn] ∧
      final.delivered = [answerBytes .withdrawn, answerBytes .withdrawn] ∧
      (∀ answer ∈ middle.delivered, ∀ answer' ∈ final.delivered, answer = answer') := by
  let key : Key := ⟨"carrier", "call"⟩
  let start : Watch := ⟨(({} : Ledger).admitCall key "digest" none .prepared "event").1, [], []⟩
  let middle := start.after key (.withdraw key none 0 100)
  let final := (middle.after key (.beginApproved key false)).after key (.withdraw key none 5 100)
  have hmiddle : Reaches key start middle :=
    .single ⟨.withdraw key none 0 100, trivial, rfl, by decide +kernel⟩
  have hfinal : Reaches key middle final :=
    .tail (.single ⟨.beginApproved key false, trivial, rfl, by decide +kernel⟩)
      ⟨.withdraw key none 5 100, trivial, rfl, by decide +kernel⟩
  exact ⟨middle, final, by decide +kernel, by decide +kernel,
    (one_withdraw_answer {} key "digest" none .prepared "event" rfl middle final hmiddle hfinal).1⟩

end Watch

end Aft.Calls
