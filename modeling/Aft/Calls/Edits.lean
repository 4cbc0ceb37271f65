import Aft.Calls.Requests

/-!
# What a transaction can do

Every transaction of the ledger, apart from the admission of a call and the freezing of an answer,
is a sequence of five kinds of `Edit`: rewrite a row without touching its place in the late results,
settle one, delete one with its updates, clear updates, and append an update (`edits_step`).
-/

namespace Aft.Calls

open Option

/-! ## Edits -/

def SaysNeverRan (body : List Char) : Prop :=
  body = answerBytes .withdrawn ∨ ∃ reason, body = answerBytes (.refused reason)

theorem not_saysNeverRan_alreadyStarted : ¬ SaysNeverRan (answerBytes .alreadyStarted) := by
  rintro (h | ⟨reason, h⟩)
  · exact absurd h (by decide +kernel)
  · cases reason <;> exact absurd h (by decide +kernel)

/-- Settled rows and stored answers stay, and an answer that says the call never ran is stored only
on a settled row. -/
structure RowStep (row next : Row) : Prop where
  settled : row.state = .settled → next.state = .settled
  kept : ∀ body, row.withdrawAnswer = some body → next.withdrawAnswer = some body
  stored : ∀ body, next.withdrawAnswer = some body →
    row.withdrawAnswer = some body ∨ (SaysNeverRan body → next.state = .settled)

/-- A change of a row that keeps its place in the late results. -/
structure Rewrite (row next : Row) : Prop extends RowStep row next where
  scope : next.scope = row.scope
  seq : next.seq = row.seq
  late : next.lateEntry.isSome = row.lateEntry.isSome

theorem RowStep.refl (row : Row) : RowStep row row :=
  ⟨id, fun _ h => h, fun _ h => .inl h⟩

variable {row : Row}

theorem RowStep.trans {next last : Row} (h : RowStep row next) (h' : RowStep next last) :
    RowStep row last := by
  refine ⟨fun hs => h'.settled (h.settled hs), fun body hb => h'.kept body (h.kept body hb),
    fun body hb => ?_⟩
  rcases h'.stored body hb with hb | hn
  · exact (h.stored body hb).imp_right fun hn hsa => h'.settled (hn hsa)
  · exact .inr hn

/-- A change that leaves the answer alone. -/
theorem RowStep.of_answer_eq {next : Row} (hs : row.state = .settled → next.state = .settled)
    (han : next.withdrawAnswer = row.withdrawAnswer) : RowStep row next :=
  ⟨hs, fun _ h => han.trans h, fun _ h => .inl (han.symm.trans h)⟩

theorem RowStep.storeFirst (hn : row.withdrawAnswer = none) {body : List Char}
    (hne : SaysNeverRan body → row.state = .settled) :
    RowStep row { row with withdrawAnswer := some body } := by
  refine ⟨id, fun stored h => ?_, fun stored h => ?_⟩
  · rw [hn] at h
    cases h
  · cases h
    exact .inr hne

theorem rowStep_settledRow (row : Row) (frame : RecordedFrame) (outcome : String)
    (reason : Option String) (now : ℤ) (source : Option (List UInt8)) (seq : Option ℕ)
    (entry : Option (List (String × Json))) :
    RowStep row (Ledger.settledRow row frame outcome reason now source seq entry) := by
  refine ⟨fun _ => rfl, fun body h => ?_, fun body _ => .inr fun _ => rfl⟩
  simp [Ledger.settledRow, h]

/-- The transactions that are sequences of edits. -/
def Op.Editing : Op → Prop
  | .admitCall .. | .freezeWithdrawAnswer .. => False
  | _ => True

namespace Ledger

inductive Edit (ledger : Ledger) : Ledger → Prop
  | rewrite {key row next} (hget : ledger.get key = some row) (h : Rewrite row next) :
      Edit ledger (ledger.set key next)
  | settleUnscoped {key row} (hget : ledger.get key = some row) (hscope : row.scope = none)
      (frame : RecordedFrame) (outcome : String) (reason : Option String) (now : ℤ)
      (source : Option (List UInt8)) :
      Edit ledger (ledger.set key (settledRow row frame outcome reason now source none none))
  | settleScoped {key row scope allocated seq} (hget : ledger.get key = some row)
      (hscope : row.scope = some scope)
      (hallocate : ledger.allocate scope.owner = some (allocated, seq)) (frame : RecordedFrame)
      (outcome : String) (reason : Option String) (now : ℤ) (source : Option (List UInt8))
      (entry : List (String × Json)) :
      Edit ledger (allocated.set key
        (settledRow row frame outcome reason now source (some seq) (some entry)))
  | delete (key : Key) : Edit ledger (ledger.delete key)
  | clear (cleared : Update → Bool) : Edit ledger (ledger.clearUpdates cleared)
  | hold {allocated held}
      (hallocate : ledger.allocate held.custodian = some (allocated, held.seq)) :
      Edit ledger { allocated with updates := allocated.updates ++ [held] }

def Edits : Ledger → Ledger → Prop := Relation.ReflTransGen Edit

variable {ledger next : Ledger} {key : Key}

theorem Edits.refl (ledger : Ledger) : Edits ledger ledger := Relation.ReflTransGen.refl

theorem Edit.edits (h : Edit ledger next) : Edits ledger next := Relation.ReflTransGen.single h

theorem Edits.trans {last : Ledger} (h : Edits ledger next) (h' : Edits next last) :
    Edits ledger last := Relation.ReflTransGen.trans h h'

variable {α : Type}

open Edits

theorem Edits.foldl {f : Ledger → α → Ledger} (hf : ∀ ledger a, Edits ledger (f ledger a))
    (l : List α) (ledger : Ledger) : Edits ledger (l.foldl f ledger) := by
  induction l generalizing ledger with
  | nil => exact refl ledger
  | cons a rest ih => exact (hf ledger a).trans (ih _)

theorem Edits.foldlM {f : Ledger → α → Option Ledger}
    (hf : ∀ {ledger a next}, f ledger a = some next → Edits ledger next) {l : List α}
    (h : l.foldlM f ledger = some next) : Edits ledger next := by
  induction l generalizing ledger with
  | nil =>
    cases h
    exact refl _
  | cons a rest ih =>
    obtain ⟨middle, hm, hr⟩ := bind_eq_some_iff.1 h
    exact (hf hm).trans (ih hr)

variable {change : Row → Option Row}

open Edit

theorem Edits.update
    (hc : ∀ row row', ledger.get key = some row → change row = some row' → Rewrite row row') :
    Edits ledger (ledger.update key change).1 := by
  unfold Ledger.update
  cases hnew : (ledger.get key).bind change with
  | none => exact refl ledger
  | some row' =>
    obtain ⟨row, hget, hrow⟩ := bind_eq_some_iff.1 hnew
    exact (rewrite hget (hc row row' hget hrow)).edits

theorem edits_enforceRetentionBounds (ledger : Ledger) (custodian : String) :
    Edits ledger (ledger.enforceRetentionBounds custodian) := by
  have hd : ∀ ledger : Ledger, Edits ledger (ledger.dropLateEntriesOverBounds custodian) :=
    fun ledger => foldl (fun ledger key => (Edit.delete key).edits) _ ledger
  unfold enforceRetentionBounds
  dsimp only
  split_ifs
  · exact (hd ledger).trans (Edit.clear _).edits
  · exact hd ledger
  · exact (Edit.clear _).edits
  · exact refl ledger

/-! ## Dispatch -/

theorem edits_transition {source target : State} (hs : source ≠ .settled) :
    Edits ledger (ledger.transition key source target).1 := by
  refine Edits.update fun row row' _ hrow => ?_
  split_ifs at hrow with hst
  cases hrow
  exact ⟨.of_answer_eq (fun hse => absurd (hst.symm.trans hse) hs) rfl, rfl, rfl, rfl⟩

variable {changed : Bool}

theorem edits_beginApproved {ended : Bool}
    (h : ledger.beginApproved key ended = some (next, changed)) : Edits ledger next := by
  unfold beginApproved at h
  split at h
  · cases h
    exact refl ledger
  · split_ifs at h
    · cases h
      exact refl ledger
    · have hf : Edits ledger (ledger.transition key .prepared .authorized).1 :=
        edits_transition (by simp)
      dsimp only at h
      split_ifs at h
      all_goals cases h
      · exact hf.trans (edits_transition (by simp))
      · exact hf

variable {body : Option Json} {includeStructured : Bool}

theorem edits_holdPermission
    (h : ledger.holdPermission key body includeStructured = some (next, changed)) :
    Edits ledger next := by
  obtain ⟨kept, -, heq⟩ := map_eq_some_iff.1 h
  obtain rfl : _ = next := congrArg Prod.fst heq
  refine Edits.update fun row row' _ hrow => ?_
  split_ifs at hrow with hc
  cases hrow
  refine ⟨.of_answer_eq (fun hs => ?_) rfl, rfl, rfl, rfl⟩
  rw [hs] at hc
  simp at hc

variable {taskId : String}

theorem edits_holdRunning
    (h : ledger.holdRunning key taskId body includeStructured = some (next, changed)) :
    Edits ledger next := by
  obtain ⟨row, hget, hr⟩ := bind_eq_some_iff.1 h
  dsimp only at hr
  split_ifs at hr
  all_goals
    obtain ⟨kept, -, heq⟩ := bind_eq_some_iff.1 hr
    cases heq
    refine (rewrite hget ?_).edits
    exact ⟨.of_answer_eq (id) rfl, rfl, rfl, rfl⟩

theorem edits_linkTask : Edits ledger (ledger.linkTask key taskId) := by
  refine Edits.update fun row row' _ hrow => ?_
  split_ifs at hrow
  cases hrow
  exact ⟨.of_answer_eq (id) rfl, rfl, rfl, rfl⟩

theorem edits_noteNativeOutcome {code : String} :
    Edits ledger (ledger.noteNativeOutcome key code) := by
  refine Edits.update fun row row' _ hrow => ?_
  split_ifs at hrow
  cases hrow
  exact ⟨.of_answer_eq (id) rfl, rfl, rfl, rfl⟩

/-! ## Settlement -/

variable {row' : Row}

section Settle

variable {row : Row} {frame : RecordedFrame} {outcome : String} {reason : Option String} {now : ℤ}
  {source : Option (List UInt8)}

theorem edits_settleRow (hget : ledger.get key = some row)
    (h : ledger.settleRow key row frame outcome reason now source = some next) :
    Edits ledger next := by
  unfold settleRow at h
  split at h
  · next hs =>
      cases h
      exact (settleUnscoped hget hs ..).edits
  · next scope hs =>
      obtain ⟨⟨allocated, seq⟩, hal, hn⟩ := bind_eq_some_iff.1 h
      cases hn
      exact (settleScoped hget hs hal ..).edits.trans (edits_enforceRetentionBounds ..)

/-- The row that a settlement leaves, if the retention bounds leave it at all. -/
theorem get_settleRow (h : ledger.settleRow key row frame outcome reason now source = some next)
    (hget : next.get key = some row') :
    ∃ seq entry, row' = settledRow row frame outcome reason now source seq entry := by
  unfold settleRow at h
  split at h
  · cases h
    exact ⟨_, _, (mem_unique (get_set_self ..) hget).symm⟩
  · obtain ⟨⟨allocated, seq⟩, -, hn⟩ := bind_eq_some_iff.1 h
    cases hn
    have hset := get_of_get_enforceRetentionBounds hget
    exact ⟨_, _, (mem_unique (get_set_self ..) hset).symm⟩

theorem edits_settle (h : ledger.settle key frame outcome reason now source = some (next, changed)) :
    Edits ledger next := by
  unfold Ledger.settle at h
  split_ifs at h
  split at h
  · cases h
    exact refl ledger
  · next row hget =>
      split_ifs at h
      · cases h
        exact refl ledger
      · obtain ⟨settled, hs, heq⟩ := map_eq_some_iff.1 h
        cases heq
        exact edits_settleRow hget hs

end Settle

variable {now : ℤ}

theorem edits_endScope {scope : ScopeIdentity} {keys : List Key}
    (h : ledger.endScope scope now = some (next, keys)) : Edits ledger next := by
  obtain ⟨settled, hs, heq⟩ := map_eq_some_iff.1 h
  cases heq
  refine foldlM (fun {ledger key next} hkey => ?_) hs
  unfold endScopeKey at hkey
  split at hkey
  · next row hget => exact edits_settleRow hget hkey
  · cases hkey
    exact refl _

theorem edits_recoverRow {task : Option String} (h : ledger.recoverRow key task now = some next) :
    Edits ledger next := by
  have hs : ∀ {frame outcome reason}, (ledger.settle key frame outcome reason now none).map
      Prod.fst = some next → Edits ledger next := by
    intro frame outcome reason hmap
    obtain ⟨⟨settled, changed⟩, hse, rfl⟩ := map_eq_some_iff.1 hmap
    exact edits_settle hse
  unfold recoverRow at h
  split at h
  · cases h
    exact refl _
  · next row hget =>
      split_ifs at h
      · exact hs h
      · unfold recoverStarted at h
        split at h
        · cases h
          refine (rewrite hget ?_).edits
          exact ⟨.of_answer_eq (id) rfl, rfl, rfl, rfl⟩
        · split_ifs at h <;> exact hs h

theorem edits_recordRunningUpdate {approvalKey eventId : String}
    (h : ledger.recordRunningUpdate key approvalKey eventId now = some (next, changed)) :
    Edits ledger next := by
  unfold recordRunningUpdate at h
  split_ifs at h
  · cases h
    exact refl ledger
  · obtain ⟨row, -, hrow⟩ := bind_eq_some_iff.1 h
    split_ifs at hrow
    obtain ⟨scope, -, hs⟩ := bind_eq_some_iff.1 hrow
    obtain ⟨⟨allocated, seq⟩, hal, hn⟩ := bind_eq_some_iff.1 hs
    cases hn
    refine trans (edits (hold ?_)) (edits_enforceRetentionBounds ..)
    exact hal

/-! ## Expiry -/

theorem edits_reduceExpired : Edits ledger (ledger.reduceExpired key now) := by
  refine Edits.update fun row row' _ hrow => ?_
  split_ifs at hrow
  cases hrow
  exact ⟨.of_answer_eq (id) rfl, rfl, rfl, by simp [expiredRow]⟩

theorem rewrite_reducedRow (key : Key) (row : Row) : Rewrite row (reducedRow key row) :=
  ⟨.of_answer_eq (id) rfl, rfl, rfl, by simp [reducedRow]⟩

theorem edits_sweep : Edits ledger (ledger.sweep now) := by
  refine foldl (fun ledger key => ?_) _ ledger
  unfold sweepKey
  split
  · split_ifs
    · exact (Edit.delete key).edits.trans edits_reduceExpired
    · exact edits_reduceExpired
  · exact edits_reduceExpired

theorem edits_dropEntry : Edits ledger (ledger.dropEntry key) := by
  unfold dropEntry
  split
  · split_ifs
    · exact (Edit.delete key).edits
    · exact refl ledger
  · exact refl ledger

variable {custodian incarnation : String}

theorem edits_ackThrough {through : Cursor} :
    Edits ledger (ledger.ackThrough custodian incarnation through) := by
  unfold ackThrough
  split_ifs
  · exact (foldl (fun ledger key => (Edit.delete key).edits) _ ledger).trans (Edit.clear _).edits
  · exact refl ledger

/-! ## Requests -/

theorem edits_storeAnswer {body : List Char} (h : ∀ row, ledger.get key = some row →
      RowStep row { row with withdrawAnswer := some body }) :
    Edits ledger (ledger.storeAnswer key body) := by
  refine Edits.update fun row row' hget hrow => ?_
  cases hrow
  exact ⟨h row hget, rfl, rfl, rfl⟩

variable {maxBody : ℕ} {found : Withdrawal}

theorem edits_firstAnswer (hget : ledger.get key = some row) (hn : row.withdrawAnswer = none)
    (h : ledger.firstAnswer key row now maxBody = some (next, found)) : Edits ledger next := by
  unfold firstAnswer at h
  split at h
  case h_1 | h_2 =>
    obtain ⟨settled, hs, heq⟩ := bind_eq_some_iff.1 h
    cases heq
    refine (edits_settleRow hget hs).trans (edits_storeAnswer fun row' hget' => ?_)
    -- The settlement has stored the same answer.
    obtain ⟨seq, entry, rfl⟩ := get_settleRow hs hget'
    refine .of_answer_eq (id) ?_
    simp only [settledRow, hn]
    decide
  · dsimp only at h
    split at h
    · cases h
      exact refl _
    · cases h
      refine edits_storeAnswer fun row' hget' => ?_
      obtain rfl := mem_unique hget hget'
      exact .storeFirst hn fun hne => absurd hne not_saysNeverRan_alreadyStarted
  · next hst =>
      dsimp only at h
      split_ifs at h
      · cases h
        refine (rewrite hget (rewrite_reducedRow key row)).edits.trans
          (edits_storeAnswer fun row' hget' => ?_)
        obtain rfl := mem_unique (get_set_self ..) hget'
        have hn' : (reducedRow key row).withdrawAnswer = none := hn
        exact .storeFirst hn' fun _ => hst
      · cases h
        refine edits_storeAnswer fun row' hget' => ?_
        obtain rfl := mem_unique hget hget'
        exact .storeFirst hn fun _ => hst

theorem edits_withdraw {stamp : Option ScopeIdentity}
    (h : ledger.withdraw key stamp now maxBody = some (next, found)) : Edits ledger next := by
  have hexp : Edits ledger (ledger.reduceExpired key now) := edits_reduceExpired
  unfold withdraw at h
  dsimp only at h
  split at h
  · cases h
    exact hexp
  · next row hget =>
      split_ifs at h
      · cases h
        exact hexp
      · split at h
        · cases h
          exact hexp
        · next hn => exact hexp.trans (edits_firstAnswer hget hn h)

theorem lastSeq_update : (ledger.update key change).1.lastSeq = ledger.lastSeq := by
  unfold Ledger.update
  split <;> rfl

theorem edits_expireDue (hget : ledger.get key = some row)
    (h : Serving.expireDue ledger key row now = some (next, row')) :
    Edits ledger next ∧ next.lastSeq = ledger.lastSeq ∧ next.get key = some row' := by
  unfold Serving.expireDue at h
  split_ifs at h
  · obtain ⟨expired, hexp, heq⟩ := bind_eq_some_iff.1 h
    cases heq
    exact ⟨edits_reduceExpired, lastSeq_update, hexp⟩
  · cases h
    exact ⟨refl _, rfl, hget⟩

variable {serving serving' : Serving} {overhead : ℕ} {candidate : Candidate} {continues : Bool}

section

variable (h : serving.serveOne overhead maxBody now candidate = some (serving', continues))
include h

/-- What serving one candidate does: drop an update, skip a call without a row, or add an entry
after edits that hand out no number. -/
theorem serveOne_cases :
    (candidate.update = true ∧ continues = true ∧ serving' = { serving with
      ledger := serving.ledger.clearUpdates fun update =>
        update.key = candidate.key ∧ update.seq = candidate.seq
      last := candidate.seq }) ∨
    (candidate.update ≠ true ∧ serving.ledger.get candidate.key = none ∧ continues = true ∧
      serving' = serving) ∨
    ∃ ledger entry, Edits serving.ledger ledger ∧ ledger.lastSeq = serving.ledger.lastSeq ∧
      { serving with ledger }.add maxBody candidate entry = (serving', continues) := by
  unfold Serving.serveOne at h
  split_ifs at h with hu
  · obtain ⟨update, -, hr⟩ := bind_eq_some_iff.1 h
    obtain ⟨entry, -, hen⟩ := bind_eq_some_iff.1 hr
    split_ifs at hen
    · cases hen
      exact .inl ⟨hu, rfl, rfl⟩
    · exact .inr (.inr ⟨_, entry, refl _, rfl, some.inj hen⟩)
  · unfold Serving.serveRow at h
    split at h
    · next hn =>
        cases h
        exact .inr (.inl ⟨hu, hn, rfl, rfl⟩)
    · next row hget =>
        obtain ⟨⟨ledger', row'⟩, hdue, hr⟩ := bind_eq_some_iff.1 h
        obtain ⟨hed, hl, hget'⟩ := edits_expireDue hget hdue
        obtain ⟨entry, -, hen⟩ := bind_eq_some_iff.1 hr
        split_ifs at hen
        · obtain ⟨reduced, -, hre⟩ := bind_eq_some_iff.1 hen
          obtain ⟨entry', -, he'⟩ := bind_eq_some_iff.1 hre
          have hred : Edit ledger' (ledger'.reducePayload candidate.key row').1 :=
            rewrite hget' (rewrite_reducedRow _ _)
          exact .inr (.inr ⟨_, _, hed.trans hred.edits, hl, some.inj he'⟩)
        · exact .inr (.inr ⟨ledger', _, hed, hl, some.inj hen⟩)

/-- Serving a candidate edits the ledger and hands out no number. -/
theorem edits_serveOne :
    Edits serving.ledger serving'.ledger ∧ serving'.ledger.lastSeq = serving.ledger.lastSeq := by
  rcases serveOne_cases h with ⟨-, -, rfl⟩ | ⟨-, -, -, rfl⟩ | ⟨ledger, entry, hed, hl, hadd⟩
  · exact ⟨(clear _).edits, rfl⟩
  · exact ⟨refl _, rfl⟩
  · unfold Serving.add at hadd
    split_ifs at hadd <;> cases hadd <;> exact ⟨hed, hl⟩

end

theorem edits_serve {candidates : List Candidate} {complete : Bool}
    (h : Serving.serve overhead maxBody now candidates serving = some (serving', complete)) :
    Edits serving.ledger serving'.ledger ∧ serving'.ledger.lastSeq = serving.ledger.lastSeq := by
  induction candidates generalizing serving with
  | nil =>
    cases h
    exact ⟨refl _, rfl⟩
  | cons candidate rest ih =>
    obtain ⟨⟨middle, continues⟩, hone, hr⟩ := bind_eq_some_iff.1 h
    obtain ⟨hed, hl⟩ := edits_serveOne hone
    dsimp only at hr
    split_ifs at hr
    · obtain ⟨he', hl'⟩ := ih hr
      exact ⟨hed.trans he', hl'.trans hl⟩
    · cases hr
      exact ⟨hed, hl⟩

theorem edits_lateResults {since : Option Cursor} {limit : Option ℕ} {withHeld : Bool}
    {page : Option Page}
    (h : ledger.lateResults custodian incarnation since limit now maxBody withHeld =
      some (next, page)) : Edits ledger next := by
  unfold lateResults at h
  split_ifs at h
  · obtain ⟨⟨serving, complete⟩, hs, heq⟩ := bind_eq_some_iff.1 h
    cases heq
    exact (edits_enforceRetentionBounds ledger custodian).trans (edits_serve hs).1
  · cases h
    exact refl _

/-! ## Transactions -/

theorem edits_commit {result : Option (Ledger × α)} {reply : α → Reply}
    (h : ∀ next value, result = some (next, value) → Edits ledger next) :
    Edits ledger (ledger.commit result reply).1 := by
  unfold commit
  split
  · next next value => exact h next value rfl
  · exact refl ledger

/-- Every transaction but an admission and the freezing of an answer is a sequence of edits. -/
theorem edits_step (ledger : Ledger) {op : Op} (hop : op.Editing) :
    Edits ledger (ledger.step op).1 := by
  cases op with
  | admitCall | freezeWithdrawAnswer => exact hop.elim
  | authorize | startDispatch => exact edits_transition (by simp)
  | beginApproved => exact edits_commit fun _ _ => edits_beginApproved
  | holdPermission => exact edits_commit fun _ _ => edits_holdPermission
  | holdRunning => exact edits_commit fun _ _ => edits_holdRunning
  | linkTask => exact edits_linkTask
  | noteNativeOutcome => exact edits_noteNativeOutcome
  | settle => exact edits_commit fun _ _ => edits_settle
  | endScope => exact edits_commit fun _ _ => edits_endScope
  | reduceExpired => exact edits_reduceExpired
  | sweep => exact edits_sweep
  | dropEntry => exact edits_dropEntry
  | ackThrough => exact edits_ackThrough
  | enforceRetentionBounds custodian => exact edits_enforceRetentionBounds ledger custodian
  | recordRunningUpdate => exact edits_commit fun _ _ => edits_recordRunningUpdate
  | recoverRow =>
    refine edits_commit fun next _ h => ?_
    obtain ⟨recovered, hr, heq⟩ := map_eq_some_iff.1 h
    cases heq
    exact edits_recoverRow hr
  | withdraw => exact edits_commit fun _ _ => edits_withdraw
  | lateResults => exact edits_commit fun _ _ => edits_lateResults

end Ledger

end Aft.Calls
