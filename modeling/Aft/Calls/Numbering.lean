import Aft.Calls.Answers

/-!
# Sequence numbers

`Ledger.owed` collects the late entries and the stored updates of a custodian. An edit only removes
some of them or adds one with the number just handed out (`Advances`), so in every reachable ledger
their numbers are distinct and no larger than the last one (`WellNumbered`).
-/

namespace Aft.Calls

open List Function

namespace Ledger

/-! ## What a custodian is owed -/

def lateCandidate (custodian : String) (entry : Key × Row) : Option Candidate :=
  if entry.2.custodian = some custodian ∧ entry.2.lateEntry.isSome then
    entry.2.seq.map fun seq => ⟨entry.1, seq, false⟩
  else none

def heldCandidate (custodian : String) (update : Update) : Option Candidate :=
  if update.custodian = custodian ∧ update.entry.isSome then some ⟨update.key, update.seq, true⟩
  else none

section

variable (ledger : Ledger) (custodian : String)

def owed : Multiset Candidate :=
  ↑(ledger.lateRows custodian) + ↑(ledger.heldUpdates custodian)

theorem lateRows_eq :
    ledger.lateRows custodian = ledger.rows.entries.filterMap (lateCandidate custodian) := rfl

theorem heldUpdates_eq :
    ledger.heldUpdates custodian = ledger.updates.filterMap (heldCandidate custodian) := rfl

end

theorem mem_owed {ledger : Ledger} {custodian : String} {candidate : Candidate} :
    candidate ∈ ledger.owed custodian ↔ candidate ∈ ledger.outstanding custodian true := by
  simp [owed, outstanding]

variable {ledger next : Ledger} {custodian : String}

/-- The rows after a write, up to order: the new row and those of the other keys. -/
theorem lateRows_set (key : Key) (row : Row) :
    ((ledger.set key row).lateRows custodian).Perm ((lateCandidate custodian (key, row)).toList ++
      (ledger.rows.erase key).entries.filterMap (lateCandidate custodian)) := by
  rw [lateRows_eq]
  refine ((SortedMap.insert_perm ledger.rows key row).filterMap _).trans (List.Perm.of_eq ?_)
  cases h : lateCandidate custodian (key, row) <;> simp [h]

theorem lateRows_erase_sublist (key : Key) :
    ((ledger.rows.erase key).entries.filterMap (lateCandidate custodian)).Sublist
      (ledger.lateRows custodian) :=
  filter_sublist.filterMap _

/-- A write adds at most the candidate of the new row. -/
theorem owed_set_le (key : Key) (row : Row) :
    (ledger.set key row).owed custodian ≤
      ↑(lateCandidate custodian (key, row)).toList + ledger.owed custodian := by
  have hr : (↑((ledger.set key row).lateRows custodian) : Multiset Candidate) ≤
      ↑(lateCandidate custodian (key, row)).toList + ↑(ledger.lateRows custodian) := by
    rw [Multiset.coe_eq_coe.2 (lateRows_set key row)]
    exact add_le_add_right (Multiset.coe_le.2 (lateRows_erase_sublist key).subperm) _
  calc (ledger.set key row).owed custodian
      ≤ ↑(lateCandidate custodian (key, row)).toList + ↑(ledger.lateRows custodian) +
          ↑(ledger.heldUpdates custodian) := add_le_add_left hr _
    _ = _ := add_assoc ..

theorem owed_set_eq {key : Key} {row next : Row} (hget : ledger.get key = some row)
    (h : lateCandidate custodian (key, next) = lateCandidate custodian (key, row)) :
    (ledger.set key next).owed custodian = ledger.owed custodian := by
  have hr : ((ledger.set key next).lateRows custodian).Perm (ledger.lateRows custodian) := by
    have hold := (SortedMap.perm_cons_erase hget).filterMap (lateCandidate custodian)
    refine (lateRows_set key next).trans (List.Perm.trans (List.Perm.of_eq ?_) hold.symm)
    rw [h]
    cases h' : lateCandidate custodian (key, row) <;> simp [h']
  unfold owed
  rw [Multiset.coe_eq_coe.2 hr]
  rfl

theorem owed_delete_le (key : Key) : (ledger.delete key).owed custodian ≤ ledger.owed custodian :=
  add_le_add (Multiset.coe_le.2 (lateRows_erase_sublist key).subperm)
    (Multiset.coe_le.2 (filter_sublist.filterMap _).subperm)

theorem filterMap_sublist_filterMap {α β : Type} {f g : α → Option β}
    (h : ∀ a b, f a = some b → g a = some b) (l : List α) :
    (l.filterMap f).Sublist (l.filterMap g) := by
  induction l with
  | nil => exact List.Sublist.slnil
  | cons a rest ih =>
    cases hf : f a with
    | none =>
      rw [filterMap_cons_none hf, filterMap_cons]
      split
      · exact ih
      · exact ih.cons _
    | some b =>
      rw [filterMap_cons_some hf, filterMap_cons_some (h a b hf)]
      exact ih.cons_cons b

theorem owed_clearUpdates_le (cleared : Update → Bool) :
    (ledger.clearUpdates cleared).owed custodian ≤ ledger.owed custodian := by
  refine add_le_add_right (Multiset.coe_le.2 (List.Sublist.subperm ?_)) _
  change ((ledger.updates.map _).filterMap _).Sublist _
  rw [filterMap_map]
  refine filterMap_sublist_filterMap (fun update candidate hc => ?_) ledger.updates
  dsimp only [comp_apply] at hc
  by_cases hcl : cleared update
  · simp [hcl] at hc
  · rwa [if_neg hcl] at hc

/-! ## Edits -/

/-- The late results after a step: some of the old ones, and new ones with new numbers. -/
structure Advances (custodian : String) (ledger next : Ledger) : Prop where
  lastSeq : ledger.lastSeq custodian ≤ next.lastSeq custodian
  bound : ledger.lastSeq custodian < 2 ^ 63 → next.lastSeq custodian < 2 ^ 63
  owed : ∃ fresh : Multiset Candidate, next.owed custodian ≤ fresh + ledger.owed custodian ∧
    (fresh.map Candidate.seq).Nodup ∧ ∀ candidate ∈ fresh,
      ledger.lastSeq custodian < candidate.seq ∧ candidate.seq ≤ next.lastSeq custodian

theorem Advances.of_le (hl : next.lastSeq custodian = ledger.lastSeq custodian)
    (h : next.owed custodian ≤ ledger.owed custodian) : Advances custodian ledger next :=
  ⟨hl.ge, hl.trans_lt, 0, by simpa using h, by simp, by simp⟩

theorem Advances.refl (custodian : String) (ledger : Ledger) : Advances custodian ledger ledger :=
  .of_le rfl le_rfl

theorem Advances.trans {last : Ledger} (h : Advances custodian ledger next)
    (h' : Advances custodian next last) : Advances custodian ledger last := by
  obtain ⟨fresh, ho, hn, hf⟩ := h.owed
  obtain ⟨fresh', ho', hn', hf'⟩ := h'.owed
  refine ⟨h.lastSeq.trans h'.lastSeq, fun hlt => h'.bound (h.bound hlt), fresh' + fresh, ?_, ?_,
    fun candidate hmem => ?_⟩
  · calc last.owed custodian ≤ fresh' + next.owed custodian := ho'
      _ ≤ fresh' + (fresh + ledger.owed custodian) := add_le_add_right ho _
      _ = fresh' + fresh + ledger.owed custodian := (add_assoc ..).symm
  · rw [Multiset.map_add]
    refine (Multiset.Nodup.add_iff hn' hn).2 ?_
    refine Multiset.disjoint_left.2 fun hseq' hseq => ?_
    obtain ⟨candidate', hmem', rfl⟩ := Multiset.mem_map.1 hseq'
    obtain ⟨candidate, hmem, heq⟩ := Multiset.mem_map.1 hseq
    have hlow := (hf' candidate' hmem').1
    have hh := (hf candidate hmem).2
    omega
  · have hm := h.lastSeq
    have hm' := h'.lastSeq
    rcases Multiset.mem_add.1 hmem with hmem | hmem
    · exact ⟨hm.trans_lt (hf' candidate hmem).1, (hf' candidate hmem).2⟩
    · exact ⟨(hf candidate hmem).1, (hf candidate hmem).2.trans hm'⟩

/-- Without a new number nothing new is owed. -/
theorem Advances.owed_le (h : Advances custodian ledger next)
    (hl : next.lastSeq custodian = ledger.lastSeq custodian) :
    next.owed custodian ≤ ledger.owed custodian := by
  obtain ⟨fresh, ho, -, hf⟩ := h.owed
  have hem : fresh = 0 := Multiset.eq_zero_of_forall_notMem fun candidate hmem => by
    obtain ⟨hlow, hh⟩ := hf candidate hmem
    omega
  simpa [hem] using ho

variable {allocated : Ledger} {owner : String} {seq : ℕ}

section

variable (h : ledger.allocate owner = some (allocated, seq))
include h

theorem allocate_eq :
    seq = ledger.lastSeq owner + 1 ∧ seq < 2 ^ 63 ∧
      allocated = { ledger with lastSeq := Function.update ledger.lastSeq owner seq } := by
  unfold allocate at h
  dsimp only at h
  split_ifs at h with hlt
  cases h
  exact ⟨rfl, hlt, rfl⟩

/-- One new candidate with the number just handed out. -/
theorem Advances.allocate {new : Option Candidate} (hl : next.lastSeq = allocated.lastSeq)
    (hnew : ∀ candidate ∈ new, owner = custodian ∧ candidate.seq = seq)
    (ho : next.owed custodian ≤ ↑new.toList + ledger.owed custodian) :
    Advances custodian ledger next := by
  obtain ⟨hseq, hlt, rfl⟩ := allocate_eq h
  have hl' : next.lastSeq = Function.update ledger.lastSeq owner seq := hl
  refine ⟨?_, fun hb => ?_, ↑new.toList, ho, ?_, ?_⟩
  · rw [hl']
    by_cases hown : custodian = owner
    · subst hown
      rw [update_self]
      omega
    · rw [update_of_ne hown]
  · rw [hl']
    by_cases hown : custodian = owner
    · rwa [hown, update_self]
    · rwa [update_of_ne hown]
  · cases new <;> simp
  · intro candidate hmem
    obtain ⟨rfl, hc⟩ := hnew candidate (by simpa using hmem)
    rw [hl', update_self]
    omega

theorem owed_allocate : allocated.owed custodian = ledger.owed custodian := by
  obtain ⟨-, -, rfl⟩ := allocate_eq h
  rfl

end

theorem owed_hold (held : Update) :
    ({ ledger with updates := ledger.updates ++ [held] } : Ledger).owed custodian =
      ↑(heldCandidate custodian held).toList + ledger.owed custodian := by
  have hu : ({ ledger with updates := ledger.updates ++ [held] } : Ledger).heldUpdates
      custodian = ledger.heldUpdates custodian ++ (heldCandidate custodian held).toList := by
    rw [heldUpdates_eq, heldUpdates_eq]
    cases h : heldCandidate custodian held <;> simp [h]
  have hr : ({ ledger with updates := ledger.updates ++ [held] } : Ledger).lateRows custodian =
      ledger.lateRows custodian := rfl
  unfold owed
  rw [hr, hu, ← Multiset.coe_add]
  abel

theorem Edit.advances (h : Edit ledger next) (custodian : String) :
    Advances custodian ledger next := by
  cases h with
  | @rewrite key row next hget h =>
    refine .of_le rfl (owed_set_eq hget ?_).le
    simp [lateCandidate, Row.custodian, h.scope, h.seq, h.late]
  | @settleUnscoped key row hget hs frame outcome reason now source =>
    refine .of_le rfl ((owed_set_le key _).trans_eq ?_)
    simp [lateCandidate, settledRow]
  | @settleScoped key row scope allocated seq hget hs hal frame outcome reason now source entry =>
      refine .allocate hal rfl (fun candidate hc => ?_)
        ((owed_set_le key _).trans_eq (by rw [owed_allocate hal]))
      simp only [lateCandidate, Row.custodian, settledRow, hs, Option.mem_def] at hc
      split_ifs at hc with ho
      cases hc
      exact ⟨by simpa using ho.1, rfl⟩
  | delete key => exact .of_le rfl (owed_delete_le key)
  | clear cleared => exact .of_le rfl (owed_clearUpdates_le cleared)
  | @hold allocated held hal =>
    refine .allocate hal rfl (fun candidate hc => ?_)
      ((owed_hold held).trans_le (by rw [owed_allocate hal]))
    simp only [heldCandidate, Option.mem_def] at hc
    split_ifs at hc with ho
    cases hc
    exact ⟨ho.1, rfl⟩

theorem Edits.advances (h : Edits ledger next) (custodian : String) :
    Advances custodian ledger next := by
  induction h with
  | refl => exact Advances.refl custodian ledger
  | tail _ hed ih => exact ih.trans (hed.advances custodian)

/-- Every transaction advances the late results. -/
theorem advances_step (ledger : Ledger) (op : Op) (custodian : String) :
    Advances custodian ledger (ledger.step op).1 := by
  by_cases hop : op.Editing
  · exact (edits_step ledger hop).advances custodian
  · cases op with
    | admitCall key digest scope state eventId =>
      change Advances custodian ledger (ledger.admitCall key digest scope state eventId).1
      unfold admitCall
      split
      · exact Advances.refl custodian ledger
      · refine .of_le rfl ((owed_set_le key _).trans_eq ?_)
        simp [lateCandidate]
    | freezeWithdrawAnswer key body =>
      change Advances custodian ledger (ledger.update key _).1
      unfold update
      split
      · next row hrow =>
          obtain ⟨old, hold, hnew⟩ := Option.bind_eq_some_iff.1 hrow
          cases hnew
          refine .of_le rfl (owed_set_eq hold ?_).le
          rfl
      · exact Advances.refl custodian ledger
    | _ => exact absurd trivial hop

/-! ## Reachable ledgers -/

/-- The numbers of a custodian's late results are distinct and handed out already. -/
structure WellNumbered (ledger : Ledger) (custodian : String) : Prop where
  nodup : ((ledger.owed custodian).map Candidate.seq).Nodup
  le_last : ∀ candidate ∈ ledger.owed custodian, candidate.seq ≤ ledger.lastSeq custodian
  last_lt : ledger.lastSeq custodian < 2 ^ 63

theorem WellNumbered.advances (h : ledger.WellNumbered custodian)
    (had : Advances custodian ledger next) : next.WellNumbered custodian := by
  obtain ⟨fresh, ho, hn, hf⟩ := had.owed
  refine ⟨Multiset.nodup_of_le (Multiset.map_le_map ho) ?_, fun candidate hmem => ?_,
    had.bound h.last_lt⟩
  · rw [Multiset.map_add]
    refine (Multiset.Nodup.add_iff hn h.nodup).2 ?_
    refine Multiset.disjoint_left.2 fun hnew hold => ?_
    obtain ⟨new, hmem, rfl⟩ := Multiset.mem_map.1 hnew
    obtain ⟨old, hmem', heq⟩ := Multiset.mem_map.1 hold
    have hlow := (hf new hmem).1
    have hh := h.le_last old hmem'
    omega
  · rcases Multiset.mem_add.1 (Multiset.mem_of_le ho hmem) with hmem | hmem
    · exact (hf candidate hmem).2
    · exact (h.le_last candidate hmem).trans had.lastSeq

theorem Advances.run (ledger : Ledger) (ops : List Op) (custodian : String) :
    Advances custodian ledger (ledger.run ops) := by
  induction ops generalizing ledger with
  | nil => exact Advances.refl custodian ledger
  | cons op rest ih => exact (advances_step ledger op custodian).trans (ih _)

theorem wellNumbered_run (ops : List Op) (custodian : String) :
    (({} : Ledger).run ops).WellNumbered custodian := by
  have hem : ({} : Ledger).WellNumbered custodian :=
    ⟨Multiset.nodup_zero, fun _ h => absurd h (Multiset.notMem_zero _), Nat.two_pow_pos 63⟩
  exact hem.advances (Advances.run {} ops custodian)

/-- Over whole runs the numbers of a custodian's late results are distinct, the last one never goes
back, and what is new beside the late results of an earlier time has a number beyond its last
one. -/
theorem late_numbers_never_reused (ops later : List Op) (custodian : String) :
    let before := ({} : Ledger).run ops
    let after := before.run later
    ((after.outstanding custodian true).map Candidate.seq).Nodup ∧
      before.lastSeq custodian ≤ after.lastSeq custodian ∧ after.lastSeq custodian < 2 ^ 63 ∧
      ∀ candidate ∈ after.outstanding custodian true, candidate.seq ≤ after.lastSeq custodian ∧
        (candidate ∈ before.outstanding custodian true ∨
          before.lastSeq custodian < candidate.seq) := by
  intro before after
  have hrun : ({} : Ledger).run (ops ++ later) = after := foldl_append
  obtain ⟨hnodup, hle, hlt⟩ := hrun ▸ wellNumbered_run (ops ++ later) custodian
  obtain ⟨hmono, -, fresh, howed, -, hfresh⟩ := Advances.run before later custodian
  refine ⟨hnodup, hmono, hlt, fun candidate hmem => ?_⟩
  have hmem' := mem_owed.2 hmem
  refine ⟨hle candidate hmem', ?_⟩
  rcases Multiset.mem_add.1 (Multiset.mem_of_le howed hmem') with hnew | hold
  · exact .inr (hfresh candidate hnew).1
  · exact .inl (mem_owed.1 hold)

end Ledger

end Aft.Calls
