import Aft.Remote.Moves

/-!
# What the sink of a remote stream receives

Records reach the sink in increasing order and as the job has them, every number behind the cursor
is accounted for (`Received`), and the buffer stays within its budget (`Buffered`), over any chain
of consumers. A terminal is the last call if no finished consumer is resumed (`Sealed`).
-/

namespace Aft.Remote

open List Option StreamConsumer SortedMap

/-! ## What the sink received -/

/-- The numbers whose content the calls hand over, in order. -/
def delivered (calls : List SinkCall) : List ℕ := calls.filterMap SinkCall.seq?

/-- A number was handed over, lies below a bound that the sink was given, or in a gap accepted
before an expired manifest. -/
def Session.Accounts (contract : Contract) (session : Session) (n : ℕ) : Prop :=
  n ∈ delivered session.calls ∨
    (∃ call ∈ session.calls, ∃ bound ∈ call.bound?, n < bound) ∨
    ∃ gap ∈ session.gaps, gap.fromSeq ≤ n ∧ n < gap.manifest.seq ∧
      gap.manifest.hasExpiredEntry = true ∧
      gap.manifest.expiredGapMatches contract gap.lastOutputSeq = true

/-- The calls of a chain of consumers that starts behind `cursor` and has passed the numbers below
`frontier`. -/
structure Received (contract : Contract) (job : Job) (cursor : Option ℕ) (session : Session)
    (frontier : ℕ) : Prop where
  increasing : (delivered session.calls).Pairwise (· < ·)
  behind : ∀ n ∈ delivered session.calls, n < frontier
  owns : ∀ call ∈ session.calls, job.Owns call
  accounts : ∀ n < frontier, session.Accounts contract n ∨ ∃ last ∈ cursor, n ≤ last

variable {manifest : ReturnManifest} {gap : ExpiredGap} {consumer : StreamConsumer}

namespace Received

variable {contract : Contract} {job : Job} {cursor : Option ℕ} {session : Session} {frontier : ℕ}

theorem accounts_call {n : ℕ} (call : SinkCall) (h : session.Accounts contract n) :
    (session.call call).Accounts contract n := by
  rcases h with hseq | ⟨other, ho, hb⟩ | hgap
  · refine .inl ?_
    rw [delivered, Session.call, filterMap_append]
    exact mem_append_left _ hseq
  · exact .inr (.inl ⟨other, mem_append_left _ ho, hb⟩)
  · exact .inr (.inr hgap)

section

variable (h : Received contract job cursor session frontier)
include h

theorem owns_call {call : SinkCall} (hc : job.Owns call) :
    ∀ other ∈ (session.call call).calls, job.Owns other := by
  intro other ho
  rcases mem_append.1 ho with hold | hnew
  · exact h.owns other hold
  · rw [mem_singleton.1 hnew]
    exact hc

/-- A call that hands over no content, up to where every number passed is accounted for. -/
theorem quiet {call : SinkCall} {frontier' : ℕ} (hseq : call.seq? = none)
    (hle : frontier ≤ frontier')
    (hnew : ∀ n < frontier', frontier ≤ n →
      (session.call call).Accounts contract n ∨ ∃ last ∈ cursor, n ≤ last) :
    Received contract job cursor (session.call call) frontier' := by
  have hd : delivered (session.call call).calls = delivered session.calls := by
    simp [delivered, Session.call, hseq]
  refine ⟨hd ▸ h.increasing, fun n hn => ?_, h.owns_call fun n hn => ?_, fun n hn => ?_⟩
  · exact (h.behind n (hd ▸ hn)).trans_le hle
  · rw [hseq] at hn
    cases hn
  · by_cases hold : n < frontier
    · exact (h.accounts n hold).imp_left (accounts_call call)
    · exact hnew n hn (not_lt.1 hold)

theorem quiet_same {call : SinkCall} (hseq : call.seq? = none) :
    Received contract job cursor (session.call call) frontier :=
  h.quiet hseq le_rfl fun _ hlt hle => absurd hlt (not_lt.2 hle)

/-- A reported bound accounts for every number below it. -/
theorem report {call : SinkCall} {bound : ℕ} (hseq : call.seq? = none)
    (hb : call.bound? = some bound) (hle : frontier ≤ bound) :
    Received contract job cursor (session.call call) bound :=
  h.quiet hseq hle fun _ hlt _ => .inl (.inr (.inl
    ⟨call, mem_append_right _ (mem_singleton_self _), bound, hb, hlt⟩))

theorem withConsumer (hf : consumer.frontier = frontier) :
    Received contract job cursor (session.withConsumer consumer)
      (session.withConsumer consumer).consumer.frontier := by
  subst hf
  exact ⟨h.increasing, h.behind, h.owns, h.accounts⟩

theorem deliver {call : SinkCall} (hseq : call.seq? = some frontier) (hc : job.Owns call) :
    Received contract job cursor (session.call call) (frontier + 1) := by
  have hd : delivered (session.call call).calls = delivered session.calls ++ [frontier] := by
    simp [delivered, Session.call, hseq]
  refine ⟨?_, fun n hn => ?_, h.owns_call hc, fun n hn => ?_⟩
  · rw [hd]
    refine pairwise_append.2 ⟨h.increasing, pairwise_singleton _ _, fun n hn m hm => ?_⟩
    rw [mem_singleton.1 hm]
    exact h.behind n hn
  · rw [hd] at hn
    rcases mem_append.1 hn with hold | hnew
    · exact (h.behind n hold).trans (Nat.lt_succ_self _)
    · exact (mem_singleton.1 hnew).trans_lt (Nat.lt_succ_self _)
  · rcases Nat.lt_succ_iff_lt_or_eq.1 hn with hold | rfl
    · exact (h.accounts n hold).imp_left (accounts_call call)
    · refine .inl (.inl ?_)
      rw [hd]
      exact mem_append_right _ (mem_singleton_self _)

end

/-- An accepted gap accounts for the numbers up to its manifest. -/
theorem skip (h : Received contract job cursor session session.consumer.frontier)
    (hgap : session.consumer.expiredGap contract manifest = .ok (some gap)) :
    Received contract job cursor (session.skip gap) gap.manifest.seq := by
  obtain ⟨hm, hf, -, hlt, -, hexp, hma⟩ := expiredGap_eq_some hgap
  rw [← hm] at hlt hexp hma
  refine ⟨h.increasing, fun n hn => (h.behind n hn).trans hlt, h.owns, fun n hn => ?_⟩
  by_cases hold : n < session.consumer.frontier
  · refine (h.accounts n hold).imp_left ?_
    rintro (hseq | hb | ⟨other, ho, hr⟩)
    · exact .inl hseq
    · exact .inr (.inl hb)
    · exact .inr (.inr ⟨other, mem_append_left _ ho, hr⟩)
  · exact .inl (.inr (.inr ⟨gap, mem_append_right _ (mem_singleton_self _),
      hf.trans_le (not_lt.1 hold), hn, hexp, hma⟩))

end Received

/-! ## What is buffered -/

/-- What holds of a consumer of a chain that starts behind `cursor`. -/
structure Buffered (contract : Contract) (job : Job) (cursor : Option ℕ)
    (consumer : StreamConsumer) : Prop where
  ahead : ∀ entry ∈ consumer.pending.entries, consumer.frontier ≤ entry.1
  holds : ∀ entry ∈ consumer.pending.entries, job.Holds entry.1 entry.2
  saved : ∀ gap ∈ consumer.savedGap, ∀ entry ∈ gap.pending.entries, job.Holds entry.1 entry.2
  bytes : consumer.pendingBytes = bufferedBytes contract consumer.pending
  budget : consumer.pendingBytes ≤ maxPendingBytes
  opened : consumer.pending.entries ≠ [] → consumer.point.isSome
  run : consumer.runCursor = none ∨ consumer.runCursor = cursor

namespace Buffered

variable {contract : Contract} {job : Job} {cursor : Option ℕ} {consumer : StreamConsumer}

theorem frontier_commit (hp : consumer.point.isSome) (next : ℕ) (record : Pending) :
    (consumer.commit contract next record).frontier = next + 1 := by
  obtain ⟨point, hp⟩ := isSome_iff_exists.1 hp
  simp [StreamConsumer.commit, StreamConsumer.frontier, hp]

theorem savedGap_commit (next : ℕ) (record : Pending) :
    (consumer.commit contract next record).savedGap = consumer.savedGap := by
  unfold savedGap commit
  cases consumer.point <;> rfl

theorem savedGap_setLastSeq (last : Option ℕ) :
    (consumer.setLastSeq last).savedGap = consumer.savedGap := by
  unfold savedGap setLastSeq modifyPoint
  cases consumer.point <;> rfl

theorem isSome_point_setLastSeq (last : Option ℕ) :
    (consumer.setLastSeq last).point.isSome = consumer.point.isSome := by
  simp [setLastSeq, modifyPoint]

variable {record : Pending}

section

variable (h : Buffered contract job cursor consumer)
include h

theorem commit (hf : consumer.pending.find? consumer.frontier = some record) :
    Buffered contract job cursor (consumer.commit contract consumer.frontier record) := by
  have hmem := find?_eq_some_iff.1 hf
  have hp := h.opened (ne_nil_of_mem hmem)
  have hsum : bufferedBytes contract consumer.pending =
      record.bufferBytes contract + bufferedBytes contract (consumer.pending.erase _) :=
    sumValues_of_find? _ hf
  refine ⟨fun entry hen => ?_, fun entry hen => ?_, fun gap hgap => ?_, ?_, ?_, fun _ => ?_, h.run⟩
  · obtain ⟨hold, hne⟩ := mem_erase.1 hen
    have := h.ahead entry hold
    rw [frontier_commit hp]
    omega
  · exact h.holds entry (mem_erase.1 hen).1
  · rw [savedGap_commit] at hgap
    exact h.saved gap hgap
  · simp only [StreamConsumer.commit, h.bytes]
    omega
  · exact (Nat.sub_le _ _).trans h.budget
  · simpa [StreamConsumer.commit] using hp

/-- The cursor may move up to the first buffered record. -/
theorem setLastSeq {last : Option ℕ}
    (hle : ∀ entry ∈ consumer.pending.entries, (consumer.setLastSeq last).frontier ≤ entry.1) :
    Buffered contract job cursor (consumer.setLastSeq last) := by
  refine ⟨hle, h.holds, fun gap hgap => ?_, h.bytes, h.budget, fun hp => ?_, h.run⟩
  · rw [savedGap_setLastSeq] at hgap
    exact h.saved gap hgap
  · rw [isSome_point_setLastSeq]
    exact h.opened hp

theorem truncate {before : ℕ} (hp : consumer.point.isSome) :
    Buffered contract job cursor (consumer.truncate contract before) := by
  refine ⟨fun entry hen => ?_, fun entry hen => ?_, fun gap hgap => ?_, rfl, ?_, fun _ => ?_, h.run⟩
  · exact (frontier_setLastSeq hp before).le.trans (of_decide_eq_true (mem_filterKeys.1 hen).2)
  · exact h.holds entry (mem_filterKeys.1 hen).1
  · exact h.saved gap ((savedGap_setLastSeq _).symm.trans hgap)
  · exact (sumValues_filterKeys_le _ _ _).trans (h.bytes.ge.trans h.budget)
  · exact (isSome_point_setLastSeq _).trans hp

end

theorem skip {session : Session} (h : Buffered contract job cursor session.consumer)
    (hgap : session.consumer.expiredGap contract manifest = .ok (some gap)) :
    Buffered contract job cursor (session.skip gap).consumer := by
  obtain ⟨rfl, -, hp, hlt, hn, -⟩ := expiredGap_eq_some hgap
  exact h.setLastSeq fun entry hen => (frontier_skip hp hlt).le.trans (hn entry hen)

theorem insertPending {consumer' : StreamConsumer} {seq : ℕ}
    (h : Buffered contract job cursor consumer) (hp : consumer.point.isSome)
    (hle : consumer.frontier ≤ seq) (hh : job.Holds seq record)
    (hin : consumer.insertPending contract seq record = .ok consumer') :
    Buffered contract job cursor consumer' ∧ consumer'.frontier = consumer.frontier := by
  unfold StreamConsumer.insertPending at hin
  dsimp only at hin
  split_ifs at hin with hb
  cases hin
  refine ⟨⟨fun entry hen => ?_, fun entry hen => ?_, h.saved, ?_, not_lt.1 hb,
    fun _ => hp, h.run⟩, rfl⟩
  · rcases mem_insert.1 hen with rfl | ⟨hold, -⟩
    · exact hle
    · exact h.ahead entry hold
  · rcases mem_insert.1 hen with rfl | ⟨hold, -⟩
    · exact hh
    · exact h.holds entry hold
  · dsimp only
    rw [h.bytes]
    unfold bufferedBytes
    rw [sumValues_insert]
    cases hf : consumer.pending.find? seq with
    | none =>
      rw [erase_eq_self hf]
      simp [Nat.add_comm]
    | some previous =>
      rw [sumValues_of_find? _ hf]
      simp [Nat.add_comm]

theorem holds_clonePending {pending : SortedMap ℕ Pending}
    (h : ∀ entry ∈ pending.entries, job.Holds entry.1 entry.2) :
    ∀ entry ∈ (clonePending pending).entries, job.Holds entry.1 entry.2 := by
  rintro ⟨n, record⟩ hen
  obtain ⟨original, hmem, rfl⟩ := mem_mapValues hen
  exact (h _ hmem).clone

theorem saveGap {fromSeq : ℕ} {record : TerminalRecord} {session : Session}
    (h : Buffered contract job cursor session.consumer) :
    Buffered contract job cursor
      (session.saveGap (session.consumer.gapAt fromSeq record)).consumer := by
  refine ⟨fun entry hen => ?_, h.holds, fun gap hgap => ?_, h.bytes, h.budget, fun hp => ?_, h.run⟩
  · refine le_trans (le_of_eq ?_) (h.ahead entry hen)
    simp only [Session.saveGap, StreamConsumer.frontier, StreamConsumer.modifyPoint]
    cases session.consumer.point <;> rfl
  · simp only [Session.saveGap, Session.withConsumer, StreamConsumer.savedGap,
      StreamConsumer.modifyPoint] at hgap
    cases hpo : session.consumer.point with
    | none => simp [hpo] at hgap
    | some point =>
      obtain rfl : session.consumer.gapAt fromSeq record = gap := by simpa [hpo] using hgap
      exact holds_clonePending h.holds
  · simpa [Session.saveGap, Session.withConsumer, StreamConsumer.modifyPoint] using h.opened hp

theorem boundGap_holds {gap : GapRecovery}
    (h : ∀ entry ∈ gap.pending.entries, job.Holds entry.1 entry.2) :
    ∀ entry ∈ (boundGap contract gap).pending.entries,
      job.Holds entry.1 entry.2 := by
  unfold boundGap
  split_ifs
  · intro entry hen
    cases hen
  · exact h

theorem bufferedBytes_boundGap_le (gap : GapRecovery) :
    bufferedBytes contract (boundGap contract gap).pending ≤ maxPendingBytes := by
  unfold boundGap
  split_ifs with h
  · exact Nat.zero_le _
  · exact not_lt.1 h

variable {point : ResumePoint}

/-- A restored record was saved with a gap and is ahead of the cursor. -/
theorem mem_pending_resume {entry : ℕ × Pending}
    (h : entry ∈ (StreamConsumer.resume contract point).pending.entries) :
    ∃ gap ∈ point.gapRecovery,
      entry ∈ (clonePending (StreamConsumer.boundGap contract gap).pending).entries ∧
      (StreamConsumer.resume contract point).frontier ≤ entry.1 := by
  cases hgap : point.gapRecovery with
  | none => cases hl : point.lastSeq <;>
      simp [StreamConsumer.resume, hgap, hl, filterKeys, empty] at h
  | some gap =>
    refine ⟨gap, rfl, ?_⟩
    cases hl : point.lastSeq with
    | none =>
      simp only [StreamConsumer.resume, hgap, hl] at h
      exact ⟨h, by simp [StreamConsumer.resume, StreamConsumer.frontier, hl]⟩
    | some last =>
      simp only [StreamConsumer.resume, hgap, hl, mem_filterKeys] at h
      refine ⟨h.1, ?_⟩
      simpa [StreamConsumer.resume, StreamConsumer.frontier, hl] using h.2

theorem pendingBytes_resume_le (point : ResumePoint) :
    (resume contract point).pendingBytes ≤ maxPendingBytes := by
  have hs : bufferedBytes contract (((point.gapRecovery.map
      (boundGap contract)).map fun gap => clonePending gap.pending).getD
        empty) ≤ maxPendingBytes := by
    cases point.gapRecovery with
    | none => exact Nat.zero_le _
    | some gap => exact (sumValues_mapValues_le _
        (Pending.bufferBytes_clone_le contract)).trans (bufferedBytes_boundGap_le gap)
  unfold resume
  cases point.lastSeq with
  | none => exact hs
  | some last => exact (sumValues_filterKeys_le _ _ _).trans hs

/-- The buffer that a resume point restores is the job's, ahead of the cursor and in budget. -/
theorem resume (h : Buffered contract job cursor consumer)
    (hp : consumer.resumePoint = some point) :
    Buffered contract job cursor (StreamConsumer.resume contract point) ∧
      (StreamConsumer.resume contract point).frontier = consumer.frontier := by
  obtain ⟨original, ho, rfl⟩ := map_eq_some_iff.1 hp
  have hs : ∀ gap ∈ original.clone.gapRecovery,
      ∀ entry ∈ gap.pending.entries, job.Holds entry.1 entry.2 := by
    intro gap hgap
    obtain ⟨saved, hs, rfl⟩ := map_eq_some_iff.1 hgap
    have hmem : saved ∈ consumer.savedGap := by
      simp [StreamConsumer.savedGap, ho, hs]
    exact holds_clonePending (h.saved saved hmem)
  refine ⟨⟨fun entry hen => ?_, fun entry hen => ?_, fun gap hgap => ?_, rfl,
    pendingBytes_resume_le _, fun _ => rfl, .inl rfl⟩, ?_⟩
  · obtain ⟨-, -, -, hle⟩ := mem_pending_resume hen
    exact hle
  · obtain ⟨gap, hgap, hmem, -⟩ := mem_pending_resume hen
    exact holds_clonePending (boundGap_holds (hs gap hgap)) entry hmem
  · obtain ⟨saved, hmem, rfl⟩ := map_eq_some_iff.1 hgap
    exact boundGap_holds (hs saved hmem)
  · simp [StreamConsumer.resume, StreamConsumer.frontier, ho, ResumePoint.clone]

end Buffered

/-! ## Runs -/

/-- A session whose buffer and calls are in order. -/
def Kept (contract : Contract) (job : Job) (cursor : Option ℕ) (session : Session) : Prop :=
  Buffered contract job cursor session.consumer ∧
    Received contract job cursor session session.consumer.frontier

/-- No call follows a terminal, and none was made while there is no verdict. -/
def Sealed (session : Session) : Prop :=
  (∀ call ∈ session.calls.dropLast, call.isTerminal = false) ∧
    (session.consumer.terminal = none → ∀ call ∈ session.calls, call.isTerminal = false)

section Runs

variable {contract : Contract} {job : Job} {cursor : Option ℕ} {session session' : Session}
  {resumable : StreamConsumer → Prop}

theorem frontier_saveGap (gap : GapRecovery) :
    (session.saveGap gap).consumer.frontier = session.consumer.frontier := by
  simp only [Session.saveGap, StreamConsumer.frontier, StreamConsumer.modifyPoint]
  cases session.consumer.point <;> rfl

theorem frontier_endWith (record : TerminalRecord) :
    (session.endWith record).consumer.frontier = session.consumer.frontier := by
  simp only [Session.endWith, StreamConsumer.frontier]
  cases session.consumer.point <;> rfl

theorem lose_eq_report (before : ℕ) (record : Pending) :
    ∃ call : SinkCall, call.seq? = none ∧ call.bound? = some before ∧ call.isTerminal = false ∧
      session.lose before record = (session.call call).withConsumer
        (session.consumer.setLastSeq (if before = 0 then none else some (before - 1))) := by
  refine ⟨_, ?_, ?_, ?_, rfl⟩ <;> cases record <;> try rfl
  all_goals dsimp only; split_ifs <;> rfl

theorem Move.kept (h : Move contract job resumable session session')
    (hk : Kept contract job cursor session) : Kept contract job cursor session' := by
  obtain ⟨hb, hr⟩ := hk
  cases h with
  | @deliver next record ho hne hf =>
    obtain ⟨rfl, hp⟩ := StreamConsumer.nextSeq_eq_ok hne
    have hh : job.Holds _ record :=
      hb.holds _ (find?_eq_some_iff.1 hf)
    refine ⟨hb.commit hf, ?_⟩
    have hc := hr.deliver (Pending.seq?_call _ _ record hh.seq_eq)
      (hh.owns (session.consumer.point.bind ResumePoint.lastOutputSeq))
    exact hc.withConsumer (Buffered.frontier_commit hp _ record)
  | @lose before record ho hhe =>
    obtain ⟨call, hseq, hbo, -, heq⟩ := lose_eq_report before record
    have hmem := mem_of_mem_head? hhe
    have hfr := StreamConsumer.frontier_setLastSeq (hb.opened (ne_nil_of_mem hmem)) before
    rw [heq]
    refine ⟨hb.setLastSeq fun entry hen => ?_, ?_⟩
    · rw [hfr]
      exact session.consumer.pending.head_le hhe hen
    · exact (hr.report hseq hbo (hb.ahead _ hmem)).withConsumer hfr
  | @truncate next before ho hne hlt =>
    obtain ⟨rfl, hp⟩ := StreamConsumer.nextSeq_eq_ok hne
    refine ⟨hb.truncate hp, ?_⟩
    have hc : Received contract job cursor (session.call (.truncated before)) before :=
      hr.report rfl rfl hlt.le
    exact hc.withConsumer (StreamConsumer.frontier_setLastSeq hp before)
  | @skip manifest gap ho hgap =>
    obtain ⟨hm, -, hp, hlt, -⟩ := expiredGap_eq_some hgap
    refine ⟨hb.skip hgap, ?_⟩
    rw [frontier_skip hp (hm ▸ hlt)]
    exact hr.skip hgap
  | @buffer seq record consumer ho hp hle hh hin =>
    obtain ⟨hnew, hfr⟩ := hb.insertPending hp hle hh hin
    exact ⟨hnew, hr.withConsumer hfr⟩
  | saveGap ho fromSeq record =>
    exact ⟨hb.saveGap, (hr.quiet_same rfl).withConsumer (frontier_saveGap _)⟩
  | endWith ho hpe record =>
    refine ⟨?_, ?_⟩
    · refine ⟨?_, hb.holds, ?_, hb.bytes, hb.budget, fun _ => rfl, hb.run⟩
      · rw [frontier_endWith]
        exact hb.ahead
      · rintro gap ⟨⟩
    · exact (hr.quiet_same rfl).withConsumer (frontier_endWith record)
  | accept ho hpe hfi accepted =>
    have hem : ∀ entry ∈ session.consumer.pending.entries, False := by
      rw [hpe]
      intro entry hen
      cases hen
    refine ⟨⟨fun entry hen => (hem entry hen).elim, hb.holds, ?_,
      hb.bytes, hb.budget, fun _ => rfl, hb.run⟩, ?_⟩
    · rintro gap ⟨⟩
    · refine (hr.quiet rfl ?_ fun n hn hle => .inr ?_).withConsumer rfl
      · rw [hfi]
        exact Nat.zero_le _
      · rcases hb.run with hno | hcu
        · simp [StreamConsumer.frontier, hno] at hn
        · cases hl : cursor with
          | none =>
            simp [StreamConsumer.frontier, hcu, hl] at hn
          | some last =>
            simp only [hcu, hl] at hn
            exact ⟨last, rfl, Nat.lt_succ_iff.1 hn⟩
  | progress ho text =>
    exact ⟨hb, hr.quiet_same rfl⟩
  | @resume point hre hp =>
    obtain ⟨hnew, hfr⟩ := hb.resume hp
    exact ⟨hnew, hr.withConsumer hfr⟩

theorem Sealed.call {call : SinkCall} (hs : Sealed session) (ho : session.consumer.terminal = none)
    (hc : call.isTerminal = false) : Sealed ((session.call call).withConsumer consumer) := by
  have hall : ∀ other ∈ session.calls ++ [call], other.isTerminal = false := by
    intro other hot
    rcases mem_append.1 hot with hold | hnew
    · exact hs.2 ho other hold
    · rw [mem_singleton.1 hnew]
      exact hc
  exact ⟨fun other hot => hall other (mem_of_mem_dropLast hot), fun _ => hall⟩

/-- A terminal stays the last call when only consumers without one are resumed. -/
theorem Move.sealed
    (h : Move contract job (fun consumer => consumer.terminal = none) session session')
    (hs : Sealed session) : Sealed session' := by
  cases h with
  | deliver ho hn hf => exact hs.call ho (Pending.isTerminal_call _ _ _)
  | @lose before record ho hh =>
    obtain ⟨call, -, -, hc, heq⟩ := lose_eq_report before record
    rw [heq]
    exact hs.call ho hc
  | truncate ho hn hlt => exact hs.call ho rfl
  | skip ho hgap => exact ⟨hs.1, fun _ => hs.2 ho⟩
  | buffer ho hp hle hho hin => exact ⟨hs.1, fun _ => hs.2 ho⟩
  | saveGap ho fromSeq record => exact hs.call ho rfl
  | endWith ho hpe record =>
    refine ⟨fun other hot => hs.2 ho other ?_, nofun⟩
    simpa [Session.endWith, Session.withConsumer, Session.call] using hot
  | accept ho hpe hfi accepted => exact hs.call ho rfl
  | progress ho text => exact hs.call ho rfl
  | resume hr hp => exact ⟨hs.1, fun _ => hs.2 hr⟩

theorem Moves.induct {P : Session → Prop}
    (hs : ∀ session session', Move contract job resumable session session' →
      P session → P session')
    (h : Moves contract job resumable session session') (hP : P session) : P session' := by
  induction h with
  | refl => exact hP
  | tail _ hm ih => exact hs _ _ hm ih

variable {event : Session.Event}

theorem closed_step (hc : session.Closed)
    (hs : ∀ record, event = .consume record → job.Sends record) :
    (session.step contract event).Closed :=
  Moves.induct (fun _ _ hm _ => hm.closed)
    (@moves_step _ _ (fun _ => True) _ _ hc hs fun _ => trivial) hc

/-- Whenever a consumer is resumed, its `finish` has no verdict. -/
def ResumesUnfinished (contract : Contract) : Session → List Session.Event → Prop
  | _, [] => True
  | session, event :: events =>
    (event = .resume → ∀ verdict, session.consumer.finish ≠ .ok verdict) ∧
      ResumesUnfinished contract (session.step contract event) events

theorem terminal_eq_none_of_finish (h : ∀ verdict, consumer.finish ≠ .ok verdict) :
    consumer.terminal = none := by
  cases ht : consumer.terminal with
  | none => rfl
  | some verdict => exact absurd (by simp [finish, ht]) (h verdict)

variable {events : List Session.Event}

section

variable (hs : ∀ record, .consume record ∈ events → job.Sends record) (hc : session.Closed)
include hs hc

theorem kept_run (hk : Kept contract job cursor session) :
    Kept contract job cursor (session.run contract events) := by
  induction events generalizing session with
  | nil => exact hk
  | cons event events ih =>
    have hev : ∀ record, event = .consume record → job.Sends record :=
      fun record heq => hs record (heq ▸ mem_cons_self)
    exact ih (fun record hmem => hs record (mem_cons_of_mem _ hmem))
      (closed_step hc hev) (Moves.induct (fun _ _ hm => hm.kept)
        (@moves_step _ _ (fun _ => True) _ _ hc hev fun _ => trivial) hk)

theorem sealed_run (hr : ResumesUnfinished contract session events)
    (hse : Sealed session) : Sealed (session.run contract events) := by
  induction events generalizing session with
  | nil => exact hse
  | cons event events ih =>
    have hev : ∀ record, event = .consume record → job.Sends record :=
      fun record heq => hs record (heq ▸ mem_cons_self)
    refine ih (fun record hmem => hs record (mem_cons_of_mem _ hmem)) (closed_step hc hev) hr.2
      (Moves.induct (fun _ _ hm => hm.sealed) (moves_step hc hev ?_) hse)
    exact fun heq => terminal_eq_none_of_finish (hr.1 heq)

end

theorem kept_start (cursor : Option ℕ) :
    Kept contract job cursor (Session.start (keyedRun cursor)) := by
  refine ⟨⟨?_, ?_, ?_, rfl, Nat.zero_le _, ?_, .inr rfl⟩, ⟨List.Pairwise.nil, ?_, ?_, ?_⟩⟩
  · rintro entry ⟨⟩
  · rintro entry ⟨⟩
  · rintro gap ⟨⟩
  · exact fun hp => absurd rfl hp
  · rintro n ⟨⟩
  · rintro call ⟨⟩
  · exact fun n hn => absurd hn (Nat.not_lt_zero n)

/-- Output is reassembled without silent loss over any chain of consumers and any delivery of the
records, and no call follows a terminal when only unfinished consumers are resumed. -/
theorem run_reassembles (contract : Contract) (job : Job) (cursor : Option ℕ)
    (events : List Session.Event)
    (hsends : ∀ record, .consume record ∈ events → job.Sends record) :
    let session := (Session.start (StreamConsumer.keyedRun cursor)).run contract events
    (delivered session.calls).Pairwise (· < ·) ∧
      (∀ call ∈ session.calls, job.Owns call) ∧
      (∀ point ∈ session.consumer.resumePoint, ∀ last ∈ point.lastSeq, ∀ n ≤ last,
        session.Accounts contract n ∨ ∃ behind ∈ cursor, n ≤ behind) ∧
      session.consumer.pendingBytes = bufferedBytes contract session.consumer.pending ∧
      session.consumer.pendingBytes ≤ 8 * 1024 * 1024 ∧
      (ResumesUnfinished contract (Session.start (StreamConsumer.keyedRun cursor)) events →
        ∀ call ∈ session.calls.dropLast, call.isTerminal = false) := by
  intro session
  obtain ⟨hbuffered, hreceived⟩ : Kept contract job cursor session :=
    kept_run hsends (.inl rfl) (kept_start cursor)
  refine ⟨hreceived.increasing, hreceived.owns, fun point hpoint last hlast n hn => ?_,
    hbuffered.bytes, hbuffered.budget, fun hresumes => ?_⟩
  · obtain ⟨original, horiginal, rfl⟩ := map_eq_some_iff.1 hpoint
    have hlast : original.lastSeq = some last := hlast
    refine hreceived.accounts n ?_
    simp only [StreamConsumer.frontier, horiginal, bind_some, hlast]
    omega
  · have hsealed : Sealed session := by
      refine sealed_run hsends (.inl rfl) hresumes ⟨?_, fun _ => ?_⟩
      · rintro call ⟨⟩
      · rintro call ⟨⟩
    exact hsealed.1

end Runs

/-! ## A finished consumer that is resumed -/

section Resumed

def plainContract : Contract := ⟨fun _ => 6, fun _ => 0, fun _ => 0, 64, 32768, fun _ _ => false⟩

def plainOutput (seq : ℕ) : Output := ⟨seq, .stdout, [104, 105], 2, none, le_rfl⟩

/-- A job that writes the same two bytes at every number. -/
def plainJob : Job where
  content n := .output (plainOutput n)
  expired _ := none
  content_seq := by
    rintro n seq ⟨⟩
    rfl
  expired_seq := by
    rintro n manifest ⟨⟩

def exitRecord : TerminalRecord := ⟨7, some .remote, .exit 0, none, none, true⟩

/-- An output reaches a finished consumer, which refuses it; the client attaches again. -/
def resumedEvents : List Session.Event :=
  [.consume (.accepted ⟨7⟩), .consume (.terminal exitRecord), .consume (.output (plainOutput 0)),
    .resume, .consume (.output (plainOutput 0)), .consume (.terminal exitRecord)]

theorem sends_resumedEvents (record : StreamRecord) (h : .consume record ∈ resumedEvents) :
    plainJob.Sends record := by
  simp only [resumedEvents, mem_cons, Session.Event.consume.injEq, not_mem_nil,
    or_false, reduceCtorEq, false_or] at h
  rcases h with rfl | rfl | rfl | rfl | rfl
  all_goals first | trivial | exact .inl rfl

/-- The sink receives the terminal, then output, then the terminal again. -/
theorem resumed_calls_after_terminal :
    (∀ record, .consume record ∈ resumedEvents → plainJob.Sends record) ∧
      ((Session.start StreamConsumer.new).run plainContract resumedEvents).calls =
        [.accepted ⟨7⟩, .terminal exitRecord (.exited 0), .output 0 .stdout [104, 105],
          .terminal exitRecord (.exited 0)] :=
  ⟨sends_resumedEvents, by decide +kernel⟩

/-- The first connection is lost before the terminal. -/
def lostEvents : List Session.Event :=
  [.consume (.accepted ⟨7⟩), .resume, .consume (.output (plainOutput 0)),
    .consume (.terminal exitRecord)]

theorem run_reassembles_lost_connection :
    (∀ record, .consume record ∈ lostEvents → plainJob.Sends record) ∧
      ∀ call ∈ ((Session.start (.keyedRun none)).run plainContract lostEvents).calls.dropLast,
        call.isTerminal = false := by
  have hs (record : StreamRecord) (h : .consume record ∈ lostEvents) : plainJob.Sends record := by
    refine sends_resumedEvents record ?_
    simp only [lostEvents, resumedEvents, mem_cons, Session.Event.consume.injEq, not_mem_nil,
      or_false, reduceCtorEq, false_or] at h ⊢
    rcases h with rfl | rfl | rfl <;> simp
  refine ⟨hs, (run_reassembles plainContract plainJob none _ hs).2.2.2.2.2 ⟨?_, ?_, ?_, ?_, trivial⟩⟩
  · rintro ⟨⟩
  · rintro - verdict ⟨⟩
  · rintro ⟨⟩
  · rintro ⟨⟩

end Resumed

end Aft.Remote
