import Aft.Remote.Stream

/-!
# Moves of a remote stream

A job has one fixed record for each number. `Move` lists what a session that consumes the records
of a job can do at once, with what is known when it does it; every function of the consumer is a
sequence of moves (`moves_step`), so that an invariant is one lemma per move.
-/

namespace Aft.Remote

open StreamConsumer Session

/-! ## Jobs -/

/-- The number that a record carries itself. -/
def Pending.seq? : Pending → Option ℕ
  | .output piece => some piece.seq
  | .started start => some start.seq
  | .returnChunk chunk => some chunk.seq
  | .returnManifest manifest => some manifest.seq
  | .unknown => none

/-- A record without its spare room and truncation mark, which differ between two deliveries. -/
def Pending.normal : Pending → Pending
  | .output piece =>
    .output { piece with
      capacity := piece.bytes.length
      truncatedBeforeSeq := none
      fits := piece.clone.fits }
  | record => record

/-- One fixed record for each number; a manifest may also come in an expired version. -/
structure Job where
  content : ℕ → Pending
  expired : ℕ → Option ReturnManifest
  content_seq : ∀ n, ∀ seq ∈ (content n).seq?, seq = n
  expired_seq : ∀ n, ∀ manifest ∈ expired n, manifest.seq = n

def Job.Holds (job : Job) (n : ℕ) (record : Pending) : Prop :=
  record.normal = (job.content n).normal ∨
    ∃ manifest ∈ job.expired n, record = .returnManifest manifest

def Job.Sends (job : Job) : StreamRecord → Prop
  | .started started => job.Holds started.seq (.started started)
  | .output output => job.Holds output.seq (.output output)
  | .returnChunk chunk => job.Holds chunk.seq (.returnChunk chunk)
  | .returnManifest manifest => job.Holds manifest.seq (.returnManifest manifest)
  | .unknown (some seq) => job.Holds seq .unknown
  | _ => True

/-- The number whose content a call hands over. -/
def SinkCall.seq? : SinkCall → Option ℕ
  | .started start => some start.seq
  | .output seq _ _ => some seq
  | .unknownOutput seq _ => some seq
  | .returnChunk chunk => some chunk.seq
  | .returnManifest manifest _ => some manifest.seq
  | _ => none

/-- The bound below which a call reports numbers as not coming. -/
def SinkCall.bound? : SinkCall → Option ℕ
  | .truncated before => some before
  | .undelivered before => some before
  | .expiredGapUnverified before => some before
  | _ => none

def SinkCall.isTerminal : SinkCall → Bool
  | .terminal _ _ => true
  | _ => false

/-- A call hands over what the job has at the call's number. -/
def Job.Owns (job : Job) (call : SinkCall) : Prop :=
  ∀ n ∈ call.seq?, ∃ record anchor, call = Pending.call n anchor record ∧
    (record = job.content n ∨ ∃ manifest ∈ job.expired n, record = .returnManifest manifest)

namespace Pending

theorem seq?_normal (record : Pending) : record.normal.seq? = record.seq? := by
  cases record <;> rfl

theorem normal_clone (record : Pending) : record.clone.normal = record.normal := by
  cases record <;> rfl

section

variable (next : ℕ) (anchor : Option ℕ) (record : Pending)

theorem call_normal : record.normal.call next anchor = record.call next anchor := by
  cases record <;> rfl

/-- The number of a call is the record's own where it has one. -/
theorem seq?_call
    (h : ∀ seq ∈ record.seq?, seq = next) : (record.call next anchor).seq? = some next := by
  cases record with
  | output piece => cases hs : piece.stream <;> simp [call, hs, SinkCall.seq?]
  | started | returnChunk | returnManifest => simpa [call, SinkCall.seq?, seq?] using h
  | unknown => rfl

theorem isTerminal_call : (record.call next anchor).isTerminal = false := by
  cases record with
  | output piece => cases hs : piece.stream <;> simp [call, hs, SinkCall.isTerminal]
  | _ => rfl

end

end Pending

namespace Job

variable {job : Job} {n : ℕ} {record : Pending}

theorem Holds.seq_eq (h : job.Holds n record) : ∀ seq ∈ record.seq?, seq = n := by
  rcases h with hn | ⟨manifest, hm, rfl⟩
  · rw [← record.seq?_normal, hn, Pending.seq?_normal]
    exact job.content_seq n
  · rintro seq hseq
    cases hseq
    exact job.expired_seq n manifest hm

theorem Holds.clone (h : job.Holds n record) : job.Holds n record.clone := by
  rcases h with hn | ⟨manifest, hm, rfl⟩
  · exact .inl (record.normal_clone.trans hn)
  · exact .inr ⟨manifest, hm, rfl⟩

theorem Holds.owns (h : job.Holds n record) (anchor : Option ℕ) :
    job.Owns (record.call n anchor) := by
  intro seq hseq
  rw [Pending.seq?_call n anchor record h.seq_eq] at hseq
  cases hseq
  rcases h with hn | ⟨manifest, hm, rfl⟩
  · refine ⟨job.content n, anchor, ?_, .inl rfl⟩
    rw [← Pending.call_normal, hn, Pending.call_normal]
  · exact ⟨_, anchor, rfl, .inr ⟨manifest, hm, rfl⟩⟩

end Job

/-! ## The cursor -/

namespace StreamConsumer

/-- The first number that the cursor has not passed. -/
def frontier (consumer : StreamConsumer) : ℕ :=
  match consumer.point.bind ResumePoint.lastSeq with
  | none => 0
  | some last => last + 1

/-- The terminal proof that waits for a gap to be filled. -/
def savedGap (consumer : StreamConsumer) : Option GapRecovery :=
  consumer.point.bind ResumePoint.gapRecovery

variable {consumer : StreamConsumer} {next : ℕ}

theorem nextSeq_eq_ok (h : consumer.nextSeq = .ok next) :
    consumer.frontier = next ∧ consumer.point.isSome := by
  unfold nextSeq at h
  split at h
  · cases h
  · next point hp =>
      unfold ResumePoint.fromSeq at h
      split at h
      · next hl =>
          cases h
          simp [frontier, hp, hl]
      · next last hl =>
          split_ifs at h
          cases h
          simp [frontier, hp, hl]

/-- Setting the cursor behind `before` makes `before` the next number. -/
theorem frontier_setLastSeq (h : consumer.point.isSome) (before : ℕ) :
    (consumer.setLastSeq (if before = 0 then none else some (before - 1))).frontier = before := by
  obtain ⟨point, hp⟩ := Option.isSome_iff_exists.1 h
  by_cases hz : before = 0
  · simp [setLastSeq, modifyPoint, frontier, hp, hz]
  · simp only [setLastSeq, modifyPoint, frontier, hp, hz, if_false, Option.map_some,
      Option.bind_some]
    omega

end StreamConsumer

/-! ## Moves -/

section

variable (contract : Contract) (job : Job) (resumable : StreamConsumer → Prop)

/-- What a session does at once. A consumer with a terminal only resumes, if it is `resumable`. -/
inductive Move : Session → Session → Prop
  | deliver {session next record} (hopen : session.consumer.terminal = none)
      (hnext : session.consumer.nextSeq = .ok next)
      (hfind : session.consumer.pending.find? next = some record) :
      Move session (session.deliver contract next record)
  | lose {session before record} (hopen : session.consumer.terminal = none)
      (hhead : session.consumer.pending.entries.head? = some (before, record)) :
      Move session (session.lose before record)
  | truncate {session next before} (hopen : session.consumer.terminal = none)
      (hnext : session.consumer.nextSeq = .ok next) (hlt : next < before) :
      Move session
        ((session.call (.truncated before)).withConsumer
          (session.consumer.truncate contract before))
  | skip {session manifest gap} (hopen : session.consumer.terminal = none)
      (hgap : session.consumer.expiredGap contract manifest = .ok (some gap)) :
      Move session (session.skip gap)
  | buffer {session seq record consumer} (hopen : session.consumer.terminal = none)
      (hpoint : session.consumer.point.isSome) (hle : session.consumer.frontier ≤ seq)
      (hholds : job.Holds seq record)
      (hinsert : session.consumer.insertPending contract seq record = .ok consumer) :
      Move session (session.withConsumer consumer)
  | saveGap {session} (hopen : session.consumer.terminal = none) (fromSeq : ℕ)
      (record : TerminalRecord) :
      Move session
        (session.saveGap (session.consumer.gapAt fromSeq record))
  | endWith {session} (hopen : session.consumer.terminal = none)
      (hpending : session.consumer.pending.entries = []) (record : TerminalRecord) :
      Move session (session.endWith record)
  | accept {session} (hopen : session.consumer.terminal = none)
      (hpending : session.consumer.pending.entries = [])
      (hfirst : session.consumer.frontier = 0) (accepted : Accepted) :
      Move session
        ((session.call (.accepted accepted)).withConsumer
          { session.consumer with
            point := some ⟨accepted.jobId, session.consumer.runCursor, none, none⟩
            accepted := true })
  | progress {session} (hopen : session.consumer.terminal = none) (text : String) :
      Move session (session.call (.admissionProgress text))
  | resume {session point} (hresumable : resumable session.consumer)
      (hpoint : session.consumer.resumePoint = some point) :
      Move session
        (session.withConsumer (StreamConsumer.resume contract point))

def Moves : Session → Session → Prop := Relation.ReflTransGen (Move contract job resumable)

/-- Open sessions related by moves that leave them open. -/
def MovesOpen (session session' : Session) : Prop :=
  Moves contract job resumable session session' ∧ session'.consumer.terminal = none

end

/-! ## Functions as moves -/

section Moves

variable {contract : Contract} {job : Job} {resumable : StreamConsumer → Prop}
  {session : Session}

theorem MovesOpen.refl (ho : session.consumer.terminal = none) :
    MovesOpen contract job resumable session session := ⟨.refl, ho⟩

variable {session' session'' : Session}

theorem MovesOpen.head (hm : Move contract job resumable session session')
    (hmo : MovesOpen contract job resumable session' session'') :
    MovesOpen contract job resumable session session'' := ⟨.head hm hmo.1, hmo.2⟩

theorem MovesOpen.trans (hm : MovesOpen contract job resumable session session')
    (hm' : MovesOpen contract job resumable session' session'') :
    MovesOpen contract job resumable session session'' := ⟨hm.1.trans hm'.1, hm'.2⟩

theorem movesOpen_drainLoop (fuel : ℕ) (ho : session.consumer.terminal = none) :
    MovesOpen contract job resumable session (session.drainLoop contract fuel).2 := by
  induction fuel generalizing session with
  | zero => exact .refl ho
  | succ fuel ih =>
    unfold drainLoop
    split
    · exact .refl ho
    · next next hn =>
        split
        · exact .refl ho
        · next record hf => exact .head (.deliver ho hn hf) (ih ho)

theorem movesOpen_drain (ho : session.consumer.terminal = none) :
    MovesOpen contract job resumable session (session.drain contract).2 :=
  movesOpen_drainLoop _ ho

variable {seq : ℕ}

theorem terminal_insertPending {consumer consumer' : StreamConsumer} {record : Pending}
    (h : consumer.insertPending contract seq record = .ok consumer') :
    consumer'.terminal = consumer.terminal := by
  unfold insertPending at h
  dsimp only at h
  split_ifs at h
  cases h
  rfl

theorem movesOpen_enqueue {record : Pending} (ho : session.consumer.terminal = none)
    (hh : job.Holds seq record) :
    MovesOpen contract job resumable session (session.enqueue contract seq record).2 := by
  unfold enqueue
  split
  · exact .refl ho
  · next next hn =>
      split_ifs with hb hbu
      · exact .refl ho
      · exact movesOpen_drain ho
      · split
        · exact .refl ho
        · next consumer hin =>
            obtain ⟨rfl, hp⟩ := nextSeq_eq_ok hn
            exact .head (.buffer ho hp (not_lt.1 hb) hh hin)
              (movesOpen_drain ((terminal_insertPending hin).trans ho))

theorem movesOpen_losePendingLoop (fuel : ℕ) (ho : session.consumer.terminal = none) :
    MovesOpen contract job resumable session (session.losePendingLoop contract fuel).2 := by
  induction fuel generalizing session with
  | zero => exact .refl ho
  | succ fuel ih =>
    unfold losePendingLoop
    split
    · exact .refl ho
    · next before record hh =>
        have hd : MovesOpen contract job resumable (session.lose before record) _ :=
          movesOpen_drain ho
        split
        · next error after haf =>
            rw [haf] at hd
            exact .head (.lose ho hh) hd
        · next after haf =>
            rw [haf] at hd
            exact (MovesOpen.head (.lose ho hh) hd).trans (ih hd.2)

theorem movesOpen_losePending (ho : session.consumer.terminal = none) :
    MovesOpen contract job resumable session (session.losePending contract).2 := by
  unfold losePending
  have hd : MovesOpen contract job resumable session _ := movesOpen_drain ho
  split
  · next error after haf =>
      rw [haf] at hd
      exact hd
  · next after haf =>
      rw [haf] at hd
      exact hd.trans (movesOpen_losePendingLoop _ hd.2)

/-! The rounds of `drain` and `losePending` are enough: each takes a record out of the buffer. -/

variable {fuel : ℕ} {after : Session}

/-- A loop with enough rounds stops at a number that is not buffered. -/
theorem find?_drainLoop (hf : session.consumer.pending.size < fuel)
    (h : session.drainLoop contract fuel = (.ok (), after)) :
    ∃ next, after.consumer.nextSeq = .ok next ∧ after.consumer.pending.find? next = none := by
  induction fuel generalizing session with
  | zero => omega
  | succ fuel ih =>
    unfold drainLoop at h
    split at h
    · cases h
    · next next hn =>
        split at h
        · next hfi =>
            cases h
            exact ⟨next, hn, hfi⟩
        · next record hfi =>
            refine ih ?_ h
            have := SortedMap.size_erase_of_some hfi
            simp only [deliver, withConsumer, commit]
            omega

theorem size_drainLoop_le (fuel : ℕ) :
    (session.drainLoop contract fuel).2.consumer.pending.size ≤ session.consumer.pending.size := by
  induction fuel generalizing session with
  | zero => exact le_rfl
  | succ fuel ih =>
    unfold drainLoop
    split
    · exact le_rfl
    · split
      · exact le_rfl
      · next next hn record hf =>
          refine ih.trans ?_
          have := SortedMap.size_erase_of_some hf
          simp only [deliver, withConsumer, commit]
          omega

/-- Draining takes a record out of the buffer when the next one is there. -/
theorem size_drain_lt {record : Pending}
    (hf : session.consumer.pending.find? session.consumer.frontier = some record)
    (h : session.drain contract = (.ok (), after)) :
    after.consumer.pending.size < session.consumer.pending.size := by
  unfold drain drainLoop at h
  split at h
  · cases h
  · next next hn =>
      rw [(nextSeq_eq_ok hn).1] at hf
      simp only [hf] at h
      have hle := @size_drainLoop_le contract (session.deliver contract next record)
        session.consumer.pending.size
      have := SortedMap.size_erase_of_some hf
      rw [h] at hle
      simp only [deliver, withConsumer, commit] at hle
      omega

/-- Once the gaps are given up nothing is buffered. -/
theorem pending_losePendingLoop (hp : session.consumer.point.isSome)
    (hf : session.consumer.pending.size < fuel)
    (h : session.losePendingLoop contract fuel = (.ok (), after)) :
    after.consumer.pending.entries = [] := by
  induction fuel generalizing session with
  | zero => omega
  | succ fuel ih =>
    unfold losePendingLoop at h
    split at h
    · next hh =>
        cases h
        exact List.head?_eq_none_iff.1 hh
    · next before record hh =>
        have hfi : session.consumer.pending.find? before = some record :=
          SortedMap.find?_eq_some_iff.2 (List.mem_of_mem_head? hh)
        split at h
        · cases h
        · next middle hm =>
            have hlt : middle.consumer.pending.size < session.consumer.pending.size := by
              refine @size_drain_lt _ (session.lose before record) _ record ?_ hm
              have hfr := frontier_setLastSeq hp before
              simp only [lose, withConsumer]
              rw [hfr]
              exact hfi
            obtain ⟨next, hn, -⟩ := find?_drainLoop (Nat.lt_succ_self _) hm
            exact ih (nextSeq_eq_ok hn).2 (by omega) h

theorem pending_losePending (h : session.losePending contract = (.ok (), after)) :
    after.consumer.pending.entries = [] := by
  unfold losePending at h
  split at h
  · cases h
  · next middle hm =>
      obtain ⟨next, hn, -⟩ := find?_drainLoop (Nat.lt_succ_self _) hm
      exact pending_losePendingLoop (nextSeq_eq_ok hn).2 (Nat.lt_succ_self _) h

section

variable (ho : session.consumer.terminal = none)
include ho

theorem moves_consumeTerminal (record : TerminalRecord) :
    Moves contract job resumable session (session.consumeTerminal contract record).2 := by
  unfold consumeTerminal
  split
  · exact .refl
  · split_ifs with hp
    · exact .single (.endWith ho hp record)
    · split
      · exact .refl
      · next fromSeq hn =>
          have hs : MovesOpen contract job resumable session
              (session.saveGap (session.consumer.gapAt fromSeq record)) :=
            .head (.saveGap ho fromSeq record) (.refl ho)
          dsimp only
          split_ifs
          · exact hs.1
          · have hl := hs.trans (movesOpen_losePending hs.2)
            split
            · next error after haf =>
                rw [haf] at hl
                exact hl.1
            · next after haf =>
                rw [haf] at hl
                exact hl.1.tail (.endWith hl.2 (pending_losePending haf) record)

theorem moves_consumeAccepted (accepted : Accepted) :
    Moves contract job resumable session (session.consumeAccepted accepted).2 := by
  unfold consumeAccepted
  split_ifs with hr
  · exact .refl
  · split
    · exact .refl
    · push Not at hr
      obtain ⟨-, hp, hc⟩ := hr
      refine .single (.accept ho hp ?_ accepted)
      unfold StreamConsumer.frontier
      cases hpo : session.consumer.point with
      | none => rfl
      | some point =>
        have hl : point.lastSeq = none := by simpa [hpo] using hc
        simp [hl]

theorem movesOpen_consumeOutput {output : Output} (hh : job.Holds output.seq (.output output)) :
    MovesOpen contract job resumable session (session.consumeOutput contract output).2 := by
  unfold consumeOutput
  split
  · exact movesOpen_enqueue ho hh
  · next before hb =>
      split_ifs
      · exact .refl ho
      · split
        · exact .refl ho
        · next next hn =>
            split_ifs with hlt
            · exact .head (.truncate ho hn hlt) (movesOpen_enqueue ho hh)
            · exact movesOpen_enqueue ho hh

end

variable {manifest : ReturnManifest} {gap : ExpiredGap}

theorem expiredGap_eq_some {consumer : StreamConsumer}
    (h : consumer.expiredGap contract manifest = .ok (some gap)) :
    gap.manifest = manifest ∧ gap.fromSeq = consumer.frontier ∧ consumer.point.isSome ∧
      consumer.frontier < manifest.seq ∧
      (∀ entry ∈ consumer.pending.entries, manifest.seq ≤ entry.1) ∧
      manifest.hasExpiredEntry = true ∧
      manifest.expiredGapMatches contract gap.lastOutputSeq = true := by
  unfold expiredGap at h
  split at h
  · cases h
  · next next hn =>
      obtain ⟨hf, hp⟩ := nextSeq_eq_ok hn
      split_ifs at h with hg
      · cases h
      · simp only [not_or, not_not, not_le] at hg
        obtain ⟨-, hlt, hno, hexp⟩ := hg
        split at h
        · cases h
        · split_ifs at h with hm
          · cases h
            refine ⟨rfl, hf.symm, hp, hf ▸ hlt, ?_, hexp, hm⟩
            simpa using hno
          · cases h

theorem movesOpen_consumeExpired (ho : session.consumer.terminal = none)
    (hp : session.consumer.point.isSome) (hle : session.consumer.frontier ≤ manifest.seq)
    (hh : job.Holds manifest.seq (.returnManifest manifest)) :
    MovesOpen contract job resumable session (session.consumeExpired contract manifest).2 := by
  unfold consumeExpired
  split
  · split_ifs
    · exact movesOpen_enqueue ho hh
    · split
      · exact .refl ho
      · next consumer hin =>
          exact .head (.buffer ho hp hle hh hin)
            (movesOpen_drain ((terminal_insertPending hin).trans ho))
  · exact movesOpen_enqueue ho hh

theorem frontier_skip (hp : session.consumer.point.isSome)
    (hlt : session.consumer.frontier < gap.manifest.seq) :
    (session.skip gap).consumer.frontier = gap.manifest.seq := by
  obtain ⟨point, hp⟩ := Option.isSome_iff_exists.1 hp
  simp only [skip, StreamConsumer.setLastSeq, StreamConsumer.modifyPoint,
    StreamConsumer.frontier, hp, Option.map_some, Option.bind_some]
  omega

theorem movesOpen_consumeManifest (ho : session.consumer.terminal = none)
    (hh : job.Holds manifest.seq (.returnManifest manifest)) :
    MovesOpen contract job resumable session (session.consumeManifest contract manifest).2 := by
  unfold consumeManifest
  split
  · exact .refl ho
  · split
    · exact .refl ho
    · next gap hgap =>
        obtain ⟨hm, -, hp, hlt, -⟩ := expiredGap_eq_some hgap
        subst hm
        refine .head (.skip ho hgap) (movesOpen_consumeExpired ho ?_ ?_ hh)
        · simpa [skip, setLastSeq, modifyPoint] using hp
        · exact (frontier_skip hp hlt).le
    · exact movesOpen_enqueue ho hh

theorem moves_consume {record : StreamRecord} (hs : job.Sends record) :
    Moves contract job resumable session (session.consume contract record).2 := by
  unfold consume
  split
  · split_ifs with hf
    · exact .single (.progress (by simpa using hf.2.2) _)
    · exact .refl
  · split_ifs with ht
    · exact .refl
    · have ho : session.consumer.terminal = none := by simpa using ht
      split
      · exact .refl
      · exact moves_consumeAccepted ho _
      · exact (movesOpen_enqueue ho hs).1
      · exact (movesOpen_consumeOutput ho hs).1
      · exact moves_consumeTerminal ho _
      · split
        · exact .refl
        · exact (movesOpen_enqueue ho hs).1
      · exact (movesOpen_consumeManifest ho hs).1
      · exact .refl
      · exact (movesOpen_enqueue ho hs).1
      · exact .refl

theorem moves_finishRecovery :
    Moves contract job resumable session (session.finishRecovery contract).2 := by
  unfold finishRecovery
  split
  · next gap ht hgap =>
      have hc : Moves contract job resumable session
          (session.consume contract (.terminal gap.terminal)).2 := moves_consume trivial
      split
      · next error after haf =>
          rw [haf] at hc
          exact hc
      · next after haf =>
          rw [haf] at hc
          exact hc
  · exact .refl

def Session.Closed (session : Session) : Prop :=
  session.consumer.terminal = none ∨ session.consumer.savedGap = none

theorem moves_finishLostOutput (hc : session.Closed) :
    Moves contract job resumable session (session.finishLostOutput contract).2 := by
  unfold finishLostOutput
  split
  · exact .refl
  · next gap hgap =>
      have ho : session.consumer.terminal = none :=
        hc.resolve_right fun hn => Option.some_ne_none gap (hgap.symm.trans hn)
      have hl : MovesOpen contract job resumable session _ := movesOpen_losePending ho
      split
      · next error after haf =>
          rw [haf] at hl
          exact hl.1
      · next after haf =>
          rw [haf] at hl
          have hco : Moves contract job resumable after
              (after.consume contract (.terminal gap.terminal)).2 := moves_consume trivial
          split
          · next error last hla =>
              rw [hla] at hco
              exact hl.1.trans hco
          · next last hla =>
              rw [hla] at hco
              exact hl.1.trans hco

/-- What happens to a session is made of moves. -/
theorem moves_step {event : Session.Event} (hc : session.Closed)
    (hs : ∀ record, event = .consume record → job.Sends record)
    (hr : event = .resume → resumable session.consumer) :
    Moves contract job resumable session (session.step contract event) := by
  cases event with
  | consume record => exact moves_consume (hs record rfl)
  | finishRecovery => exact moves_finishRecovery
  | finishLostOutput => exact moves_finishLostOutput hc
  | resume =>
    unfold step
    dsimp only
    split
    · exact .refl
    · next point hp => exact .single (.resume (hr rfl) hp)

theorem Move.closed (h : Move contract job resumable session session') : session'.Closed := by
  cases h with
  | deliver ho hn hf => exact .inl ho
  | lose ho hh => exact .inl ho
  | truncate ho hn hlt => exact .inl ho
  | skip ho hgap => exact .inl ho
  | buffer ho hp hle hho hin =>
    exact .inl ((terminal_insertPending hin).trans ho)
  | saveGap ho fromSeq record => exact .inl ho
  | endWith ho hpe record => exact .inr rfl
  | accept ho hpe hfi accepted => exact .inl ho
  | progress ho text => exact .inl ho
  | resume hr hp => exact .inl rfl

end Moves

end Aft.Remote
