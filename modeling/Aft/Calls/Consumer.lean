import Aft.Calls.Numbering

/-!
# A consumer that follows the cursor

A page serves, of the candidates after its cursor, those up to the new cursor that are still owed
when it ends (`served_of_owed`), in order, and all of them when it says that there is no more. A
consumer that passes each page's cursor back receives everything once: its cursor separates what it
has received from what it is owed.
-/

namespace Aft.Calls

open List Ledger

variable {withHeld : Bool}

namespace Ledger

/-! ## The query of a page -/

variable {ledger : Ledger} {custodian : String} {candidate : Candidate}

theorem mem_after {since : ℕ} :
    candidate ∈ ledger.after custodian withHeld since ↔
      candidate ∈ ledger.outstanding custodian withHeld ∧ since < candidate.seq := by
  simp [after]

theorem mem_lateRows (h : candidate ∈ ledger.lateRows custodian) :
    candidate.update = false ∧ (ledger.get candidate.key).isSome := by
  obtain ⟨⟨key, row⟩, hmem, hc⟩ := mem_filterMap.1 h
  split_ifs at hc
  obtain ⟨seq, -, rfl⟩ := Option.map_eq_some_iff.1 hc
  exact ⟨rfl, Option.isSome_iff_exists.2 ⟨row, SortedMap.find?_eq_some_iff.2 hmem⟩⟩

theorem mem_heldUpdates (h : candidate ∈ ledger.heldUpdates custodian) :
    candidate.update = true ∧ ∃ update ∈ ledger.updates, update.key = candidate.key ∧
      update.seq = candidate.seq ∧ update.entry.isSome := by
  obtain ⟨update, hmem, hc⟩ := mem_filterMap.1 h
  split_ifs at hc with hs
  cases hc
  exact ⟨rfl, update, hmem, rfl, rfl, hs.2⟩

/-- What is outstanding is what is owed, without the updates when they are off. -/
theorem mem_outstanding :
    candidate ∈ ledger.outstanding custodian withHeld ↔
      candidate ∈ ledger.owed custodian ∧ (candidate.update = true → withHeld = true) := by
  rw [mem_owed]
  cases withHeld with
  | true => simp
  | false =>
    have hrow : candidate ∈ ledger.lateRows custodian → candidate.update = false :=
      fun h => (mem_lateRows h).1
    have hh : candidate ∈ ledger.heldUpdates custodian → candidate.update = true :=
      fun h => (mem_heldUpdates h).1
    simp only [outstanding]
    grind

theorem notMem_owed_clearUpdates (hu : candidate.update = true) :
    candidate ∉ (ledger.clearUpdates fun update =>
      update.key = candidate.key ∧ update.seq = candidate.seq).owed custodian := by
  intro ho
  rcases Multiset.mem_add.1 ho with hrow | hh
  · have hnot := (mem_lateRows (Multiset.mem_coe.1 hrow)).1
    simp [hu] at hnot
  · obtain ⟨-, update, hmem, hkey, hseq, hs⟩ := mem_heldUpdates (Multiset.mem_coe.1 hh)
    obtain ⟨old, -, rfl⟩ := mem_map.1 hmem
    split_ifs at hkey hseq hs with hc
    · simp at hs
    · simp [hkey, hseq] at hc

/-- A call without a row is not owed. -/
theorem notMem_owed_of_get_none (hu : candidate.update ≠ true)
    (hn : ledger.get candidate.key = none) : candidate ∉ ledger.owed custodian := by
  intro ho
  rcases Multiset.mem_add.1 ho with hrow | hh
  · have hs := (mem_lateRows (Multiset.mem_coe.1 hrow)).2
    simp [hn] at hs
  · exact hu (mem_heldUpdates (Multiset.mem_coe.1 hh)).1

/-- The candidates of a page have strictly increasing numbers. -/
theorem pairwise_after (h : ledger.WellNumbered custodian) (withHeld : Bool) (since : ℕ) :
    (ledger.after custodian withHeld since).Pairwise fun a b => a.seq < b.seq := by
  have hs : (ledger.outstanding custodian withHeld).Sublist
      (ledger.outstanding custodian true) := by
    cases withHeld with
    | false => simp [outstanding]
    | true => exact List.Sublist.refl _
  have hn : ((ledger.outstanding custodian true).map Candidate.seq).Nodup := by
    have ho := h.nodup
    exact ho
  have hp : ((ledger.after custodian withHeld since).map Candidate.seq).Perm
      (((ledger.outstanding custodian withHeld).filter fun candidate =>
        since < candidate.seq).map Candidate.seq) := (perm_insertionSort ..).map _
  have hd : (ledger.after custodian withHeld since).Pairwise fun a b => a.seq ≠ b.seq := by
    rw [← pairwise_map]
    exact hp.nodup_iff.2 (hn.sublist ((filter_sublist.trans hs).map _))
  have hso : (ledger.after custodian withHeld since).Pairwise fun a b => a.seq ≤ b.seq :=
    pairwise_insertionSort _ _
  exact (hso.and hd).imp fun h => lt_of_le_of_ne h.1 h.2

end Ledger

/-! ## Serving -/

variable {complete : Bool} {custodian : String} {ledger : Ledger}

namespace Serving

variable {serving serving' : Serving} {overhead maxBody : ℕ} {now : ℤ} {candidate : Candidate}
  {continues : Bool}

variable {candidates : List Candidate}

/-- What a page leaves owed was owed before. -/
theorem owed_serve_le (custodian : String)
    (h : serve overhead maxBody now candidates serving = some (serving', complete)) :
    serving'.ledger.owed custodian ≤ serving.ledger.owed custodian :=
  ((edits_serve h).1.advances custodian).owed_le (congrFun (edits_serve h).2 custodian)

variable (custodian serving serving' candidate) in
/-- What became of a candidate: served, dropped with nothing owed for it, or left for the next
page. -/
inductive Outcome : Bool → Prop
  | served (entry : Json) (hserved : serving'.served = serving.served ++ [⟨candidate, entry⟩])
      (hlast : serving'.last = candidate.seq) : Outcome true
  | dropped (hserved : serving'.served = serving.served)
      (hlast : serving'.last = candidate.seq ∨ serving'.last = serving.last)
      (howed : candidate ∉ serving'.ledger.owed custodian) : Outcome true
  | left (hserved : serving'.served = serving.served) (hlast : serving'.last = serving.last) :
      Outcome false

variable {entry : Json}

theorem outcome_serveOne
    (h : serving.serveOne overhead maxBody now candidate = some (serving', continues)) :
    Outcome custodian serving serving' candidate continues := by
  rcases serveOne_cases h with ⟨hu, rfl, rfl⟩ | ⟨hu, hn, rfl, rfl⟩ | ⟨ledger, entry, -, -, hadd⟩
  · exact .dropped rfl (.inl rfl) (notMem_owed_clearUpdates hu)
  · exact .dropped rfl (.inr rfl) (notMem_owed_of_get_none hu hn)
  · unfold add at hadd
    split_ifs at hadd
    all_goals cases hadd
    · exact .left rfl rfl
    · exact .served entry rfl rfl

structure Serves (custodian : String) (candidates : List Candidate) (serving serving' : Serving)
    (complete : Bool) (new : List Served) : Prop where
  served : serving'.served = serving.served ++ new
  sublist : (new.map Served.candidate).Sublist candidates
  last : serving'.last = serving.last ∨ ∃ candidate ∈ candidates, serving'.last = candidate.seq
  le_last : ∀ item ∈ new, item.candidate.seq ≤ serving'.last
  dealt : ∀ candidate ∈ candidates, candidate ∈ new.map Served.candidate ∨
    candidate ∉ serving'.ledger.owed custodian ∨ complete = false ∧ serving'.last < candidate.seq

theorem exists_serves (custodian : String)
    (h : serve overhead maxBody now candidates serving = some (serving', complete))
    (hs : candidates.Pairwise fun a b => a.seq < b.seq)
    (hl : ∀ candidate ∈ candidates, serving.last < candidate.seq) :
    ∃ new, Serves custodian candidates serving serving' complete new := by
  induction candidates generalizing serving with
  | nil =>
    cases h
    exact ⟨[], by simp, by simp, .inl rfl, by simp, by simp⟩
  | cons candidate rest ih =>
    obtain ⟨⟨middle, continues⟩, hone, hr⟩ := Option.bind_eq_some_iff.1 h
    obtain ⟨hf, hs⟩ := pairwise_cons.1 hs
    have ho : Outcome custodian serving middle candidate continues := outcome_serveOne hone
    cases ho with
    | served entry hse hm =>
      obtain ⟨new, hnew⟩ := ih hr hs fun other hot =>
        hm ▸ hf other hot
      refine ⟨⟨candidate, entry⟩ :: new, ?_, hnew.sublist.cons_cons candidate, ?_, ?_, ?_⟩
      · rw [hnew.served, hse, append_assoc]
        rfl
      · rcases hnew.last with hl' | ⟨other, hot, hl'⟩
        · exact .inr ⟨candidate, mem_cons_self, hl'.trans hm⟩
        · exact .inr ⟨other, mem_cons_of_mem _ hot, hl'⟩
      · intro item hite
        rcases mem_cons.1 hite with rfl | hite
        · rcases hnew.last with hl' | ⟨other, hot, hl'⟩
          · exact (hl'.trans hm).ge
          · exact hl' ▸ (hf other hot).le
        · exact hnew.le_last item hite
      · intro other hot
        rcases mem_cons.1 hot with rfl | hot
        · exact .inl mem_cons_self
        · exact (hnew.dealt other hot).imp_left (mem_cons_of_mem _)
    | dropped hse hm howe =>
      obtain ⟨new, hnew⟩ := ih hr hs fun other hot => by
        have hlow := hl other (mem_cons_of_mem _ hot)
        have hh := hf other hot
        omega
      refine ⟨new, hnew.served.trans (by rw [hse]), hnew.sublist.cons candidate, ?_,
        hnew.le_last, ?_⟩
      · rcases hnew.last with hl' | ⟨other, hot, hl'⟩
        · rcases hm with hm | hm
          · exact .inr ⟨candidate, mem_cons_self, hl'.trans hm⟩
          · exact .inl (hl'.trans hm)
        · exact .inr ⟨other, mem_cons_of_mem _ hot, hl'⟩
      · intro other hot
        rcases mem_cons.1 hot with rfl | hot
        · refine .inr (.inl fun ho' => howe ?_)
          exact Multiset.mem_of_le (owed_serve_le custodian hr) ho'
        · exact hnew.dealt other hot
    | left hse hm =>
      cases hr
      refine ⟨[], by simp [hse], by simp, .inl hm, by simp, fun other hot => ?_⟩
      exact .inr (.inr ⟨rfl, hm ▸ hl other hot⟩)

/-! ## The size of a page -/

/-- The size counts the wrapper, the entries and the commas, and a page with an entry fits. -/
structure Sized (overhead maxBody : ℕ) (serving : Serving) : Prop where
  size : serving.size = overhead + (serving.served.map fun item => item.entry.size).sum +
    (serving.served.length - 1)
  fits : serving.served = [] ∨ serving.size ≤ maxBody

section

variable (h : Sized overhead maxBody serving)
include h

theorem Sized.of_eq (hs : serving'.size = serving.size) (hse : serving'.served = serving.served) :
    Sized overhead maxBody serving' := by
  refine ⟨?_, ?_⟩
  · rw [hs, hse]
    exact h.size
  · rw [hs, hse]
    exact h.fits

theorem Sized.add
    (hadd : { serving with ledger }.add maxBody candidate entry = (serving', continues)) :
    Sized overhead maxBody serving' := by
  unfold Serving.add at hadd
  split_ifs at hadd with hf
  all_goals cases hadd
  · exact h.of_eq rfl rfl
  · refine ⟨?_, .inr (not_lt.1 hf)⟩
    have hs := h.size
    cases hse : serving.served with
    | nil => simp_all [added]
    | cons item rest =>
      simp only [hse, added] at hs ⊢
      simp [hs]
      omega

theorem Sized.serveOne
    (hone : serving.serveOne overhead maxBody now candidate = some (serving', continues)) :
    Sized overhead maxBody serving' := by
  rcases serveOne_cases hone with ⟨-, -, rfl⟩ | ⟨-, -, -, rfl⟩ | ⟨ledger, entry, -, -, hadd⟩
  · exact h.of_eq rfl rfl
  · exact h
  · exact h.add hadd

theorem Sized.serve
    (hs : Serving.serve overhead maxBody now candidates serving = some (serving', complete)) :
    Sized overhead maxBody serving' := by
  induction candidates generalizing serving with
  | nil =>
    cases hs
    exact h
  | cons candidate rest ih =>
    obtain ⟨⟨middle, continues⟩, hone, hr⟩ := Option.bind_eq_some_iff.1 hs
    dsimp only at hr
    split_ifs at hr
    · exact ih (h.serveOne hone) hr
    · cases hr
      exact h.serveOne hone

end

end Serving

/-! ## Pages -/

/-- The page without its entries. -/
def Page.emptied (page : Page) : Page := { page with served := [] }

theorem Page.size_reply (page : Page) :
    page.reply.size = page.emptied.reply.size +
      (page.served.map fun item => item.entry.size).sum + (page.served.length - 1) := by
  simp only [Page.reply, Page.emptied, Json.size_object, map_cons, map_nil,
    sum_cons, sum_nil, length_cons, length_nil, Json.size_array, map_map,
    length_map, Function.comp_def]
  omega

/-- The wrapper of a page is no larger than the overhead. -/
theorem Page.size_emptied_le (page : Page) (h : page.cursor.seq < 2 ^ 63) :
    page.emptied.reply.size ≤ overhead page.cursor.providerIncarnation := by
  have hseq : (Json.ofNat page.cursor.seq).size ≤ 20 :=
    Json.size_ofNat_le (by omega) (h.trans (by norm_num))
  have hl : (Json.ofNat (2 ^ 64 - 1)).size = 20 := by decide +kernel
  have hm : (Json.bool page.more).size ≤ (Json.bool false).size := by
    cases page.more <;> decide
  simp only [overhead, Page.reply, Page.emptied, Json.size_object, map_cons, sum_cons, length_cons]
  omega

structure Page.Sound (custodian : String) (withHeld : Bool) (since : ℕ) (maxBody : ℕ)
    (next : Ledger) (page : Page) : Prop where
  increasing : (page.served.map fun item => item.candidate.seq).Pairwise (· < ·)
  since_lt : ∀ item ∈ page.served, since < item.candidate.seq
  le_cursor : ∀ item ∈ page.served, item.candidate.seq ≤ page.cursor.seq
  since_le : since ≤ page.cursor.seq
  cursor_le : page.cursor.seq ≤ next.lastSeq custodian
  served : ∀ candidate ∈ next.outstanding custodian withHeld, since < candidate.seq →
    candidate.seq ≤ page.cursor.seq ∨ page.more = false →
    candidate ∈ page.served.map Served.candidate
  size : page.emptied.reply.size ≤ maxBody → page.reply.size ≤ maxBody

variable {incarnation : String} {since : Option Cursor}

theorem checkSince_le {head : ℕ} (h : checkSince incarnation head since = true) :
    (since.map Cursor.seq).getD 0 ≤ head := by
  cases since with
  | none => exact Nat.zero_le _
  | some cursor =>
    simp only [checkSince, Option.all_some, Bool.and_eq_true, decide_eq_true_eq] at h
    exact h.2

/-- Serving the first `cap` candidates after a cursor. -/
theorem sound_of_serve {since cap maxBody : ℕ} {now : ℤ} {serving : Serving} {more : Bool}
    (hn : ledger.WellNumbered custodian) (hs : since ≤ ledger.lastSeq custodian)
    (hse : Serving.serve (overhead incarnation) maxBody now
      ((ledger.after custodian withHeld since).take cap)
      { ledger, size := overhead incarnation, last := since } = some (serving, complete))
    (hm : more = false → complete = true ∧ (ledger.after custodian withHeld since).length ≤ cap) :
    Page.Sound custodian withHeld since maxBody serving.ledger
      ⟨serving.served, ⟨incarnation, serving.last⟩, more⟩ := by
  have hso := pairwise_after hn withHeld since
  have haf : ∀ candidate ∈ (ledger.after custodian withHeld since).take cap,
      since < candidate.seq := fun candidate hmem =>
    (mem_after.1 (mem_of_mem_take hmem)).2
  obtain ⟨new, hnew⟩ := Serving.exists_serves custodian hse (hso.sublist (take_sublist ..)) haf
  have hser : serving.served = new := hnew.served
  have ho := Serving.owed_serve_le custodian hse
  have hl : serving.ledger.lastSeq = ledger.lastSeq := (edits_serve hse).2
  have hc : serving.last ≤ ledger.lastSeq custodian := by
    rcases hnew.last with hla | ⟨candidate, hmem, hla⟩
    · exact hla.trans_le hs
    · have hca := (mem_after.1 (mem_of_mem_take hmem)).1
      exact hla.trans_le (hn.le_last candidate (mem_outstanding.1 hca).1)
  have hsi : Serving.Sized (overhead incarnation) maxBody serving :=
    Serving.Sized.serve ⟨by simp, .inl rfl⟩ hse
  refine ⟨?_, ?_, ?_, ?_, hc.trans_eq (congrFun hl custodian).symm, ?_, fun hem => ?_⟩
  · have hp := pairwise_map.1 ((hso.sublist (take_sublist ..)).sublist hnew.sublist)
    rw [hser]
    exact pairwise_map.2 hp
  · intro item hite
    rw [hser] at hite
    exact haf _ (hnew.sublist.subset (mem_map_of_mem hite))
  · rw [hser]
    exact hnew.le_last
  · rcases hnew.last with hla | ⟨candidate, hmem, hla⟩
    · exact hla.ge
    · exact hla ▸ (haf candidate hmem).le
  · intro candidate hmem hlow hr
    obtain ⟨hst, hh⟩ := mem_outstanding.1 hmem
    have hq : candidate ∈ ledger.after custodian withHeld since := mem_after.2
      ⟨mem_outstanding.2 ⟨Multiset.mem_of_le ho hst, hh⟩, hlow⟩
    rw [← take_append_drop cap (ledger.after custodian withHeld since)] at hq hso
    rcases mem_append.1 hq with ht | hd
    · rcases hnew.dealt candidate ht with hdo | hnot | ⟨hin, hla⟩
      · exact hser ▸ hdo
      · exact absurd hst hnot
      · rcases hr with hle | hno
        · exact absurd hle (not_le.2 hla)
        · simp [(hm hno).1] at hin
    · -- A candidate past the limit is beyond the cursor, and the page says that there is more.
      rcases hr with hle | hno
      · have hb : serving.last < candidate.seq := by
          rcases hnew.last with hla | ⟨other, hot, hla⟩
          · exact hla.trans_lt hlow
          · exact hla.trans_lt ((pairwise_append.1 hso).2.2 other hot candidate hd)
        exact absurd hle (not_le.2 hb)
      · rw [drop_eq_nil_of_le (hm hno).2] at hd
        exact absurd hd not_mem_nil
  · have hw := Page.size_emptied_le ⟨serving.served, ⟨incarnation, serving.last⟩, more⟩
      (hc.trans_lt hn.last_lt)
    rw [Page.size_reply]
    rcases hsi.fits with hno | hf
    · simpa [hno] using hem
    · have hsiz := hsi.size
      dsimp only at hw ⊢
      omega

variable {next : Ledger}

theorem sound_lateResults {limit : Option ℕ} {now : ℤ} {maxBody : ℕ} {page : Page}
    (hn : ledger.WellNumbered custodian)
    (h : ledger.lateResults custodian incarnation since limit now maxBody withHeld =
      some (next, some page)) :
    page.Sound custodian withHeld ((since.map Cursor.seq).getD 0) maxBody next := by
  unfold lateResults at h
  split_ifs at h with hs
  · obtain ⟨⟨serving, complete⟩, hse, heq⟩ := Option.bind_eq_some_iff.1 h
    cases heq
    have had := (edits_enforceRetentionBounds ledger custodian).advances custodian
    rw [take_take] at hse
    refine sound_of_serve (hn.advances had) ((checkSince_le hs).trans had.lastSeq) hse fun hm => ?_
    simp only [Bool.or_eq_false_iff, decide_eq_false_iff_not, Bool.not_eq_false', length_take] at hm
    exact ⟨hm.2, by omega⟩
  · cases h

/-! ## The consumer -/

/-- A consumer of late results: the ledger, the cursor of its last page and what it has received. -/
structure Consumer where
  ledger : Ledger
  cursor : Option Cursor
  received : List Served := []

/-- A transaction of anybody, or a pull of the consumer. -/
inductive ConsumerEvent
  | transact (op : Op)
  | pull (incarnation : String) (limit : Option ℕ) (now : ℤ) (maxBody : ℕ)

namespace Consumer

/-- One event, with the page that a pull returns. -/
def step (custodian : String) (withHeld : Bool) (consumer : Consumer) :
    ConsumerEvent → Consumer × Option Page
  | .transact op => ({ consumer with ledger := (consumer.ledger.step op).1 }, none)
  | .pull incarnation limit now maxBody =>
    match consumer.ledger.lateResults custodian incarnation consumer.cursor limit now maxBody
      withHeld with
    | some (ledger, some page) =>
      (⟨ledger, some page.cursor, consumer.received ++ page.served⟩, some page)
    | some (ledger, none) => ({ consumer with ledger }, none)
    | none => (consumer, none)

def run (custodian : String) (withHeld : Bool) (consumer : Consumer)
    (events : List ConsumerEvent) : Consumer :=
  events.foldl (fun consumer event => (consumer.step custodian withHeld event).1) consumer

/-- The number that a cursor stands at. -/
def seqOf (cursor : Option Cursor) : ℕ := (cursor.map Cursor.seq).getD 0

/-- The cursor separates what was received from what is still owed. -/
structure Follows (custodian : String) (withHeld : Bool) (first : ℕ) (consumer : Consumer) :
    Prop where
  numbered : consumer.ledger.WellNumbered custodian
  increasing : (consumer.received.map fun item => item.candidate.seq).Pairwise (· < ·)
  le_cursor : ∀ item ∈ consumer.received, item.candidate.seq ≤ seqOf consumer.cursor
  first_le : first ≤ seqOf consumer.cursor
  cursor_le : seqOf consumer.cursor = first ∨
    seqOf consumer.cursor ≤ consumer.ledger.lastSeq custodian
  received : ∀ candidate ∈ consumer.ledger.outstanding custodian withHeld, first < candidate.seq →
    candidate.seq ≤ seqOf consumer.cursor → candidate ∈ consumer.received.map Served.candidate

variable {custodian : String} {withHeld : Bool} {first : ℕ} {consumer : Consumer}

section

variable (h : consumer.Follows custodian withHeld first)
include h

/-- Transactions of others add only what is beyond the cursor. -/
theorem Follows.advances (had : Ledger.Advances custodian consumer.ledger next) :
    Follows custodian withHeld first { consumer with ledger := next } := by
  refine ⟨h.numbered.advances had, h.increasing, h.le_cursor, h.first_le,
    h.cursor_le.imp_right fun hle => hle.trans had.lastSeq, ?_⟩
  intro candidate hmem hlow hh
  obtain ⟨fresh, ho, -, hf⟩ := had.owed
  obtain ⟨hs, hhe⟩ := mem_outstanding.1 hmem
  rcases Multiset.mem_add.1 (Multiset.mem_of_le ho hs) with hnew | hold
  · have hb := (hf candidate hnew).1
    rcases h.cursor_le with heq | hle
    · exact absurd (hh.trans_eq heq) (not_le.2 hlow)
    · exact absurd (hh.trans hle) (not_le.2 hb)
  · exact h.received candidate (mem_outstanding.2 ⟨hold, hhe⟩) hlow hh

/-- A page moves the cursor past what it serves. -/
theorem Follows.page {maxBody : ℕ} {page : Page}
    (had : Ledger.Advances custodian consumer.ledger next)
    (hp : page.Sound custodian withHeld (seqOf consumer.cursor) maxBody next) :
    Follows custodian withHeld first
      ⟨next, some page.cursor, consumer.received ++ page.served⟩ := by
  have hm := h.advances had
  refine ⟨hm.numbered, ?_, ?_, h.first_le.trans hp.since_le, .inr hp.cursor_le, ?_⟩
  · rw [map_append]
    refine pairwise_append.2 ⟨h.increasing, hp.increasing, fun old hold new hnew => ?_⟩
    obtain ⟨item, hite, rfl⟩ := mem_map.1 hold
    obtain ⟨item', hi', rfl⟩ := mem_map.1 hnew
    exact (h.le_cursor item hite).trans_lt (hp.since_lt item' hi')
  · intro item hite
    rcases mem_append.1 hite with hite | hite
    · exact (h.le_cursor item hite).trans hp.since_le
    · exact hp.le_cursor item hite
  · intro candidate hmem hlow hh
    rw [map_append]
    rcases le_or_gt candidate.seq (seqOf consumer.cursor) with hold | hnew
    · exact mem_append_left _ (hm.received candidate hmem hlow hold)
    · exact mem_append_right _ (hp.served candidate hmem hnew (.inl hh))

theorem Follows.step (event : ConsumerEvent) :
    Follows custodian withHeld first (consumer.step custodian withHeld event).1 := by
  cases event with
  | transact op => exact h.advances (advances_step consumer.ledger op custodian)
  | pull incarnation limit now maxBody =>
    unfold Consumer.step
    dsimp only
    split
    · next ledger page hr =>
        exact h.page ((edits_lateResults hr).advances custodian) (sound_lateResults h.numbered hr)
    · next ledger hr => exact h.advances ((edits_lateResults hr).advances _)
    · exact h

theorem Follows.run (events : List ConsumerEvent) :
    Follows custodian withHeld first (consumer.run custodian withHeld events) :=
  foldlRecOn events _ h fun _ hc event _ => hc.step event

end

/-- A consumer that starts at any cursor on any reachable ledger and follows the cursors of its
pages: the numbers of what it has received increase strictly, after a page without more everything
outstanding beyond the first cursor has been received, and each page is as small as it must be. -/
theorem consumer_misses_nothing (ops : List Op) (custodian : String) (withHeld : Bool)
    (first : Option Cursor) (events : List ConsumerEvent) (incarnation : String)
    (limit : Option ℕ) (now : ℤ) (maxBody : ℕ) (after : Consumer) (page : Page)
    (hpull : (run custodian withHeld ⟨({} : Ledger).run ops, first, []⟩ events).step custodian
      withHeld (.pull incarnation limit now maxBody) = (after, some page)) :
    (after.received.map fun item => item.candidate.seq).Pairwise (· < ·) ∧
      (page.more = false → ∀ candidate ∈ after.ledger.outstanding custodian withHeld,
        seqOf first < candidate.seq → candidate ∈ after.received.map Served.candidate) ∧
      (page.emptied.reply.size ≤ maxBody → page.reply.size ≤ maxBody) := by
  have hstart : Follows custodian withHeld (seqOf first) ⟨({} : Ledger).run ops, first, []⟩ :=
    ⟨Ledger.wellNumbered_run ops custodian, List.Pairwise.nil,
      nofun, le_rfl, .inl rfl,
      fun _ _ hlow hhigh => absurd hhigh (not_le.2 hlow)⟩
  have hbefore := hstart.run events
  have hafter := hbefore.step (.pull incarnation limit now maxBody)
  rw [hpull] at hafter
  unfold step at hpull
  dsimp only at hpull
  split at hpull
  · next ledger served hresult =>
      cases hpull
      have hsound := sound_lateResults hbefore.numbered hresult
      refine ⟨hafter.increasing, fun hmore candidate hmem hlow => ?_, hsound.size⟩
      rcases le_or_gt candidate.seq (seqOf (some page.cursor)) with hle | hbeyond
      · exact hafter.received candidate hmem hlow hle
      · rw [map_append]
        exact mem_append_right _
          (hsound.served candidate hmem (hsound.since_le.trans_lt hbeyond) (.inr hmore))
  · cases hpull
  · cases hpull

/-- The call of the following run. -/
def settledCall : List Op :=
  [.admitCall ⟨"carrier", "call"⟩ "digest" (some ⟨"owner", "ref", 1⟩) .prepared "event",
    .settle ⟨"carrier", "call"⟩ ⟨.response, some .null⟩ "ok" none 100 none]

theorem consumer_misses_nothing_one : ∃ after page,
    (run "owner" true ⟨({} : Ledger).run settledCall, none, []⟩ []).step "owner" true
      (.pull "run" none 200 1000) = (after, some page) ∧ page.more = false ∧
    after.received.map Served.candidate = [⟨⟨"carrier", "call"⟩, 1, false⟩] ∧
    page.reply.size ≤ 1000 := by
  have hpage : (((run "owner" true ⟨({} : Ledger).run settledCall, none, []⟩ []).step "owner" true
      (.pull "run" none 200 1000)).2.any fun page => !page.more &&
        decide (page.emptied.reply.size ≤ 1000)) = true := by decide +kernel
  have hreceived : ((run "owner" true ⟨({} : Ledger).run settledCall, none, []⟩ []).step "owner"
      true (.pull "run" none 200 1000)).1.received.map Served.candidate =
        [⟨⟨"carrier", "call"⟩, 1, false⟩] := by decide +kernel
  have htheorem := consumer_misses_nothing settledCall "owner" true none [] "run" none 200 1000
  generalize (run "owner" true ⟨({} : Ledger).run settledCall, none, []⟩ []).step "owner" true
    (.pull "run" none 200 1000) = result at hpage hreceived htheorem ⊢
  obtain ⟨after, found⟩ := result
  obtain ⟨page, rfl, hcond⟩ := (Option.any_eq_true ..).1 hpage
  simp only [Bool.and_eq_true, Bool.not_eq_true', decide_eq_true_eq] at hcond
  exact ⟨after, page, rfl, hcond.1, hreceived, (htheorem after page rfl).2.2 hcond.2⟩

end Consumer

end Aft.Calls
