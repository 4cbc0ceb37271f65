import Aft.Hashline.HandMerge
import Aft.Hashline.PlanRuns

/-!
# Splitting a patch into several sections

One section merges its operations by hand; several sections of one path apply them one after another
and re-address each through the origins of the current rows. The two agree when the changes come in
an order that re-addressing keeps (`LineChange.Follows`) and every document on the way survives
being written and scanned again (`Reencodes`).
-/

namespace Aft.Hashline

open List LineChange CompositionState LineOrigin Draft LineSpan

/-! ## Re-addressing rows in a known place -/

variable {label : String} {line : ℕ} {state : CompositionState} {span : LineSpan}

section Middle

variable {a b c : List (String × LineOrigin)}

theorem indicesOf_middle {p : LineOrigin → Bool} (ha : ∀ x ∈ a, p x.2 = false)
    (hb : ∀ x ∈ b, p x.2 = true) (hc : ∀ x ∈ c, p x.2 = false) :
    indicesOf p ((a ++ b ++ c).map Prod.snd) = List.range' a.length b.length := by
  -- Both lists increase, so that it is enough to compare their members.
  refine (indicesOf_pairwise p _).eq_of_mem_iff pairwise_lt_range' fun i => ?_
  rw [mem_indicesOf, mem_range'_1]
  constructor
  · rintro ⟨origin, hget, hp⟩
    grind
  · rintro ⟨hle, hlt⟩
    have hi : i - a.length < b.length := by omega
    exact ⟨b[i - a.length].2, by grind, hb _ (getElem_mem hi)⟩

theorem checkNotDeleted_of {lines : List ℕ} {reason : ℕ → String}
    (h : ∀ line ∈ lines, state.deletedBy.find? line = none) :
    state.checkNotDeleted lines label reason = .ok () := by
  have hn : (lines.findSome? fun line => (state.deletedBy.find? line).map (line, ·)) = none := by
    refine findSome?_eq_none_iff.2 fun line hl => ?_
    rw [h line hl]
    rfl
  rw [checkNotDeleted, hn]

variable {state : CompositionState} (horigins : state.origins = (a ++ b ++ c).map Prod.snd)
include horigins

theorem index_middle (ha : ∀ x ∈ a, x.2.coversLine line = false)
    (hb : ∀ x ∈ b, x.2.coversLine line = true) (hc : ∀ x ∈ c, x.2.coversLine line = false)
    (hne : b ≠ []) :
    state.firstIndexForOriginal (some line) = some (a.length + 1) ∧
      state.lastIndexForOriginal (some line) = some (a.length + b.length) := by
  obtain ⟨k, hk⟩ := Nat.exists_eq_succ_of_ne_zero (length_pos_of_ne_nil hne).ne'
  have hin : indicesOf (fun origin => origin.coversLine line) state.origins = _ :=
    horigins ▸ indicesOf_middle ha hb hc
  constructor
  · simp [firstIndexForOriginal, hin, hk, range'_succ]
  · simp [lastIndexForOriginal, hin, hk, getLast?_range']
    omega

theorem remapSpan_middle (label : String) (hac : ∀ x ∈ a ++ c, x.2.selectedBy span = some false)
    (hb : ∀ x ∈ b, x.2.selectedBy span = some true) (hne : b ≠ [])
    (hd : ∀ line ∈ span.lines, state.deletedBy.find? line = none) :
    ∃ current, state.remapSpan span label = .ok current ∧ current.start = a.length + 1 ∧
      current.stop = a.length + b.length := by
  have hpos := length_pos_of_ne_nil hne
  have hw : state.origins.find? (fun origin => (origin.selectedBy span).isNone) = none := by
    rw [horigins, find?_eq_none]
    refine forall_mem_map.2 fun x hx => ?_
    obtain hx | hx : x ∈ a ++ c ∨ x ∈ b := by grind
    · simp [hac x hx]
    · simp [hb x hx]
  have hin : indicesOf (fun origin => origin.selectedBy span == some true) state.origins =
      range' a.length b.length := by
    rw [horigins]
    exact indicesOf_middle (fun x h => by simp [hac x (mem_append_left _ h)])
      (fun x h => by simp [hb x h]) fun x h => by simp [hac x (mem_append_right _ h)]
  have hn : range' a.length b.length ≠ [] := by
    simpa using hne
  refine ⟨spanOfIndices _ (indicesOf_pairwise _ state.origins) (hin ▸ hn), ?_, ?_, ?_⟩
  · unfold remapSpan
    rw [checkNotDeleted_of hd]
    simp only [hw]
    rw [dif_neg (hin ▸ hn)]
    rfl
  · simp only [spanOfIndices, hin, head_range']
  · simp only [spanOfIndices, hin, getLast_range']
    omega

end Middle

/-! ## States of a split -/

/-- Whether re-addressing after earlier changes leads a change to its place: no text was put between
the rows to be replaced, and a gap among replaced rows is not first filled after a gap before it. -/
def LineChange.Follows (earlier : List LineChange) : LineChange → Prop
  | .replace span _ _ => ∀ gap body, .insert gap body ∈ earlier →
      ¬ (span.start ≤ gap.row ∧ gap.row < span.stop)
  | .cut _ => True
  | .insert gap _ => (∃ other body, .insert other body ∈ earlier ∧ other.row = gap.row) ∨
      ∀ span body operation, .replace span body operation ∈ earlier → gap.row ∈ span.lines →
        ∀ other text, .insert other text ∈ earlier →
          ¬ (span.start ≤ other.row ∧ other.row < gap.row)

/-- The texts of a change: not empty, and lines. -/
def LineChange.TextOk : LineChange → Prop
  | .replace _ body _ | .insert _ body => body ≠ [] ∧ ∀ line ∈ body, byteLf ∉ asBytes line
  | .cut _ => True

/-- Changes that different sections can make to a file of lines. -/
structure Admissible (lines : List String) (changes : List LineChange) : Prop where
  independent : Independent changes
  within : ∀ change ∈ changes, change.Within lines.length
  texts : ∀ change ∈ changes, change.TextOk
  lf_notMem : ∀ line ∈ lines, byteLf ∉ asBytes line

section Admissible

variable {lines : List String} {changes : List LineChange}

theorem Admissible.left {later : List LineChange} (h : Admissible lines (changes ++ later)) :
    Admissible lines changes :=
  ⟨h.independent.left, fun other ho => h.within other (mem_append_left _ ho),
    fun other ho => h.texts other (mem_append_left _ ho), h.lf_notMem⟩

theorem Admissible.last {change : LineChange} (h : Admissible lines (changes ++ [change])) :
    change.Within lines.length ∧ change.TextOk :=
  ⟨h.within change (by simp), h.texts change (by simp)⟩

theorem forall_draftOf {P : String → Prop} (hl : ∀ line ∈ lines, P line)
    (hb : ∀ change ∈ changes, ∀ line ∈ change.body, P line) (r : ℕ) :
    (∀ x ∈ (draftOf lines changes).row r, P x.1) ∧ ∀ x ∈ (draftOf lines changes).gap r, P x.1 := by
  induction changes using reverseRecOn with
  | nil =>
    refine ⟨fun x hx => ?_, fun x hx => by cases hx⟩
    obtain ⟨line, hli, rfl⟩ := mem_map.1 hx
    exact hl line (mem_of_getElem? (Option.mem_toList.1 hli))
  | append_singleton changes change ih =>
    obtain ⟨hrow, hgap⟩ := ih fun other ho => hb other (mem_append_left _ ho)
    have hbo := hb change (by simp)
    have ht {tag : LineOrigin} {body : List String} (hbo : ∀ line ∈ body, P line) :
        ∀ x ∈ body.map (fun line => (line, tag)), P x.1 := by
      intro x hx
      obtain ⟨line, hli, rfl⟩ := mem_map.1 hx
      exact hbo line hli
    have hr {s e : ℕ} {xs : List (String × LineOrigin)} (hxs : ∀ x ∈ xs, P x.1) :
        ∀ x ∈ ((draftOf lines changes).replace s e xs).row r, P x.1 := by
      rw [row_replace]
      split_ifs
      · exact hxs
      · simp
      · exact hrow
    rw [draftOf_concat]
    cases change with
    | replace span body operation => exact ⟨hr (ht hbo), hgap⟩
    | cut span => exact ⟨hr (by simp), hgap⟩
    | insert gap body =>
      refine ⟨hrow, ?_⟩
      rw [apply, gap_insert]
      split_ifs with heq
      · intro x hx
        rcases mem_append.1 hx with hx | hx
        · exact hgap x (heq ▸ hx)
        · exact ht hbo x hx
      · exact hgap

/-- The documents of changes whose texts are lines consist of lines. -/
theorem Admissible.lf_notMem_handMerged (h : Admissible lines changes) :
    ∀ line ∈ handMerged lines changes, byteLf ∉ asBytes line := by
  have hb : ∀ change ∈ changes, ∀ line ∈ change.body, byteLf ∉ asBytes line := by
    intro change hc
    have hte := h.texts change hc
    cases change with
    | replace span body operation => exact hte.2
    | cut span => exact fun line hli => by cases hli
    | insert gap body => exact hte.2
  intro line hli
  obtain ⟨x, hx, rfl⟩ := mem_map.1 hli
  rcases mem_flatten hx with ⟨r, -, -, hx⟩ | ⟨r, -, hx⟩
  · exact (forall_draftOf h.lf_notMem hb r).1 x hx
  · exact (forall_draftOf h.lf_notMem hb r).2 x hx

end Admissible

/-- The rows and their origins, as some changes left them. -/
def tagged (lines : List String) (changes : List LineChange) : List (String × LineOrigin) :=
  (draftOf lines changes).flatten lines.length

/-- A state that some changes, applied one after another, have led to. -/
structure Reached (baseline : Baseline) (changes : List LineChange) (state : CompositionState) :
    Prop where
  original : state.original = baseline
  kept : state.removedBy = none ∧ state.removeFile = false
  deleted : ∀ line, state.deletedBy.find? line ≠ none →
    ∃ span, .cut span ∈ changes ∧ line ∈ span.lines

theorem Reached.deleted_append {baseline : Baseline} {changes : List LineChange}
    (h : Reached baseline changes state) (later : List LineChange)
    (hd : state.deletedBy.find? line ≠ none) :
    ∃ span, .cut span ∈ changes ++ later ∧ line ∈ span.lines :=
  (h.deleted line hd).imp fun _ => .imp_left (mem_append_left later)

/-- A state whose rows and origins are those of the changes that led to it. -/
structure Composed (baseline : Baseline) (lines : List String) (changes : List LineChange)
    (state : CompositionState) : Prop extends Reached baseline changes state where
  current : baselineLines state.current = .ok (handMerged lines changes)
  policy : terminatorPolicy state.current.snapshot.records =
    terminatorPolicy baseline.snapshot.records
  origins : state.origins = (tagged lines changes).map Prod.snd

theorem totalLines_of_current {lines : List String} {changes : List LineChange}
    (h : baselineLines state.current = .ok (handMerged lines changes)) :
    state.current.snapshot.totalLines = (tagged lines changes).length := by
  have hl := congrArg length (baselineLines_eq_ok h)
  rw [length_map, length_map, handMerged, length_map] at hl
  rw [state.current.totalLines_eq, ← hl]
  rfl

/-- A state after a change that is not known to survive yet. -/
structure Written (baseline : Baseline) (lines : List String) (changes : List LineChange)
    (state : CompositionState) : Prop extends Reached baseline changes state where
  bytes : state.current = .fromBytes (joinLines (handMerged lines changes)
    (terminatorPolicy baseline.snapshot.records).1 (terminatorPolicy baseline.snapshot.records).2)
  origins : state.current.snapshot.totalLines = (tagged lines changes).length →
    state.origins = (tagged lines changes).map Prod.snd

theorem terminatorPolicy_ne_none (records : SortedMap ℕ RawLineRecord) :
    (terminatorPolicy records).1 ≠ .none := by
  unfold terminatorPolicy
  simp only
  split_ifs <;> decide

theorem Written.composed {baseline : Baseline} {lines : List String} {changes : List LineChange}
    (h : Written baseline lines changes state) (ha : Admissible lines changes)
    (hr : Reencodes (terminatorPolicy baseline.snapshot.records) (handMerged lines changes)) :
    Composed baseline lines changes state := by
  have hk := terminatorPolicy_ne_none baseline.snapshot.records
  have hlf := ha.lf_notMem_handMerged
  have hc : baselineLines state.current = .ok (handMerged lines changes) := by
    rw [h.bytes]
    exact baselineLines_of_contents (hr.contents hk hlf)
  refine ⟨h.toReached, hc, ?_, h.origins (totalLines_of_current hc)⟩
  rw [h.bytes, Baseline.records_eq]
  exact hr.policy_eq hk hlf

/-! ## Replacing and deleting rows -/

variable {r : ℕ} {x : String × LineOrigin} {body : List String} {current : LineSpan}

section Span

variable {baseline : Baseline} {lines : List String} {changes : List LineChange}
  {change : LineChange} {span : LineSpan}

variable (lines) in
def spanRows (span : LineSpan) : List (String × LineOrigin) :=
  span.lines.map fun r => (lines.getD (r - 1) "", .original r)

section

variable (hin : Independent (changes ++ [change])) (hs : span ∈ change.span?)
include hin hs

theorem free_of_independent (hr : r ∈ span.lines) :
    ∀ other ∈ changes, ∀ span' ∈ other.span?, r ∉ span'.lines := by
  intro other ho span' hs' hr'
  obtain ⟨-, -, hc⟩ := pairwise_append.1 hin.disjoint
  exact hc other ho change (mem_singleton_self _) span' hs' span hs r hr' hr

theorem tagged_span (hst : span.stop ≤ lines.length)
    (hg : ∀ i, span.start ≤ i → i < span.stop → (draftOf lines changes).gap i = []) :
    tagged lines changes = (draftOf lines changes).flatten (span.start - 1) ++ spanRows lines span ++
      ((draftOf lines changes).gap span.stop ++
        (draftOf lines changes).rest span.stop (lines.length - span.stop)) := by
  have hro : (range' span.start (span.stop + 1 - span.start)).flatMap
      (draftOf lines changes).row = spanRows lines span := by
    rw [spanRows, map_eq_flatMap]
    refine flatMap_congr fun r hr => ?_
    have hpos := pos_of_mem_lines hr
    have hle := (mem_lines.1 hr).2
    rw [row_draftOf_of_notMem (free_of_independent hin hs hr), row_baselineDraft]
    rw [getD_eq_getElem?_getD, getElem?_eq_getElem (by omega)]
    rfl
  rw [tagged, flatten_rows span.pos span.le hst hg, hro]

/-- What stands elsewhere is not taken. -/
theorem selectedBy_row (hr : r ∉ span.lines) (hx : x ∈ (draftOf lines changes).row r) :
    x.2.selectedBy span = some false := by
  rcases mem_row_draftOf hin.left hx with ⟨htag, -⟩ | ⟨span', body, operation, hmem, -, htag⟩
  · rw [htag, selectedBy, decide_eq_false]
    exact fun h => hr (mem_lines.2 h)
  · rw [htag, selectedBy, if_neg]
    intro ho
    simp only [spansOverlap, decide_eq_true_eq] at ho
    have hle := span.le
    have hle' := span'.le
    have hc : max span.start span'.start ∈ span.lines := mem_lines.2 (by omega)
    exact free_of_independent hin hs hc _ hmem span' rfl (mem_lines.2 (by omega))

end

theorem selectedBy_gap (hx : x ∈ (draftOf lines changes).gap r) :
    x.2.selectedBy span = some false := by
  obtain ⟨gap, body, -, -, htag⟩ := mem_gap_draftOf hx
  rw [htag, selectedBy]

theorem length_spanRows (span : LineSpan) : (spanRows lines span).length = span.lines.length :=
  length_map _

/-- What is before and after the rows that a change takes. -/
structure Around (lines : List String) (changes : List LineChange) (change : LineChange)
    (span : LineSpan) (xs before after : List (String × LineOrigin)) : Prop where
  now : tagged lines changes = before ++ spanRows lines span ++ after
  next : tagged lines (changes ++ [change]) = before ++ xs ++ after
  unselected : ∀ x ∈ before ++ after, x.2.selectedBy span = some false

theorem exists_around (hin : Independent (changes ++ [change])) (hs : span ∈ change.span?)
    (hst : span.stop ≤ lines.length)
    (hg : ∀ i, span.start ≤ i → i < span.stop → (draftOf lines changes).gap i = [])
    {xs : List (String × LineOrigin)} (hap : change.apply (draftOf lines changes) =
      (draftOf lines changes).replace span.start span.stop xs) :
    ∃ before after, Around lines changes change span xs before after := by
  refine ⟨_, _, tagged_span hin hs hst hg, ?_, fun x hx => ?_⟩
  · rw [tagged, draftOf_concat, hap, flatten_replace span.pos span.le hst hg]
  · rcases mem_append.1 hx with hx | hx
    · rcases mem_flatten hx with ⟨i, hpos, hi, hx⟩ | ⟨i, -, hx⟩
      · exact selectedBy_row hin hs (fun hr => by
          have := (mem_lines.1 hr).1
          omega) hx
      · exact selectedBy_gap hx
    · rcases mem_append.1 hx with hx | hx
      · exact selectedBy_gap hx
      · obtain ⟨i, hi, -, hx | hx⟩ := mem_rest hx
        · exact selectedBy_row hin hs (fun hr => by
            have := (mem_lines.1 hr).2
            omega) hx
        · exact selectedBy_gap hx

variable {xs before after : List (String × LineOrigin)}

/-- A span of rows that are together is re-addressed to them. -/
theorem Composed.remapSpan (h : Composed baseline lines changes state)
    (hin : Independent (changes ++ [change])) (hs : span ∈ change.span?)
    (har : Around lines changes change span xs before after) (label : String) :
    ∃ current : LineSpan, state.remapAddress (.span span) label = .ok (.span current) ∧
      current.start = before.length + 1 ∧ current.stop = before.length + span.lines.length := by
  have horigins := h.origins
  rw [har.now] at horigins
  have hf : ∀ line ∈ span.lines, state.deletedBy.find? line = none := by
    intro line hl
    by_contra hne
    obtain ⟨span', hcut, hl'⟩ := h.deleted line hne
    exact free_of_independent hin hs hl _ hcut span' rfl hl'
  have hn : spanRows lines span ≠ [] := by
    simpa [spanRows] using ne_nil_of_mem span.start_mem_lines
  have hb : ∀ x ∈ spanRows lines span, x.2.selectedBy span = some true := by
    refine forall_mem_map.2 fun r hr => ?_
    simpa [selectedBy] using mem_lines.1 hr
  obtain ⟨current, hr, hplace⟩ := remapSpan_middle horigins label har.unselected hb hn hf
  exact ⟨current, Except.map_eq_ok_iff.2 ⟨current, hr, rfl⟩, length_spanRows span ▸ hplace⟩

section

variable (har : Around lines changes change span xs before after)
include har

theorem Around.length :
    (tagged lines changes).length = before.length + span.lines.length + after.length := by
  rw [har.now, length_append, length_append, length_spanRows]

theorem Around.splice_map {β : Type} (f : String × LineOrigin → β) (ys : List β) :
    splice ((tagged lines changes).map f) before.length (before.length + span.lines.length) ys =
      before.map f ++ ys ++ after.map f := by
  have hm := splice_middle (before.map f) ((spanRows lines span).map f) (after.map f) ys
  rw [length_map, length_map, length_spanRows] at hm
  rw [har.now, map_append, map_append, hm]

/-- The lines that a re-addressed span leaves are those of the change. -/
theorem planLines_around
    (hb : xs.map Prod.fst = body) {opIndex : ℕ} (hs : current.start = before.length + 1)
    (hend : current.stop = before.length + span.lines.length)
    (hq : (planLines (handMerged lines changes)
      (lowerPutBody (.span current) body opIndex)).warnings = []) :
    (planLines (handMerged lines changes) (lowerPutBody (.span current) body opIndex)).finalLines =
      handMerged lines (changes ++ [change]) := by
  have hw : current.stop ≤ (handMerged lines changes).length := by
    rw [handMerged, length_map, ← tagged, har.length, hend]
    exact Nat.le_add_right _ _
  rw [planLines_quiet (coalesceReplacementEdits_lowerPutBody ..) hq, materializeEdits_span hw, hs,
    hend, Nat.add_sub_cancel]
  change splice ((tagged lines changes).map Prod.fst) _ _ _ = (tagged lines _).map Prod.fst
  rw [har.splice_map, har.next, map_append, map_append, hb]

end

end Span

/-- No repair layer changes what an operation plans. -/
def CompositionState.Quiet (state : CompositionState) (registers : StagedRegisters)
    (operation : Operation) (resolved : ResolvedOperation) : Prop :=
  ∀ address lines edits registers',
    state.remapAddress resolved.address (operationLabel operation) = .ok address →
    baselineLines state.current = .ok lines →
    lowerOperation lines operation ⟨resolved.operationIndex, address⟩ registers =
      .ok (edits, registers') →
    (planLines lines edits).warnings = []

section Steps

variable {baseline : Baseline} {lines : List String} {changes : List LineChange}
  {state : CompositionState} {registers : StagedRegisters} {opIndex : ℕ}

variable {edits : List LineEdit}

theorem map_fst_tag (body : List String) (tag : LineOrigin) :
    (body.map fun line => (line, tag)).map Prod.fst = body := by
  rw [map_map]
  exact map_id _

theorem map_snd_tag (body : List String) (tag : LineOrigin) :
    (body.map fun line => (line, tag)).map Prod.snd = List.replicate body.length tag := by
  rw [map_map]
  exact map_const'

variable {operation : Operation} {registers' : StagedRegisters} {change : LineChange}

variable {location : Address} {patchLine : ℕ}

theorem map_getD_middle (a b c : List String) :
    (List.range' (a.length + 1) b.length).map (fun line => (a ++ b ++ c).getD (line - 1) "") = b := by
  refine ext_getElem (by simp) fun i hi hi' => ?_
  rw [getElem_map, getElem_range', Nat.one_mul,
    show a.length + 1 + i - 1 = a.length + i by omega, getD_eq_getElem?_getD, append_assoc,
    getElem?_append_right (Nat.le_add_right _ _), Nat.add_sub_cancel_left,
    getElem?_append_left hi', getElem?_eq_getElem hi']
  rfl

/-- A re-addressed CUT captures the rows of the baseline. -/
theorem captured_around {xs before after : List (String × LineOrigin)}
    (har : Around lines changes change span xs before after)
    (hs : current.start = before.length + 1)
    (hend : current.stop = before.length + span.lines.length) :
    (current.lines.map fun line => (handMerged lines changes).getD (line - 1) "") =
      span.lines.map fun line => lines.getD (line - 1) "" := by
  have hd : handMerged lines changes = _ := congrArg (map Prod.fst) har.now
  rw [map_append, map_append] at hd
  have hr : (spanRows lines span).map Prod.fst =
      span.lines.map fun line => lines.getD (line - 1) "" := by
    rw [spanRows, map_map]
    rfl
  have hl : current.lines = range' ((before.map Prod.fst).length + 1)
      ((spanRows lines span).map Prod.fst).length := by
    rw [LineSpan.lines, hr, length_map, length_map]
    congr 1
    omega
  rw [hl, hd, map_getD_middle, hr]

theorem find?_markDeleted {rows : List ℕ} (h : (state.markDeleted rows label).find? line ≠ none) :
    state.deletedBy.find? line ≠ none ∨ line ∈ rows := by
  unfold markDeleted at h
  induction rows using reverseRecOn with
  | nil => exact .inl h
  | append_singleton rows row ih =>
    rw [foldl_append] at h
    by_cases hrow : line = row
    · exact .inr (by simp [hrow])
    · rw [foldl_cons, foldl_nil, SortedMap.find?_insert_of_ne _ _ hrow] at h
      exact (ih h).imp_right (mem_append_left _)

section

variable (h : Composed baseline lines changes state)
include h

/-- An operation whose lines and origins are those of a change leads to it. -/
theorem Composed.written (origins : ℕ → List LineOrigin)
    (deletedBy : SortedMap ℕ String) (hrem : operation.isRem = false) (hmv : operation.isMv = false)
    {original current : ResolvedAddress}
    (had : state.remapAddress original (operationLabel operation) = .ok current)
    (hl : lowerOperation (handMerged lines changes) operation ⟨opIndex, current⟩ registers =
      .ok (edits, registers'))
    (hf : (planLines (handMerged lines changes) edits).finalLines =
      handMerged lines (changes ++ [change]))
    (ha : Admissible lines (changes ++ [change]))
    (hu : ∀ after, (tagged lines (changes ++ [change])).length ≤ after + 1 →
      state.updateOrigins operation original current (operationLabel operation)
        state.current.snapshot.totalLines after =
        .ok { state with origins := origins after, deletedBy := deletedBy })
    (horigins : origins (tagged lines (changes ++ [change])).length =
      (tagged lines (changes ++ [change])).map Prod.snd)
    (hd : ∀ line, deletedBy.find? line ≠ none →
      ∃ span, .cut span ∈ changes ++ [change] ∧ line ∈ span.lines) :
    ∃ next, state.applyOperation operation ⟨opIndex, original⟩ registers = .ok (next, registers') ∧
      Written baseline lines (changes ++ [change]) next := by
  have hp : applySectionOps state.requestedPath state.canonicalPath state.current [operation]
      [⟨opIndex, current⟩] registers = .ok (_, registers') :=
    applySectionOps_single hrem hmv h.current hl
  obtain ⟨planned, hpl⟩ : ∃ planned, planned = linePlanned state.requestedPath
    state.canonicalPath state.current (handMerged lines changes) edits := ⟨_, rfl⟩
  have hb : planned.finalBytes = joinLines (handMerged lines (changes ++ [change]))
      (terminatorPolicy baseline.snapshot.records).1
      (terminatorPolicy baseline.snapshot.records).2 := by
    rw [hpl, linePlanned, hf, h.policy]
  rw [← hpl] at hp
  have haf : (tagged lines (changes ++ [change])).length ≤
      (Baseline.fromBytes planned.finalBytes).snapshot.totalLines + 1 := by
    have hle : (tagged lines (changes ++ [change])).length =
        (handMerged lines (changes ++ [change])).length := (length_map _).symm
    rw [Baseline.totalLines_eq, hb, hle]
    exact length_le_lineRecords ha.lf_notMem_handMerged _ _
  unfold applyOperation
  rw [h.kept.1]
  refine ⟨_, Except.bind_eq_ok_iff.2 ⟨current, had, Except.bind_eq_ok_iff.2
    ⟨(planned, registers'), hp, Except.bind_eq_ok_iff.2 ⟨_, hu _ haf, rfl⟩⟩⟩, ?_⟩
  refine ⟨⟨h.original, ⟨h.kept.1, ?_⟩, hd⟩, ?_, fun hle => ?_⟩
  · rw [hpl]
    rfl
  · rw [hb]
  · exact (congrArg origins hle).trans horigins

theorem Composed.replace (ho : operation = .put location (.text body) patchLine)
    (hc : change = .replace span body (operationLabel operation))
    (ha : Admissible lines (changes ++ [change])) (hs : span.stop ≤ lines.length)
    (hg : ∀ i, span.start ≤ i → i < span.stop → (draftOf lines changes).gap i = []) (hb : body ≠ [])
    (hq : state.Quiet registers operation ⟨opIndex, .span span⟩) :
    ∃ next, state.applyOperation operation ⟨opIndex, .span span⟩ registers = .ok (next, registers) ∧
      Written baseline lines (changes ++ [change]) next := by
  have hsp : span ∈ change.span? := by rw [hc]; rfl
  have hap : change.apply (draftOf lines changes) = (draftOf lines changes).replace span.start
      span.stop (body.map fun line => (line, .replacement span (operationLabel operation))) := by
    rw [hc]
    rfl
  obtain ⟨before, after, har⟩ := exists_around ha.independent hsp hs hg hap
  obtain ⟨current, had, hst, hend⟩ := h.remapSpan ha.independent hsp har (operationLabel operation)
  have hl : lowerOperation (handMerged lines changes) operation ⟨opIndex, .span current⟩
      registers = .ok (lowerPutBody (.span current) body opIndex, registers) := by
    rw [ho]
    rfl
  have hli : 0 < span.lines.length := length_pos_of_mem span.start_mem_lines
  have hpos := length_pos_of_ne_nil hb
  have ht : state.current.snapshot.totalLines =
      before.length + span.lines.length + after.length := by
    rw [totalLines_of_current h.current, har.length]
  have ht' : (tagged lines (changes ++ [change])).length =
      before.length + body.length + after.length := by
    rw [har.next, length_append, length_append, length_map]
  refine h.written (fun total => splice state.origins (current.start - 1) current.stop
      (replicate (total + (current.stop - current.start + 1) -
        state.current.snapshot.totalLines) (.replacement span (operationLabel operation))))
    state.deletedBy (by rw [ho]; rfl) (by rw [ho]; rfl) had hl
    (planLines_around har (map_fst_tag body _) hst hend
      (hq _ _ _ _ had h.current hl)) ha (fun total hle => ?_) ?_ fun _ => h.deleted_append _
  · rw [ho, updateOrigins, if_neg (by omega)]
    rfl
  · have hco : (tagged lines (changes ++ [change])).length +
        (current.stop - current.start + 1) - state.current.snapshot.totalLines = body.length := by
      omega
    simp only [hco]
    rw [h.origins, hst, hend, Nat.add_sub_cancel, har.splice_map, har.next, map_append, map_append,
      map_snd_tag]

theorem Composed.cut {register : Option RegisterRef}
    (ho : operation = .cut location register patchLine)
    (ha : Admissible lines (changes ++ [.cut span])) (hs : span.stop ≤ lines.length)
    (hg : ∀ i, span.start ≤ i → i < span.stop → (draftOf lines changes).gap i = [])
    (hq : state.Quiet registers operation ⟨opIndex, .span span⟩)
    (hc : registers.capture (register.getD .anonymous)
      (span.lines.map fun line => lines.getD (line - 1) "") = .ok registers') :
    ∃ next, state.applyOperation operation ⟨opIndex, .span span⟩ registers = .ok (next, registers') ∧
      Written baseline lines (changes ++ [.cut span]) next := by
  obtain ⟨before, after, har⟩ : ∃ before after,
    Around lines changes (.cut span) span [] before after :=
      exists_around ha.independent rfl hs hg rfl
  obtain ⟨current, had, hst, hend⟩ := h.remapSpan ha.independent rfl har (operationLabel operation)
  have hl : lowerOperation (handMerged lines changes) operation ⟨opIndex, .span current⟩
      registers = .ok (lowerPutBody (.span current) [] opIndex, registers') := by
    rw [ho]
    refine Except.bind_eq_ok_iff.2 ⟨registers', ?_, rfl⟩
    rw [captured_around har hst hend]
    exact hc
  refine h.written (fun _ => state.origins.take (current.start - 1) ++ state.origins.drop current.stop)
    (state.markDeleted span.lines (operationLabel operation)) (by rw [ho]; rfl)
    (by rw [ho]; rfl) had hl
    (planLines_around har rfl hst hend (hq _ _ _ _ had h.current hl)) ha
    (fun total _ => ?_) ?_ fun line hli => ?_
  · rw [ho]
    rfl
  · have hm := har.splice_map Prod.snd []
    rw [splice, append_nil] at hm
    rw [h.origins, hst, hend, Nat.add_sub_cancel, hm, har.next, map_append, map_append]
    rfl
  · rcases find?_markDeleted hli with hli | hli
    · exact h.deleted_append _ hli
    · exact ⟨span, by simp, hli⟩

end

/-! ## Filling gaps -/

theorem coversLine_gap (hx : x ∈ (draftOf lines changes).gap r) : x.2.coversLine line = false := by
  obtain ⟨gap, body, -, -, htag⟩ := mem_gap_draftOf hx
  rw [htag, coversLine]

variable {row : ℕ}

theorem Composed.index_homeRow (h : Composed baseline lines changes state)
    (hh : HomeRow (draftOf lines changes) changes line row) (hrow : row ≤ lines.length) :
    state.firstIndexForOriginal (some line) =
      some (((draftOf lines changes).flatten (row - 1)).length + 1) ∧
    state.lastIndexForOriginal (some line) = some ((draftOf lines changes).upTo row).length := by
  obtain ⟨k, hk⟩ := Nat.exists_eq_succ_of_ne_zero hh.pos.ne'
  have hu : (draftOf lines changes).upTo row =
      (draftOf lines changes).flatten (row - 1) ++ (draftOf lines changes).row row := by
    rw [hk]
    rfl
  have horigins := h.origins
  rw [tagged, flatten_split _ hrow, hu, append_assoc] at horigins
  rw [hu, length_append]
  refine index_middle horigins (fun x hx => ?_) hh.covers (fun x hx => ?_) hh.nonempty
  · rcases mem_flatten hx with ⟨i, hpos, hi, hx⟩ | ⟨i, -, hx⟩
    · exact hh.only i hpos (by omega) x hx
    · exact coversLine_gap hx
  · rcases mem_append.1 hx with hx | hx
    · exact coversLine_gap hx
    · obtain ⟨i, hi, -, hx | hx⟩ := mem_rest hx
      · exact hh.only i (by omega) (by omega) x hx
      · exact coversLine_gap hx

variable {gap : ResolvedGap}

theorem Composed.lastInserted (h : Composed baseline lines changes state)
    (ha : Admissible lines changes) (hgap : (insert gap body).Within lines.length) :
    indicesOf (fun origin => origin == .inserted ⟨gap.before, gap.after⟩) state.origins =
      List.range' ((draftOf lines changes).upTo gap.row).length
        ((draftOf lines changes).gap gap.row).length := by
  have horigins := h.origins
  rw [tagged, flatten_split _ hgap.1] at horigins
  have hrow {r : ℕ} {x : String × LineOrigin} (hx : x ∈ (draftOf lines changes).gap r) :
      (x.2 == inserted ⟨gap.before, gap.after⟩) = decide (r = gap.row) := by
    obtain ⟨other, text, hmem, hrow, htag⟩ := mem_gap_draftOf hx
    have ho := (ha.within _ hmem).2
    rw [htag, Bool.eq_iff_iff, beq_iff_eq, decide_eq_true_eq, ← hrow]
    constructor
    · intro heq
      obtain ⟨hb, -⟩ := OriginalGap.mk.inj (inserted.inj heq)
      rw [ResolvedGap.row, ResolvedGap.row, hb]
    · intro heq
      rw [ho, heq, ← hgap.2]
  have hp {r : ℕ} {x : String × LineOrigin} (hx : x ∈ (draftOf lines changes).row r) :
      (x.2 == inserted ⟨gap.before, gap.after⟩) = false := by
    rcases mem_row_draftOf ha.independent hx with ⟨htag, -⟩ | ⟨_, _, _, -, -, htag⟩
    · rw [htag]
      rfl
    · rw [htag]
      rfl
  rw [horigins]
  refine indicesOf_middle (fun x hx => ?_) (fun x hx => ?_) fun x hx => ?_
  · rcases mem_upTo hx with ⟨i, -, -, hx⟩ | ⟨i, hi, hx⟩
    · exact hp hx
    · rw [hrow hx, decide_eq_false hi.ne]
  · rw [hrow hx, decide_eq_true rfl]
  · obtain ⟨i, hi, -, hx | hx⟩ := mem_rest hx
    · exact hp hx
    · rw [hrow hx, decide_eq_false hi.ne']

section

variable (ha : Admissible lines changes)
include ha

theorem Admissible.gap_eq_nil_iff :
    (draftOf lines changes).gap r = [] ↔ ∀ gap body, .insert gap body ∈ changes → gap.row ≠ r := by
  rw [gap_draftOf, flatMap_eq_nil_iff]
  constructor
  · intro h gap body hmem hrow
    have hf := h _ hmem
    rw [fill, if_pos hrow, map_eq_nil_iff] at hf
    exact (ha.texts _ hmem).1 hf
  · intro h change hmem
    cases change with
    | replace | cut => rfl
    | insert gap body => exact if_neg (h gap body hmem)

/-- An empty gap comes right after the rows that stand for the line before it. -/
theorem Admissible.upTo_homeRow (hf : (insert gap body).Follows changes)
    (hem : (draftOf lines changes).gap gap.row = [])
    (hh : HomeRow (draftOf lines changes) changes gap.row row) :
    (draftOf lines changes).upTo gap.row = (draftOf lines changes).upTo row := by
  refine upTo_eq_of_empty hh.le hh.between fun i hi hlt => ?_
  rcases hh.source with heq | ⟨span, text, operation, hmem, hs, hl⟩
  · omega
  · rcases hf with ⟨other, text', ho, hsa⟩ | hn
    · exact absurd hsa (ha.gap_eq_nil_iff.1 hem other text' ho)
    · rw [ha.gap_eq_nil_iff]
      intro other text' ho hrow
      exact hn span text operation hmem hl other text' ho ⟨by omega, by omega⟩

end

theorem gap_anchors {total : ℕ} (h : (insert gap body).Within total) :
    gap.before = (if gap.row = 0 then none else some gap.row) ∧
      gap.after = if gap.row < total then some (gap.row + 1) else none := by
  constructor
  · conv_lhs => rw [h.2]
    rfl
  · conv_lhs => rw [h.2]
    rfl

section

variable (h : Composed baseline lines changes state)
include h

/-- The last row that a gap is re-addressed after. -/
theorem Composed.gap_before (ha : Admissible lines changes)
    (hgap : (insert gap body).Within lines.length) (hf : (insert gap body).Follows changes)
    (hh : 0 < gap.row → ∃ row, HomeRow (draftOf lines changes) changes gap.row row) :
    (((indicesOf (fun origin => origin == .inserted ⟨gap.before, gap.after⟩)
        state.origins).getLast?.map (· + 1)) <|> state.lastIndexForOriginal gap.before) =
      if gap.row = 0 ∧ (draftOf lines changes).gap 0 = [] then none
      else some ((draftOf lines changes).flatten gap.row).length := by
  rw [h.lastInserted ha hgap, flatten_eq_upTo, length_append]
  by_cases hem : (draftOf lines changes).gap gap.row = []
  · rw [hem]
    by_cases hz : gap.row = 0
    · have hn : gap.before = none := (gap_anchors hgap).1.trans (if_pos hz)
      rw [if_pos ⟨hz, hz ▸ hem⟩, hn]
      rfl
    · have hs : gap.before = some gap.row := (gap_anchors hgap).1.trans (if_neg hz)
      obtain ⟨row, hrow⟩ := hh (Nat.pos_of_ne_zero hz)
      rw [if_neg (not_and_of_not_left _ hz), hs,
        (h.index_homeRow hrow (hrow.le.trans hgap.1)).2, ha.upTo_homeRow hf hem hrow]
      rfl
  · have hpos := length_pos_of_ne_nil hem
    have hnot : ¬(gap.row = 0 ∧ (draftOf lines changes).gap 0 = []) := fun hbo =>
      hem (hbo.1.symm ▸ hbo.2)
    rw [if_neg hnot, getLast?_range', if_neg hpos.ne', Option.map_some]
    refine congrArg some ?_
    omega

/-- The first row that a gap is re-addressed before. -/
theorem Composed.gap_after (hgap : (insert gap body).Within lines.length)
    (hh : gap.row < lines.length → ∃ row, HomeRow (draftOf lines changes) changes (gap.row + 1) row) :
    gap.row = lines.length ∧ state.firstIndexForOriginal gap.after = none ∨
      ∃ first, state.firstIndexForOriginal gap.after = some first ∧
        (gap.row = 0 → first = ((draftOf lines changes).gap 0).length + 1) := by
  by_cases hlt : gap.row < lines.length
  · have hs : gap.after = some (gap.row + 1) := (gap_anchors hgap).2.trans (if_pos hlt)
    obtain ⟨row, hrow⟩ := hh hlt
    refine .inr ⟨_, hs ▸ (h.index_homeRow hrow (hrow.le.trans hlt)).1, fun hz => ?_⟩
    have hle := hrow.le
    rw [show row - 1 = 0 by omega, flatten_zero]
  · have hn : gap.after = none := (gap_anchors hgap).2.trans (if_neg hlt)
    exact .inl ⟨le_antisymm hgap.1 (not_lt.1 hlt), by rw [hn]; rfl⟩

/-- A gap is re-addressed to the end of what was put into it, or behind the line before it. -/
theorem Composed.remapGap (ha : Admissible lines (changes ++ [.insert gap body]))
    (hf : (insert gap body).Follows changes) (label : String) :
    ∃ current, state.remapGap ⟨gap.before, gap.after⟩ label = .ok current ∧
      current.before.getD 0 = ((draftOf lines changes).flatten gap.row).length ∧
      gapPosition current (tagged lines changes).length =
        ((draftOf lines changes).flatten gap.row).length := by
  obtain ⟨hgap, -⟩ := ha.last
  have hn : ∀ line ∈ gap.anchors, ∀ span, .cut span ∈ changes → line ∉ span.lines :=
    fun line hl span hcut =>
      ha.independent.gaps gap body (by simp) span (mem_append_left _ hcut) line hl
  have hh {line : ℕ} (hl : line ∈ gap.anchors) (hpos : 0 < line) (hle : line ≤ lines.length) :
      ∃ row, HomeRow (draftOf lines changes) changes line row :=
    exists_homeRow ha.left.independent (fun _ _ _ hmem => (ha.left.texts _ hmem).1) hpos hle
      (hn line hl)
  have hfr : ∀ line ∈ gap.before.toList ++ gap.after.toList,
      state.deletedBy.find? line = none := by
    intro line hl
    by_contra hne
    obtain ⟨span, hcut, hmem⟩ := h.deleted line hne
    exact hn line hl span hcut hmem
  have hb := h.gap_before ha.left hgap hf fun hpos => hh (by
    simp [ResolvedGap.anchors, (gap_anchors hgap).1, hpos.ne']) hpos hgap.1
  have haf := h.gap_after hgap fun hlt => hh (by
    simp [ResolvedGap.anchors, (gap_anchors hgap).2, hlt]) (Nat.succ_pos _) hlt
  have hr : state.remapGap ⟨gap.before, gap.after⟩ label = .ok
      ⟨((indicesOf (fun origin => origin == .inserted ⟨gap.before, gap.after⟩)
        state.origins).getLast?.map (· + 1)) <|> state.lastIndexForOriginal gap.before,
        state.firstIndexForOriginal gap.after⟩ := by
    unfold CompositionState.remapGap
    rw [checkNotDeleted_of hfr]
    rfl
  refine ⟨_, hr, ?_⟩
  rw [hb]
  split_ifs with hs
  · have hfl : (draftOf lines changes).flatten gap.row = [] := by
      rw [hs.1, flatten_zero, hs.2]
    rw [hfl]
    refine ⟨rfl, ?_⟩
    rcases haf with ⟨-, hno⟩ | ⟨first, hso, hfi⟩
    · rw [hno]
      rfl
    · rw [hso, hfi hs.1, hs.2]
      rfl
  · refine ⟨rfl, ?_⟩
    rcases haf with ⟨hla, hno⟩ | ⟨first, hso, -⟩
    · rw [hno, hla]
      rfl
    · rw [hso]
      rfl

theorem Composed.insert (ho : operation = .put location (.text body) patchLine)
    (ha : Admissible lines (changes ++ [.insert gap body]))
    (hf : (insert gap body).Follows changes) :
    ∃ next, state.applyOperation operation ⟨opIndex, .gap gap⟩ registers = .ok (next, registers) ∧
      Written baseline lines (changes ++ [.insert gap body]) next := by
  obtain ⟨hgap, ht⟩ := ha.last
  obtain ⟨current, hr, hbe, hp⟩ := h.remapGap ha hf (operationLabel operation)
  have had : state.remapAddress (.gap gap) (operationLabel operation) = .ok (.gap current) :=
    Except.map_eq_ok_iff.2 ⟨current, hr, rfl⟩
  have hl : lowerOperation (handMerged lines changes) operation ⟨opIndex, .gap current⟩
      registers = .ok (lowerPutBody (.gap current) body opIndex, registers) := by
    rw [ho]
    rfl
  generalize htag : inserted ⟨gap.before, gap.after⟩ = tag
  have hn : tagged lines (changes ++ [.insert gap body]) = splice (tagged lines changes)
      ((draftOf lines changes).flatten gap.row).length
      ((draftOf lines changes).flatten gap.row).length (body.map fun line => (line, tag)) := by
    rw [tagged, draftOf_concat, apply, flatten_insert _ hgap.1, htag]
    rfl
  have hle : ((draftOf lines changes).flatten gap.row).length ≤ (tagged lines changes).length := by
    rw [tagged, flatten_split _ hgap.1, flatten_eq_upTo]
    exact (sublist_append_left _ _).length_le
  have hto : (tagged lines (changes ++ [.insert gap body])).length =
      (tagged lines changes).length + body.length := by
    rw [hn, length_splice le_rfl hle, length_map, Nat.sub_self, Nat.sub_zero]
  have hpos := length_pos_of_ne_nil ht.1
  refine h.written (fun total => splice state.origins (current.before.getD 0)
      (current.before.getD 0) (replicate (total - state.current.snapshot.totalLines) tag))
    state.deletedBy (by rw [ho]; rfl) (by rw [ho]; rfl) had hl ?_ ha
    (fun total hle => ?_) ?_ fun _ => h.deleted_append _
  · have hlen : (handMerged lines changes).length = (tagged lines changes).length :=
      length_map _
    have horigins : state.origins.length = (tagged lines changes).length := by
      rw [h.origins, length_map]
    rw [planLines_gap (by rw [hlen, ← horigins]; exact remapGap_anchors hr), hlen, hp]
    change _ = (tagged lines (changes ++ [.insert gap body])).map Prod.fst
    rw [hn, map_splice, map_fst_tag]
    rfl
  · have htot := totalLines_of_current h.current
    rw [ho, updateOrigins, if_neg (by omega), ← htag]
    rfl
  · simp only [hbe, hto, totalLines_of_current h.current, Nat.add_sub_cancel_left]
    rw [hn, map_splice, map_snd_tag, h.origins]

end

/-! ## Whole sequences -/

/-- No text was put between rows that are cut. -/
theorem gap_eq_nil_of_cut (ha : Admissible lines (changes ++ [.cut span])) {i : ℕ}
    (hi : i ∈ span.lines) : (draftOf lines changes).gap i = [] := by
  rw [ha.left.gap_eq_nil_iff]
  rintro gap body hmem rfl
  have hpos := pos_of_mem_lines hi
  have han : gap.row ∈ gap.anchors := by
    simp [ResolvedGap.anchors, (gap_anchors (ha.left.within _ hmem)).1, hpos.ne']
  exact ha.independent.gaps gap body (mem_append_left _ hmem) span (by simp) _ han hi

/-- An operation leads to the change that it makes. -/
theorem Composed.step (h : Composed baseline lines changes state) {resolved : ResolvedOperation}
    (hc : of operation resolved.address = some change)
    (ha : Admissible lines (changes ++ [change])) (hf : change.Follows changes)
    (hq : state.Quiet registers operation resolved)
    (hlo : lowerOperation lines operation resolved registers = .ok (edits, registers')) :
    ∃ next, state.applyOperation operation resolved registers = .ok (next, registers') ∧
      Written baseline lines (changes ++ [change]) next := by
  obtain ⟨hs, hte⟩ := ha.last
  obtain ⟨opIndex, address⟩ := resolved
  cases operation with
  | put location source patchLine =>
    cases source with
    | text body =>
      cases hlo
      cases address with
      | span span =>
        cases hc
        refine h.replace rfl rfl ha hs (fun i hi hlt => ?_) hte.1 hq
        rw [ha.left.gap_eq_nil_iff]
        rintro gap body' hmem rfl
        exact hf gap body' hmem ⟨hi, hlt⟩
      | gap gap =>
        cases hc
        exact h.insert rfl ha hf
      | wholeFile | blockAnchor _ | blockGapAnchor _ _ => cases hc
    | register register => cases hc
  | cut location register patchLine =>
    cases address with
    | span span =>
      cases hc
      refine h.cut rfl ha hs (fun i hi hlt => ?_) hq (lowerCutSpan_eq_ok hlo).2
      exact gap_eq_nil_of_cut ha (mem_lines.2 ⟨hi, hlt.le⟩)
    | wholeFile | gap _ | blockAnchor _ | blockGapAnchor _ _ => cases hc
  | rem | mv => cases hc

end Steps

end Aft.Hashline
