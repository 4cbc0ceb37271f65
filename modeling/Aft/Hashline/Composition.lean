import Aft.Hashline.RepairSpec
import Aft.Hashline.Reencode

/-!
# Steps of a composition

What one accepted operation does to a `CompositionState`: the address it is re-addressed to, the
lines it plans, and the origins it leaves. The origins keep the order of the pre-request rows, so a
re-addressed span never takes an untouched row of the baseline.
-/

namespace Aft.Hashline

open List Except LineOrigin CompositionState Option

/-! ## Planning one section -/

/-- The plan of a section of line operations. -/
def linePlanned (requestedPath : String) (canonicalPath : PathBuf) (baseline : Baseline)
    (lines : List String) (edits : List LineEdit) : PlannedFile where
  canonicalPath := canonicalPath
  requestedPath := requestedPath
  baselineBytes := baseline.bytes
  finalBytes := joinLines (planLines lines edits).finalLines
    (terminatorPolicy baseline.snapshot.records).1 (terminatorPolicy baseline.snapshot.records).2
  affected := affectedFromLineDiff lines (planLines lines edits).finalLines
  removeFile := false
  warnings := (planLines lines edits).warnings
  repairLayers := (planLines lines edits).repairLayers

variable {requestedPath : String} {canonicalPath : PathBuf} {baseline : Baseline}
  {registers registers' : StagedRegisters} {planned : PlannedFile}

theorem applySectionOps_eq_ok {operations : List Operation} {resolved : List ResolvedOperation}
    (h : applySectionOps requestedPath canonicalPath baseline operations resolved registers =
      .ok (planned, registers')) :
    operations.length = resolved.length ∧
      ((∃ line, operations = [.rem line]) ∧ registers' = registers ∧
        planned = ⟨canonicalPath, requestedPath, baseline.bytes, [], .default, true, [], []⟩ ∨
      operations.head?.any Operation.isRem = false ∧ operations.any Operation.isMv = false ∧
        ∃ lines edits, baselineLines baseline = .ok lines ∧
          lowerOperations lines (operations.zip resolved) registers = .ok (edits, registers') ∧
          planned = linePlanned requestedPath canonicalPath baseline lines edits) := by
  unfold applySectionOps at h
  by_cases hlen : operations.length = resolved.length
  · refine ⟨hlen, ?_⟩
    rw [if_neg (not_not.2 hlen)] at h
    cases hrem : operations.head?.any Operation.isRem with
    | true =>
      left
      rw [hrem] at h
      by_cases hone : operations.length = 1
      · rw [if_neg (not_not.2 hone)] at h
        obtain ⟨operation, rfl⟩ := length_eq_one_iff.1 hone
        cases operation with
        | rem line =>
          cases h
          exact ⟨⟨line, rfl⟩, rfl, rfl⟩
        | put | cut | mv => cases hrem
      · rw [if_pos hone] at h
        cases h
    | false =>
      right
      refine ⟨rfl, ?_⟩
      rw [hrem] at h
      cases hmv : operations.any Operation.isMv with
      | true =>
        rw [hmv] at h
        cases h
      | false =>
        refine ⟨rfl, ?_⟩
        rw [hmv] at h
        obtain ⟨⟨lines, plan, next⟩, hp, hr⟩ := bind_eq_ok_iff.1 h
        obtain ⟨lines', hl, hp⟩ := bind_eq_ok_iff.1 hp
        obtain ⟨⟨edits, next'⟩, hed, hp⟩ := bind_eq_ok_iff.1 hp
        cases hp
        cases hr
        exact ⟨lines, edits, hl, hed, rfl⟩
  · rw [if_pos hlen] at h
    cases h

variable {resolved : ResolvedOperation} {lines : List String} {edits : List LineEdit}
  {operation : Operation}

/-- One line operation, planned against given lines. -/
theorem applySectionOps_single (hrem : operation.isRem = false) (hmv : operation.isMv = false)
    (hl : baselineLines baseline = .ok lines)
    (hed : lowerOperation lines operation resolved registers = .ok (edits, registers')) :
    applySectionOps requestedPath canonicalPath baseline [operation] [resolved] registers =
      .ok (linePlanned requestedPath canonicalPath baseline lines edits, registers') := by
  have hlo : lowerOperations lines ([operation].zip [resolved]) registers =
      .ok (edits, registers') := by
    refine bind_eq_ok_iff.2 ⟨(edits, registers'), hed, ?_⟩
    refine bind_eq_ok_iff.2 ⟨([], registers'), rfl, ?_⟩
    simp only [append_nil]
    rfl
  have hp : planSectionLines baseline [operation] [resolved] registers =
      .ok (lines, planLines lines edits, registers') :=
    bind_eq_ok_iff.2 ⟨lines, hl, bind_eq_ok_iff.2 ⟨_, hlo, rfl⟩⟩
  unfold applySectionOps
  rw [if_neg (by simp), if_neg (by simp [hrem]), if_neg (by simp [hmv])]
  exact bind_eq_ok_iff.2 ⟨_, hp, rfl⟩

variable {line : ℕ}

theorem applySectionOps_put {address : Address} {source : PutSource}
    (h : applySectionOps requestedPath canonicalPath baseline [.put address source line] [resolved]
      registers = .ok (planned, registers')) :
    ∃ lines body, baselineLines baseline = .ok lines ∧
      putBody source resolved.address registers = .ok body ∧ registers' = registers ∧
      planned = linePlanned requestedPath canonicalPath baseline lines
        (lowerPutBody resolved.address body resolved.operationIndex) := by
  obtain ⟨-, ⟨⟨_, hrem⟩, -⟩ | ⟨-, -, lines, edits, hl, hed, rfl⟩⟩ := applySectionOps_eq_ok h
  · cases hrem
  · obtain ⟨⟨lowered, next⟩, hlo, hr⟩ := bind_eq_ok_iff.1 hed
    obtain ⟨edits', hput, hlo⟩ := bind_eq_ok_iff.1 hlo
    obtain ⟨body, hb, hput⟩ := bind_eq_ok_iff.1 hput
    cases hput
    cases hlo
    cases hr
    rw [append_nil]
    exact ⟨lines, body, hl, hb, rfl, rfl⟩

variable {register : Option RegisterRef} {opIndex : ℕ} {span : LineSpan}

/-- The edits of a CUT are those of a PUT of nothing over its span. -/
theorem lowerCutSpan_eq_ok
    (h : lowerCutSpan register span lines registers opIndex = .ok (edits, registers')) :
    edits = lowerPutBody (.span span) [] opIndex ∧
      registers.capture (register.getD .anonymous)
        (span.lines.map fun line => lines.getD (line - 1) "") = .ok registers' := by
  obtain ⟨next, hn, h⟩ := bind_eq_ok_iff.1 h
  cases h
  exact ⟨rfl, hn⟩

theorem applySectionOps_cut {address : Address}
    (h : applySectionOps requestedPath canonicalPath baseline [.cut address register line]
      [resolved] registers = .ok (planned, registers')) :
    ∃ lines edits, baselineLines baseline = .ok lines ∧
      lowerCut register resolved.address lines registers resolved.operationIndex =
        .ok (edits, registers') ∧
      planned = linePlanned requestedPath canonicalPath baseline lines edits := by
  obtain ⟨-, ⟨⟨_, hrem⟩, -⟩ | ⟨-, -, lines, edits, hl, hed, rfl⟩⟩ := applySectionOps_eq_ok h
  · cases hrem
  · obtain ⟨⟨edits', next⟩, hcut, hr⟩ := bind_eq_ok_iff.1 hed
    cases hr
    rw [append_nil]
    exact ⟨lines, edits', hl, hcut, rfl⟩

/-! ## Re-addressing -/

variable {index : ℕ} {origins : List LineOrigin}

theorem mem_indicesOf {p : LineOrigin → Bool} :
    index ∈ indicesOf p origins ↔ ∃ origin, origins[index]? = some origin ∧ p origin = true := by
  rw [indicesOf, mem_filter, mem_range]
  constructor
  · rintro ⟨hlt, hany⟩
    rw [getElem?_eq_getElem hlt] at hany ⊢
    exact ⟨_, rfl, hany⟩
  · rintro ⟨origin, hget, hp⟩
    obtain ⟨hlt, _⟩ := List.getElem?_eq_some_iff.1 hget
    exact ⟨hlt, by rw [hget]; exact hp⟩

variable {indices : List ℕ}

section

variable (hs : indices.Pairwise (· < ·)) (hne : indices ≠ []) (h : index ∈ indices)
include hs hne h

theorem index_le_getLast : index ≤ indices.getLast hne := by
  rw [← dropLast_append_getLast hne] at h hs
  rcases mem_append.1 h with h | h
  · exact ((pairwise_append.1 hs).2.2 _ h _ (mem_singleton_self _)).le
  · rw [mem_singleton.1 h]

theorem head_le_index : indices.head hne ≤ index := by
  cases indices with
  | nil => exact absurd rfl hne
  | cons first rest =>
    rcases mem_cons.1 h with rfl | h
    · exact le_rfl
    · exact ((pairwise_cons.1 hs).1 _ h).le

end

variable {label : String} {state : CompositionState}

theorem checkNotDeleted_eq_ok {lines : List ℕ} {reason : ℕ → String}
    (h : state.checkNotDeleted lines label reason = .ok ()) :
    ∀ line ∈ lines, state.deletedBy.find? line = none := by
  intro line hl
  unfold checkNotDeleted at h
  split at h
  · cases h
  · rename_i hn
    have := findSome?_eq_none_iff.1 hn line hl
    simpa using this

/-- Where a pre-request span went: from the first to the last row that it takes. -/
structure RemappedSpan (origins : List LineOrigin) (span current : LineSpan) : Prop where
  whole : ∀ origin ∈ origins, origin.selectedBy span ≠ none
  first : ∃ origin, origins[current.start - 1]? = some origin ∧
    origin.selectedBy span = some true
  last : ∃ origin, origins[current.stop - 1]? = some origin ∧
    origin.selectedBy span = some true
  between : ∀ index origin, origins[index]? = some origin → origin.selectedBy span = some true →
    current.start - 1 ≤ index ∧ index < current.stop

theorem remapSpan_eq_ok {current : LineSpan} (h : state.remapSpan span label = .ok current) :
    (∀ line ∈ span.lines, state.deletedBy.find? line = none) ∧
      RemappedSpan state.origins span current := by
  obtain ⟨⟨⟩, hd, h⟩ := bind_eq_ok_iff.1 h
  refine ⟨checkNotDeleted_eq_ok hd, ?_⟩
  split at h
  · cases h
  · rename_i hn
    simp only at h
    split_ifs at h with hem
    cases h
    have hs := indicesOf_pairwise (fun origin => origin.selectedBy span == some true) state.origins
    have hmem {index : ℕ} : index ∈ indicesOf
        (fun origin => origin.selectedBy span == some true) state.origins ↔ _ := mem_indicesOf
    refine ⟨fun origin ho => ?_, ?_, ?_, fun index origin hget hse => ?_⟩
    · simpa using find?_eq_none.1 hn origin ho
    · obtain ⟨origin, hget, hse⟩ := hmem.1 (head_mem hem)
      exact ⟨origin, hget, by simpa using hse⟩
    · obtain ⟨origin, hget, hse⟩ := hmem.1 (getLast_mem hem)
      exact ⟨origin, hget, by simpa using hse⟩
    · have hin := hmem.2 ⟨origin, hget, by simpa using hse⟩
      exact ⟨head_le_index hs hem hin, Nat.lt_succ_of_le (index_le_getLast hs hem hin)⟩

theorem RemappedSpan.stop_le {current : LineSpan} (h : RemappedSpan origins span current) :
    current.stop ≤ origins.length := by
  obtain ⟨origin, hget, -⟩ := h.last
  obtain ⟨hlt, -⟩ := List.getElem?_eq_some_iff.1 hget
  omega

/-- The rows a gap was re-addressed to are rows of the current file. -/
theorem remapGap_anchors {gap : OriginalGap} {current : ResolvedGap}
    (h : state.remapGap gap label = .ok current) :
    ∀ r ∈ current.anchors, 0 < r ∧ r ≤ state.origins.length := by
  obtain ⟨⟨⟩, -, h⟩ := bind_eq_ok_iff.1 h
  have hra {p : LineOrigin → Bool} {index : ℕ} (hin : index ∈ indicesOf p state.origins) :
      0 < index + 1 ∧ index + 1 ≤ state.origins.length := by
    obtain ⟨origin, hget, -⟩ := mem_indicesOf.1 hin
    obtain ⟨hlt, -⟩ := List.getElem?_eq_some_iff.1 hget
    exact ⟨Nat.succ_pos _, hlt⟩
  cases h
  intro r hr
  simp only [ResolvedGap.anchors, mem_append, mem_toList] at hr
  rcases hr with hr | hr
  · rcases (orElse_eq_some _ _ _).1 hr with hr | ⟨-, hr⟩
    · obtain ⟨index, hin, rfl⟩ := map_eq_some_iff.1 hr
      exact hra (mem_of_getLast? hin)
    · obtain ⟨line, -, hr⟩ := bind_eq_some_iff.1 hr
      obtain ⟨index, hin, rfl⟩ := map_eq_some_iff.1 hr
      exact hra (mem_of_getLast? hin)
  · obtain ⟨line, -, hr⟩ := bind_eq_some_iff.1 hr
    obtain ⟨index, hin, rfl⟩ := map_eq_some_iff.1 hr
    exact hra (mem_of_head? hin)

/-! ## The order of the origins -/

/-- The first and the last pre-request row that a row stands for. -/
def LineOrigin.range : LineOrigin → Option (ℕ × ℕ)
  | .original line => some (line, line)
  | .replacement source _ => some (source.start, source.stop)
  | .inserted _ => none

/-- Rows that stand for pre-request rows are in their order; rows of one replacement stand for the
same rows. -/
def LineOrigin.Precedes (a b : LineOrigin) : Prop :=
  ∀ r ∈ a.range, ∀ s ∈ b.range, r.2 < s.1 ∨
    ∃ source first second, a = .replacement source first ∧ b = .replacement source second

variable {origin : LineOrigin} {r : ℕ × ℕ}

theorem LineOrigin.range_le (h : r ∈ origin.range) : r.1 ≤ r.2 := by
  cases origin with
  | original line => cases h; exact le_rfl
  | replacement source operation => cases h; exact source.le
  | inserted gap => cases h

theorem LineOrigin.range_of_selected (h : origin.selectedBy span = some true) :
    ∃ r ∈ origin.range, span.start ≤ r.1 ∧ r.2 ≤ span.stop := by
  cases origin with
  | original line =>
    simp only [selectedBy, some.injEq, decide_eq_true_eq] at h
    exact ⟨_, rfl, h⟩
  | replacement source operation =>
    refine ⟨_, rfl, ?_⟩
    simp only [selectedBy] at h
    split_ifs at h with ho hc
    · simpa [spanContains] using hc
    · simp at h
  | inserted gap => simp [selectedBy] at h

theorem LineOrigin.range_of_unselected (h : origin.selectedBy span = some false)
    (hr : r ∈ origin.range) : r.2 < span.start ∨ span.stop < r.1 := by
  cases origin with
  | original line =>
    cases hr
    simp only [selectedBy, some.injEq, decide_eq_false_iff_not] at h
    omega
  | replacement source operation =>
    cases hr
    simp only [selectedBy] at h
    split_ifs at h with ho hc
    · simp at h
    · simp only [spansOverlap, decide_eq_true_eq] at ho
      omega
  | inserted gap => cases hr

theorem LineOrigin.Precedes.of_inserted_left (gap : OriginalGap) (b : LineOrigin) :
    (inserted gap).Precedes b :=
  nofun

section Remapped

variable {origins : List LineOrigin} {span current : LineSpan}

variable {p : ℕ} {a : LineOrigin}

theorem precedes_of_lt (ho : origins.Pairwise LineOrigin.Precedes) {q : ℕ} {b : LineOrigin}
    (hpq : p < q) (ha : origins[p]? = some a) (hb : origins[q]? = some b) : a.Precedes b := by
  obtain ⟨hp, rfl⟩ := List.getElem?_eq_some_iff.1 ha
  obtain ⟨hq, rfl⟩ := List.getElem?_eq_some_iff.1 hb
  exact pairwise_iff_getElem.1 ho p q hp hq hpq

section

variable (h : RemappedSpan origins span current)
include h

theorem RemappedSpan.unselected (ha : origins[p]? = some a)
    (hp : p < current.start - 1 ∨ current.stop ≤ p) : a.selectedBy span = some false := by
  cases hs : a.selectedBy span with
  | none => exact absurd hs (h.whole a (mem_of_getElem? ha))
  | some selected =>
    cases selected with
    | false => rfl
    | true =>
      have := h.between p a ha hs
      omega

section

variable (ho : origins.Pairwise LineOrigin.Precedes)
include ho

theorem RemappedSpan.before (ha : origins[p]? = some a) (hp : p < current.start - 1)
    (hr : r ∈ a.range) : r.2 < span.start := by
  obtain ⟨first, hf, hse⟩ := h.first
  have hu := h.unselected ha (.inl hp)
  obtain ⟨s, hs, hst, hsto⟩ := range_of_selected hse
  have hle := range_le hr
  have hle' := range_le hs
  rcases precedes_of_lt ho hp ha hf r hr s hs with hlt | ⟨source, x, y, rfl, rfl⟩
  · rcases range_of_unselected hu hr with hout | hout
    · exact hout
    · omega
  · cases hu.symm.trans hse

theorem RemappedSpan.after (ha : origins[p]? = some a) (hp : current.stop ≤ p) (hr : r ∈ a.range) :
    span.stop < r.1 := by
  obtain ⟨last, hl, hse⟩ := h.last
  have hu := h.unselected ha (.inr hp)
  obtain ⟨s, hs, hst, hsto⟩ := range_of_selected hse
  have hle := range_le hr
  have hle' := range_le hs
  have hlt : current.stop - 1 < p := by
    have := current.pos
    have := current.le
    omega
  rcases precedes_of_lt ho hlt hl ha s hs r hr with hlt | ⟨source, x, y, rfl, rfl⟩
  · rcases range_of_unselected hu hr with hout | hout
    · omega
    · exact hout
  · cases hse.symm.trans hu

/-- The re-addressed span takes no baseline row outside the pre-request span. -/
theorem RemappedSpan.mem_of_original (ha : origins[p]? = some (.original line))
    (hf : current.start - 1 ≤ p) (hl : p < current.stop) : line ∈ span.lines := by
  obtain ⟨first, hfi, hfir⟩ := h.first
  obtain ⟨last, hla, hlas⟩ := h.last
  obtain ⟨r, hr, hrs, -⟩ := range_of_selected hfir
  obtain ⟨s, hs, -, hss⟩ := range_of_selected hlas
  have hrle := range_le hr
  have hsle := range_le hs
  have hli : (line, line) ∈ (original line).range := rfl
  rw [LineSpan.mem_lines]
  constructor
  · rcases eq_or_lt_of_le hf with heq | hlt
    · rw [heq, ha] at hfi
      cases hfi
      cases hr
      exact hrs
    · rcases precedes_of_lt ho hlt hfi ha r hr _ hli with hlt | ⟨_, _, _, _, heq⟩
      · omega
      · cases heq
  · rcases eq_or_lt_of_le (Nat.le_sub_one_of_lt hl) with heq | hlt
    · rw [← heq, ha] at hla
      cases hla
      cases hs
      exact hss
    · rcases precedes_of_lt ho hlt ha hla _ hli s hs with hlt | ⟨_, _, _, heq, _⟩
      · omega
      · cases heq

theorem original_mem_splice (hl : line ∉ span.lines) (hmem : .original line ∈ origins)
    (new : List LineOrigin) :
    .original line ∈ splice origins (current.start - 1) current.stop new := by
  obtain ⟨p, hp⟩ := getElem?_of_mem hmem
  rw [splice, mem_append, mem_append]
  rcases lt_or_ge p (current.start - 1) with hlt | hge
  · exact .inl (.inl (mem_of_getElem? ((getElem?_take_of_lt hlt).trans hp)))
  · rcases lt_or_ge p current.stop with hlt' | hge'
    · exact absurd (h.mem_of_original ho hp hge hlt') hl
    · refine .inr (mem_of_getElem? (i := p - current.stop) ?_)
      rw [getElem?_drop, Nat.add_sub_cancel' hge', hp]

end

end

theorem pairwise_splice {α : Type*} {R : α → α → Prop} {l new : List α} {i j : ℕ}
    (hl : l.Pairwise R) (hij : i ≤ j) (hn : new.Pairwise R)
    (hb : ∀ p < i, ∀ a, l[p]? = some a → ∀ b ∈ new, R a b)
    (ha : ∀ p, j ≤ p → ∀ a, l[p]? = some a → ∀ b ∈ new, R b a) : (splice l i j new).Pairwise R := by
  have hsub : (l.take i ++ l.drop j).Sublist l := by
    conv_rhs => rw [← take_append_drop i l]
    refine (List.Sublist.refl _).append ?_
    rw [← Nat.add_sub_cancel' hij, ← drop_drop]
    exact drop_sublist _ _
  obtain ⟨ht, hd, hc⟩ := pairwise_append.1 (hl.sublist hsub)
  rw [splice, append_assoc, pairwise_append, pairwise_append]
  refine ⟨ht, ⟨hn, hd, fun b hb a hmem => ?_⟩, fun a hmem b hb' => ?_⟩
  · obtain ⟨p, hp⟩ := getElem?_of_mem hmem
    rw [getElem?_drop] at hp
    exact ha _ (Nat.le_add_right _ _) a hp b hb
  · rcases mem_append.1 hb' with hb' | hb'
    · obtain ⟨p, hp⟩ := getElem?_of_mem hmem
      rw [getElem?_take] at hp
      split_ifs at hp with hlt
      exact hb p hlt a hp b hb'
    · exact hc a hmem b hb'

/-- Replacing the re-addressed rows by rows of one replacement keeps the order. -/
theorem precedes_splice (h : RemappedSpan origins span current)
    (ho : origins.Pairwise LineOrigin.Precedes) (count : ℕ) (operation : String) :
    (splice origins (current.start - 1) current.stop
      (List.replicate count (.replacement span operation))).Pairwise LineOrigin.Precedes := by
  have hle := current.le
  refine pairwise_splice ho (by omega) ?_ (fun p hp a ha b hb r hr s hs => ?_)
    fun p hp a ha b hb r hr s hs => ?_
  · exact pairwise_replicate.2 (.inr fun _ _ _ _ => .inr ⟨span, _, _, rfl, rfl⟩)
  · obtain rfl := eq_of_mem_replicate hb
    cases hs
    exact .inl (h.before ho ha hp hr)
  · obtain rfl := eq_of_mem_replicate hb
    cases hr
    exact .inl (h.after ho ha hp hs)

end Remapped

/-- Inserting rows that stand for no pre-request row keeps the order. -/
theorem precedes_insert (ho : origins.Pairwise LineOrigin.Precedes) (index count : ℕ)
    (gap : OriginalGap) :
    (splice origins index index (List.replicate count (.inserted gap))).Pairwise
      LineOrigin.Precedes := by
  refine pairwise_splice ho le_rfl (pairwise_replicate.2 (.inr (.of_inserted_left _ _)))
    (fun p _ a _ b hb r hr s hs => ?_) fun p _ a _ b hb => ?_
  · obtain rfl := eq_of_mem_replicate hb
    cases hs
  · obtain rfl := eq_of_mem_replicate hb
    exact .of_inserted_left _ _

/-! ## One step -/

variable {next : CompositionState}

theorem applyOperation_eq_ok
    (h : state.applyOperation operation resolved registers = .ok (next, registers')) :
    state.removedBy = none ∧ ∃ address planned updated,
      state.remapAddress resolved.address (operationLabel operation) = .ok address ∧
      applySectionOps state.requestedPath state.canonicalPath state.current [operation]
        [⟨resolved.operationIndex, address⟩] registers = .ok (planned, registers') ∧
      state.updateOrigins operation resolved.address address (operationLabel operation)
        state.current.snapshot.totalLines
        (Baseline.fromBytes planned.finalBytes).snapshot.totalLines = .ok updated ∧
      next = { updated with
        current := .fromBytes planned.finalBytes
        removeFile := planned.removeFile
        warnings := state.warnings ++ planned.warnings
        repairLayers := addLayers state.repairLayers planned.repairLayers } := by
  unfold applyOperation at h
  cases hr : state.removedBy with
  | some previous =>
    rw [hr] at h
    cases h
  | none =>
    rw [hr] at h
    obtain ⟨address, had, h⟩ := bind_eq_ok_iff.1 h
    obtain ⟨⟨planned, next'⟩, hp, h⟩ := bind_eq_ok_iff.1 h
    obtain ⟨updated, hu, h⟩ := bind_eq_ok_iff.1 h
    cases h
    exact ⟨rfl, address, planned, updated, had, hp, hu, rfl⟩

variable {updated : CompositionState}

/-- The fields that no operation changes. -/
theorem updateOrigins_frame {original current : ResolvedAddress} {before after : ℕ}
    (h : state.updateOrigins operation original current label before after = .ok updated) :
    updated.canonicalPath = state.canonicalPath ∧ updated.requestedPath = state.requestedPath ∧
      updated.original = state.original := by
  unfold updateOrigins at h
  split at h
  · split at h
    · simp only at h
      split_ifs at h
      cases h
      exact ⟨rfl, rfl, rfl⟩
    · simp only at h
      split_ifs at h
      cases h
      exact ⟨rfl, rfl, rfl⟩
    · cases h
      exact ⟨rfl, rfl, rfl⟩
  · split at h <;> cases h <;> exact ⟨rfl, rfl, rfl⟩
  · cases h
    exact ⟨rfl, rfl, rfl⟩
  · cases h
    exact ⟨rfl, rfl, rfl⟩

/-- How an accepted operation changes the origins. -/
inductive OriginsStep (state : CompositionState) : Operation → ResolvedAddress → ResolvedAddress →
    ℕ → List LineOrigin → Prop
  | put {address source line span current after} (hspan : RemappedSpan state.origins span current)
      (hcount : state.current.snapshot.totalLines ≤ after + (current.stop - current.start + 1)) :
      OriginsStep state (.put address source line) (.span span) (.span current) after
        (splice state.origins (current.start - 1) current.stop (List.replicate
          (after + (current.stop - current.start + 1) - state.current.snapshot.totalLines)
          (.replacement span (operationLabel (.put address source line)))))
  | insert {address source line gap current after}
      (hanchors : ∀ r ∈ current.anchors, 0 < r ∧ r ≤ state.origins.length)
      (hcount : state.current.snapshot.totalLines ≤ after) :
      OriginsStep state (.put address source line) (.gap gap) (.gap current) after
        (splice state.origins (current.before.getD 0) (current.before.getD 0) (List.replicate
          (after - state.current.snapshot.totalLines) (.inserted ⟨gap.before, gap.after⟩)))
  | cut {address register line span current after}
      (hspan : RemappedSpan state.origins span current) :
      OriginsStep state (.cut address register line) (.span span) (.span current) after
        (splice state.origins (current.start - 1) current.stop [])
  | rem {line address current after} : OriginsStep state (.rem line) address current after []
  | other {operation address after} (hspan : ∀ span, address ≠ .span span)
      (hgap : ∀ gap, address ≠ .gap gap) (hrem : operation.isRem = false) :
      OriginsStep state operation address address after state.origins

theorem applySectionOps_mv {destination : String} {result : PlannedFile × StagedRegisters} :
    applySectionOps requestedPath canonicalPath baseline [.mv destination line] [resolved]
      registers ≠ .ok result := by
  rintro h
  obtain ⟨-, ⟨⟨_, hrem⟩, -⟩ | ⟨-, hmv, -⟩⟩ := applySectionOps_eq_ok h
  · cases hrem
  · cases hmv

theorem applyOperation_origins
    (h : state.applyOperation operation resolved registers = .ok (next, registers')) :
    ∃ address planned,
      state.remapAddress resolved.address (operationLabel operation) = .ok address ∧
      applySectionOps state.requestedPath state.canonicalPath state.current [operation]
        [⟨resolved.operationIndex, address⟩] registers = .ok (planned, registers') ∧
      next.current = .fromBytes planned.finalBytes ∧ next.original = state.original ∧
      OriginsStep state operation resolved.address address
        (Baseline.fromBytes planned.finalBytes).snapshot.totalLines next.origins := by
  obtain ⟨-, address, planned, updated, had, hp, hu, rfl⟩ := applyOperation_eq_ok h
  refine ⟨address, planned, had, hp, rfl, (updateOrigins_frame hu).2.2, ?_⟩
  obtain ⟨opIndex, target⟩ := resolved
  simp only at had hp hu ⊢
  cases operation with
  | put location source line =>
    cases target with
    | span span =>
      obtain ⟨current, hs, rfl⟩ := map_eq_ok_iff.1 had
      simp only [updateOrigins] at hu
      split_ifs at hu with hc
      cases hu
      exact .put (remapSpan_eq_ok hs).2 (not_lt.1 hc)
    | gap gap =>
      obtain ⟨current, hgap, rfl⟩ := map_eq_ok_iff.1 had
      simp only [updateOrigins] at hu
      split_ifs at hu with hc
      cases hu
      exact .insert (remapGap_anchors hgap) (not_lt.1 hc)
    | wholeFile | blockAnchor _ | blockGapAnchor _ _ =>
      cases had
      cases hu
      exact .other (by simp) (by simp) rfl
  | cut location register line =>
    cases target with
    | span span =>
      obtain ⟨current, hs, rfl⟩ := map_eq_ok_iff.1 had
      cases hu
      rw [← append_nil (state.origins.take (current.start - 1))]
      exact .cut (remapSpan_eq_ok hs).2
    | gap gap =>
      obtain ⟨current, -, rfl⟩ := map_eq_ok_iff.1 had
      obtain ⟨lines, edits, -, hcut, -⟩ := applySectionOps_cut hp
      cases hcut
    | wholeFile | blockAnchor _ | blockGapAnchor _ _ =>
      cases had
      cases hu
      exact .other (by simp) (by simp) rfl
  | rem line =>
    cases hu
    exact .rem
  | mv destination line => exact absurd hp applySectionOps_mv

section Step

variable {state : CompositionState} {operation : Operation} {address current : ResolvedAddress}
  {after : ℕ} {origins : List LineOrigin}

theorem OriginsStep.ordered (h : OriginsStep state operation address current after origins)
    (ho : state.origins.Pairwise LineOrigin.Precedes) : origins.Pairwise LineOrigin.Precedes := by
  cases h with
  | put hs => exact precedes_splice hs ho _ _
  | insert => exact precedes_insert ho _ _ _
  | cut hs =>
    exact precedes_splice hs ho 0 ""
  | rem => exact List.Pairwise.nil
  | other => exact ho

/-- The baseline rows that an operation may replace or delete. -/
def ResolvedAddress.Takes : ResolvedAddress → ℕ → Prop
  | .span rows, line => line ∈ rows.lines
  | .wholeFile, _ => True
  | .gap _, _ | .blockAnchor _, _ | .blockGapAnchor _ _, _ => False

instance : (address : ResolvedAddress) → (line : ℕ) → Decidable (address.Takes line)
  | .span rows, line => inferInstanceAs (Decidable (line ∈ rows.lines))
  | .wholeFile, _ => .isTrue trivial
  | .gap _, _ | .blockAnchor _, _ | .blockGapAnchor _ _, _ => .isFalse id

/-- An original row that an operation does not take stays. -/
theorem OriginsStep.original_mem (h : OriginsStep state operation address current after origins)
    (ho : state.origins.Pairwise LineOrigin.Precedes) (hrem : operation.isRem = false)
    (hl : ¬ address.Takes line) (hmem : .original line ∈ state.origins) :
    .original line ∈ origins := by
  cases h with
  | put hs => exact original_mem_splice hs ho hl hmem _
  | insert =>
    rw [splice, mem_append, mem_append]
    rw [← take_append_drop _ state.origins] at hmem
    exact (mem_append.1 hmem).imp_left Or.inl
  | cut hs => exact original_mem_splice hs ho hl hmem _
  | rem => cases hrem
  | other => exact hmem

end Step

def readSection (bytes : Bytes) (operations : List Operation) (addresses : List ResolvedAddress) :
    SectionPlanInput where
  canonicalPath := ["f"]
  requestedPath := "f"
  baseline := .fromBytes bytes
  snapshot := scanBytes bytes
  operations := operations
  resolved := addresses.zipIdx.map fun (address, index) => ⟨index, address⟩

end Aft.Hashline
