import Aft.Hashline.EditsSpec

/-!
# What coalescing and repair keep

Coalescing never deletes a line that no edit deletes, and is the identity on the edits of operations
with distinct indices. The repair layers keep every delete; without a warning they change nothing;
and on the edits of one PUT over a span they only change its body.
-/

namespace Aft.Hashline

open List LineEdit

/-! ## Coalescing -/

/-- A contiguous list holds every number between its first and its last element. -/
theorem mem_of_isContiguous {l : List ℕ} {a b x : ℕ} (h : isContiguous l = true)
    (ha : l.head? = some a) (hb : l.getLast? = some b) (hax : a ≤ x) (hxb : x ≤ b) : x ∈ l := by
  induction l generalizing a with
  | nil => simp at ha
  | cons first rest ih =>
    obtain rfl : first = a := by simpa using ha
    rcases eq_or_lt_of_le hax with rfl | hlt
    · exact mem_cons_self
    · cases rest with
      | nil =>
        obtain rfl : first = b := by simpa using hb
        omega
      | cons second rest =>
        simp only [isContiguous, Bool.and_eq_true, beq_iff_eq] at h
        refine mem_cons_of_mem _ (ih h.2 rfl ?_ (by omega))
        rwa [getLast?_cons_cons] at hb

theorem deletedLine_inserts (anchor opIndex : ℕ) (place : InsertPlace) (mode : InsertMode)
    (body : List String) :
    (body.map fun text => insert anchor place text mode opIndex).filterMap deletedLine = [] := by
  simp [deletedLine]

theorem deletedLine_deletes (lines : List ℕ) (opIndex : ℕ) :
    (lines.map fun line => delete line opIndex).filterMap deletedLine = lines := by
  simp [Function.comp_def, deletedLine]

variable {edits : List LineEdit} {line : ℕ}

theorem deletedLine_coalesceOneOp (h : line ∈ (coalesceOneOp edits).filterMap deletedLine) :
    line ∈ edits.filterMap deletedLine := by
  unfold coalesceOneOp at h
  simp only at h
  split at h
  · rename_i start stop hs hst
    split_ifs at h with hc
    · exact h
    · simp only [Bool.or_eq_true, Bool.not_eq_true', not_or, Bool.not_eq_false] at hc
      rw [filterMap_append, filterMap_append, deletedLine_inserts, deletedLine_deletes,
        append_nil, mem_append] at h
      rcases h with h | h
      · obtain ⟨edit, hed, heq⟩ := mem_filterMap.1 h
        exact mem_filterMap.2 ⟨edit, (mem_filter.1 hed).1, heq⟩
      · have hr := mem_range'_1.1 h
        have hmem := mem_of_isContiguous hc.2 hs hst hr.1 (by omega)
        rwa [mem_dedup, mem_insertionSort] at hmem
  · exact h

theorem deletedLine_coalesce (h : line ∈ (coalesceReplacementEdits edits).filterMap deletedLine) :
    line ∈ edits.filterMap deletedLine := by
  obtain ⟨edit, hed, heq⟩ := mem_filterMap.1 h
  obtain ⟨op, -, hop⟩ := mem_flatMap.1 hed
  have hone := deletedLine_coalesceOneOp (mem_filterMap.2 ⟨edit, hop, heq⟩)
  obtain ⟨source, hs, hl⟩ := mem_filterMap.1 hone
  exact mem_filterMap.2 ⟨source, (mem_filter.1 hs).1, hl⟩

theorem coalesceReplacementEdits_append {a b : List LineEdit}
    (h : ∀ x ∈ a, ∀ y ∈ b, x.opIndex ≠ y.opIndex) :
    coalesceReplacementEdits (a ++ b) =
      coalesceReplacementEdits a ++ coalesceReplacementEdits b := by
  have hr : (b.map opIndex).removeAll (a.map opIndex) =
      b.map opIndex := by
    rw [removeAll, filter_eq_self]
    intro op hop
    obtain ⟨y, hy, rfl⟩ := mem_map.1 hop
    simpa using fun x hx heq => h x hx y hy heq
  unfold coalesceReplacementEdits
  rw [map_append, eraseDups_append, hr, flatMap_append]
  congr 1
  · refine flatMap_congr fun op hop => ?_
    obtain ⟨x, hx, rfl⟩ := mem_map.1 (mem_eraseDups.1 hop)
    have hn : (b.filter fun edit => edit.opIndex = x.opIndex) = [] :=
      filter_eq_nil_iff.2 fun y hy => by simpa using (h x hx y hy).symm
    rw [filter_append, hn, append_nil]
  · refine flatMap_congr fun op hop => ?_
    obtain ⟨y, hy, rfl⟩ := mem_map.1 (mem_eraseDups.1 hop)
    have hn : (a.filter fun edit => edit.opIndex = y.opIndex) = [] :=
      filter_eq_nil_iff.2 fun x hx => by simpa using h x hx y hy
    rw [filter_append, hn, nil_append]

theorem coalesceReplacementEdits_oneOp {op : ℕ} (hop : ∀ edit ∈ edits, edit.opIndex = op)
    (hone : coalesceOneOp edits = edits) : coalesceReplacementEdits edits = edits := by
  cases edits with
  | nil => rfl
  | cons first rest =>
    have hops : ((first :: rest).map opIndex).eraseDups = [op] := by
      rw [map_cons, eraseDups_cons, hop first mem_cons_self, filter_eq_nil_iff.2, eraseDups_nil]
      intro other ho
      obtain ⟨edit, hed, rfl⟩ := mem_map.1 ho
      simp [hop edit (mem_cons_of_mem _ hed)]
    unfold coalesceReplacementEdits
    rw [hops, flatMap_cons, flatMap_nil, append_nil,
      filter_eq_self.2 fun edit hed => by simpa using hop edit hed, hone]

theorem coalesceOneOp_of_no_delete (h : edits.filterMap deletedLine = []) :
    coalesceOneOp edits = edits := by
  unfold coalesceOneOp
  rw [h]
  rfl

theorem LineSpan.lines_sorted (span : LineSpan) :
    (span.lines.insertionSort (· ≤ ·)).dedup = span.lines := by
  have hlt : span.lines.Pairwise (· < ·) := pairwise_lt_range'
  rw [(hlt.imp le_of_lt).insertionSort_eq]
  exact List.Nodup.dedup (hlt.imp Nat.ne_of_lt)

theorem LineSpan.lines_head? (span : LineSpan) : span.lines.head? = some span.start := by
  have := span.le
  obtain ⟨n, hn⟩ : ∃ n, span.stop + 1 - span.start = n + 1 := ⟨span.stop - span.start, by omega⟩
  rw [lines, hn, range'_succ, head?_cons]

theorem LineSpan.lines_getLast? (span : LineSpan) : span.lines.getLast? = some span.stop := by
  have := span.le
  rw [lines, getLast?_range', if_neg (by omega)]
  congr 1
  omega

variable {body : List String} {edit : LineEdit}

theorem opIndex_lowerPutBody {address : ResolvedAddress} {opIndex : ℕ}
    (h : edit ∈ lowerPutBody address body opIndex) : edit.opIndex = opIndex := by
  cases address <;> simp only [lowerPutBody, mem_append, mem_map, not_mem_nil] at h
  · obtain ⟨_, _, rfl⟩ := h
    rfl
  · rcases h with ⟨_, _, rfl⟩ | ⟨_, _, rfl⟩ <;> rfl
  · obtain ⟨_, _, rfl⟩ := h
    rfl

section

variable (address : ResolvedAddress) (body : List String) (opIndex : ℕ)

/-- The edits of one PUT are already in their coalesced form. -/
theorem coalesceOneOp_lowerPutBody :
    coalesceOneOp (lowerPutBody address body opIndex) = lowerPutBody address body opIndex := by
  cases address with
  | span span =>
    have hd : (lowerPutBody (.span span) body opIndex).filterMap deletedLine =
        span.lines := by
      rw [lowerPutBody, filterMap_append, deletedLine_inserts, deletedLine_deletes, nil_append]
    have ht : (lowerPutBody (.span span) body opIndex).filterMap replacementText =
        body := by
      simp [lowerPutBody, Function.comp_def, replacementText]
    have hp : (lowerPutBody (.span span) body opIndex).filter
        (fun edit => !edit.isDelete && !edit.isReplacementInsert) = [] := by
      simp [lowerPutBody, isDelete, isReplacementInsert]
    unfold coalesceOneOp
    simp only [hd, ht, hp, span.lines_sorted, span.lines_head?, span.lines_getLast?]
    split_ifs with hc
    · rfl
    · cases body with
      | nil => simp at hc
      | cons text rest => rfl
  | gap | wholeFile => exact coalesceOneOp_of_no_delete (deletedLine_inserts _ _ _ _ _)
  | blockAnchor | blockGapAnchor => rfl

theorem coalesceReplacementEdits_lowerPutBody : coalesceReplacementEdits (lowerPutBody address body opIndex) =
      lowerPutBody address body opIndex :=
  coalesceReplacementEdits_oneOp (fun _ => opIndex_lowerPutBody) (coalesceOneOp_lowerPutBody ..)

end

/-! ## Groups -/

theorem takeInserts_spec (anchor opIndex : ℕ) (edits : List LineEdit) :
    (∃ rest, edits = takeInserts anchor opIndex edits ++ rest) ∧
      ∀ edit ∈ takeInserts anchor opIndex edits,
        ∃ text, edit = .insert anchor .before text .replacement opIndex := by
  fun_induction takeInserts anchor opIndex edits with
  | case1 a text op rest h ih =>
    obtain ⟨rfl, rfl⟩ := h
    obtain ⟨⟨tail, ht⟩, hall⟩ := ih
    refine ⟨⟨tail, by rw [cons_append, ← ht]⟩, fun edit hed => ?_⟩
    rcases mem_cons.1 hed with rfl | hed
    · exact ⟨text, rfl⟩
    · exact hall edit hed
  | case2 | case3 => exact ⟨⟨_, rfl⟩, by simp⟩

theorem takeDeletes_spec (expected opIndex : ℕ) (edits : List LineEdit) :
    (∃ rest, edits = takeDeletes expected opIndex edits ++ rest) ∧
      ∀ edit ∈ takeDeletes expected opIndex edits, edit.isDelete = true := by
  fun_induction takeDeletes expected opIndex edits with
  | case1 expected line op rest h ih =>
    obtain ⟨⟨tail, ht⟩, hall⟩ := ih
    refine ⟨⟨tail, by rw [cons_append, ← ht]⟩, fun edit hed => ?_⟩
    rcases mem_cons.1 hed with rfl | hed
    · rfl
    · exact hall edit hed
  | case2 | case3 => exact ⟨⟨_, rfl⟩, by simp⟩

structure GroupAt (edits : List LineEdit) (group : ReplacementGroup) : Prop where
  split : edits = group.edits ++ edits.drop (group.inserts.length + group.deletes.length)
  inserts : ∀ edit ∈ group.inserts,
    ∃ text, edit = .insert group.startLine .before text .replacement group.opIndex
  deletes : ∀ edit ∈ group.deletes, edit.isDelete = true
  payload : group.payload = group.inserts.filterMap LineEdit.replacementText

/-- Edits that give a group other texts, and some if it has any. -/
def ReplacementGroup.Retexts (group : ReplacementGroup) (edits : List LineEdit) : Prop :=
  ∃ texts, edits = texts.map (fun text =>
      .insert group.startLine .before text .replacement group.opIndex) ++ group.deletes ∧
    (texts = [] → group.inserts = [])

variable {group : ReplacementGroup}

theorem findReplacementGroup_some (h : findReplacementGroup edits = some group) :
    GroupAt edits group := by
  unfold findReplacementGroup at h
  split at h
  · rename_i anchor text opIndex rest
    obtain ⟨⟨tail, ht⟩, hin⟩ := takeInserts_spec anchor opIndex
      (.insert anchor .before text .replacement opIndex :: rest)
    generalize insert anchor .before text .replacement opIndex :: rest = edits at h ht hin ⊢
    generalize takeInserts anchor opIndex edits = inserts at h ht hin
    simp only at h ht hin
    have hd : edits.drop inserts.length = tail := by
      rw [ht, drop_left]
    obtain ⟨⟨tail', ht'⟩, hde⟩ := takeDeletes_spec anchor opIndex tail
    rw [hd] at h
    generalize takeDeletes anchor opIndex tail = deletes at h ht' hde
    split_ifs at h
    cases h
    refine ⟨?_, hin, hde, rfl⟩
    simp only [ReplacementGroup.edits]
    rw [← drop_drop, hd, ht', drop_left, append_assoc, ← ht', ← ht]
  · cases h

variable {inserts : List LineEdit}

theorem GroupAt.deletedLine_inserts (h : GroupAt edits group) (hsub : inserts ⊆ group.inserts) :
    inserts.filterMap deletedLine = [] := by
  rw [filterMap_eq_nil_iff]
  intro edit hed
  obtain ⟨text, rfl⟩ := h.inserts edit (hsub hed)
  rfl

section Walk

variable {rewrite : ReplacementGroup → List LineEdit × List String}

theorem deletedLine_walkGroups (hr : ∀ edits group, GroupAt edits group →
      (rewrite group).1.filterMap deletedLine =
        group.edits.filterMap deletedLine) (fuel : ℕ) (edits : List LineEdit) :
    (walkGroups rewrite fuel edits).1.filterMap deletedLine =
      edits.filterMap deletedLine := by
  fun_induction walkGroups rewrite fuel edits with
  | case1 | case2 => rfl
  | case3 fuel edit rest hn walked ih =>
    simp only [filterMap_cons, ih, walked]
  | case4 fuel edit rest group hs rewritten walked ih =>
    have hg := findReplacementGroup_some hs
    conv_rhs => rw [hg.split]
    rw [filterMap_append, filterMap_append, ih, hr _ _ hg]

/-- A walk without warnings changes nothing when every rewriting without warnings does not. -/
theorem walkGroups_quiet (hr : ∀ group, (rewrite group).2 = [] →
      (rewrite group).1 = group.edits) (fuel : ℕ) (edits : List LineEdit)
    (hq : (walkGroups rewrite fuel edits).2 = []) :
    (walkGroups rewrite fuel edits).1 = edits := by
  fun_induction walkGroups rewrite fuel edits with
  | case1 | case2 => rfl
  | case3 fuel edit rest hn walked ih => simp only [walked, ih hq]
  | case4 fuel edit rest group hs rewritten walked ih =>
    rw [append_eq_nil_iff] at hq
    conv_rhs => rw [(findReplacementGroup_some hs).split]
    rw [ih hq.2, hr group hq.1]

theorem findReplacementGroup_eq_none (h : edit.isReplacementInsert = false) (rest : List LineEdit) :
    findReplacementGroup (edit :: rest) = none := by
  unfold findReplacementGroup
  split
  · rename_i heq
    cases heq
    cases h
  · rfl

theorem walkGroups_of_no_group {fuel : ℕ} (h : ∀ edit ∈ edits, edit.isReplacementInsert = false) :
    walkGroups rewrite fuel edits = (edits, []) := by
  induction edits generalizing fuel with
  | nil => cases fuel <;> rfl
  | cons edit rest ih =>
    cases fuel with
    | zero => rfl
    | succ fuel =>
      rw [walkGroups, findReplacementGroup_eq_none (h edit mem_cons_self),
        ih fun edit hed => h edit (mem_cons_of_mem _ hed)]

end Walk

/-! ## The two layers -/

variable (fileLines : List String)

theorem deletedLine_indentGroup (edits : List LineEdit) (group : ReplacementGroup)
    (_ : GroupAt edits group) :
    (indentGroup fileLines group).1.filterMap deletedLine =
      group.edits.filterMap deletedLine := by
  unfold indentGroup
  split
  · rfl
  · rename_i shift _
    have hin (edit : LineEdit) : (indented shift edit).deletedLine = edit.deletedLine := by
      cases edit <;> rfl
    simp [ReplacementGroup.edits, hin]

/-- What the echo layer leaves of a group: some of its inserts, not none of them, and its
deletes. -/
theorem echoGroup_cases (group : ReplacementGroup) :
    (echoGroup fileLines group = (group.edits, [])) ∨
      (∃ kept, (echoGroup fileLines group).1 = kept ++ group.deletes ∧
        kept.Sublist group.inserts ∧
        (group.payload.length = group.inserts.length → kept ≠ []) ∧
        (echoGroup fileLines group).2 ≠ []) := by
  unfold echoGroup
  split
  · rename_i leading trailing h
    unfold findBoundaryEcho at h
    simp only at h
    split_ifs at h with hc
    cases h
    refine .inr ⟨_, rfl, (take_sublist _ _).trans (drop_sublist _ _), ?_, by simp⟩
    rw [← length_pos_iff, length_take, length_drop]
    omega
  · split
    · rename_i side count h
      have hlt : count < group.payload.length := by
        unfold findOneSidedBoundaryEcho at h
        simp only at h
        split_ifs at h with h1 h2 h3 h4 h5 h6 <;>
          · cases h
            omega
      cases side with
      | leading =>
        refine .inr ⟨_, rfl, drop_sublist _ _, ?_, by simp⟩
        rw [← length_pos_iff, length_drop]
        omega
      | trailing =>
        refine .inr ⟨_, rfl, take_sublist _ _, ?_, by simp⟩
        rw [← length_pos_iff, length_take]
        omega
    · exact .inl rfl

theorem echoGroup_quiet (group : ReplacementGroup) (h : (echoGroup fileLines group).2 = []) :
    (echoGroup fileLines group).1 = group.edits := by
  rcases echoGroup_cases fileLines group with heq | ⟨_, _, _, _, hne⟩
  · rw [heq]
  · exact absurd h hne

theorem deletedLine_echoGroup (edits : List LineEdit) (group : ReplacementGroup)
    (hg : GroupAt edits group) :
    (echoGroup fileLines group).1.filterMap deletedLine =
      group.edits.filterMap deletedLine := by
  rcases echoGroup_cases fileLines group with heq | ⟨kept, heq, hsub, -, -⟩
  · rw [heq]
  · rw [heq, ReplacementGroup.edits, filterMap_append, filterMap_append,
      hg.deletedLine_inserts hsub.subset, hg.deletedLine_inserts (List.Subset.refl _)]

theorem deletedLine_applyRepairLayers (edits : List LineEdit) (fileLines : List String) :
    (applyRepairLayers edits fileLines).edits.filterMap deletedLine =
      edits.filterMap deletedLine :=
  (deletedLine_walkGroups (deletedLine_echoGroup fileLines) _ _).trans
    (deletedLine_walkGroups (deletedLine_indentGroup fileLines) _ _)

theorem applyRepairLayers_quiet {fileLines : List String}
    (h : (applyRepairLayers edits fileLines).warnings = []) :
    (applyRepairLayers edits fileLines).edits = edits := by
  obtain ⟨hin, hec⟩ := append_eq_nil_iff.1 h
  have hf := walkGroups_quiet (fun group hq => by
    unfold indentGroup at hq ⊢
    split at hq <;> simp_all) _ _ hin
  exact (walkGroups_quiet (echoGroup_quiet fileLines) _ _ hec).trans hf

/-! ## One PUT over a span -/

section SpanGroup

variable (span : LineSpan) (opIndex : ℕ)

def spanInserts (body : List String) : List LineEdit :=
  body.map fun text => .insert span.start .before text .replacement opIndex

def spanDeletes : List LineEdit := span.lines.map fun line => .delete line opIndex

theorem span_cons (text : String) (rest : List String) :
    spanInserts span opIndex (text :: rest) ++ spanDeletes span opIndex =
      .insert span.start .before text .replacement opIndex ::
        (spanInserts span opIndex rest ++ spanDeletes span opIndex) := rfl

theorem exists_spanDeletes_cons : ∃ rest,
    spanDeletes span opIndex = delete span.start opIndex :: rest := by
  obtain ⟨n, hn⟩ : ∃ n, span.stop + 1 - span.start = n + 1 :=
    ⟨span.stop - span.start, by have := span.le; omega⟩
  exact ⟨_, by rw [spanDeletes, LineSpan.lines, hn, range'_succ, map_cons]⟩

theorem takeInserts_span (body : List String) :
    takeInserts span.start opIndex (spanInserts span opIndex body ++ spanDeletes span opIndex) =
      spanInserts span opIndex body := by
  induction body with
  | nil =>
    obtain ⟨rest, hr⟩ := exists_spanDeletes_cons span opIndex
    rw [hr]
    rfl
  | cons text body ih =>
    simpa [spanInserts, takeInserts] using ih

theorem takeDeletes_range' (start length : ℕ) :
    takeDeletes start opIndex ((List.range' start length).map fun line => .delete line opIndex) =
      (List.range' start length).map fun line => .delete line opIndex := by
  induction length generalizing start with
  | zero => rfl
  | succ length ih =>
    rw [range'_succ, map_cons, takeDeletes, if_pos ⟨rfl, rfl⟩, ih]

theorem findReplacementGroup_span (hb : body ≠ []) :
    findReplacementGroup (spanInserts span opIndex body ++ spanDeletes span opIndex) =
      some ⟨spanInserts span opIndex body, spanDeletes span opIndex, body, span.start,
        span.start + (spanDeletes span opIndex).length - 1, opIndex⟩ := by
  obtain ⟨text, rest, rfl⟩ := exists_cons_of_ne_nil hb
  have hd : takeDeletes span.start opIndex (spanDeletes span opIndex) =
      spanDeletes span opIndex := takeDeletes_range' opIndex _ _
  have hp : (spanInserts span opIndex (text :: rest)).filterMap replacementText =
      text :: rest := by
    simp [spanInserts, Function.comp_def, replacementText]
  have ht := takeInserts_span span opIndex (text :: rest)
  rw [span_cons] at ht
  rw [span_cons, findReplacementGroup]
  simp only [ht]
  rw [← span_cons, drop_left, hd, hp]
  obtain ⟨more, hm⟩ := exists_spanDeletes_cons span opIndex
  rw [if_neg (by simp [hm])]

variable {rewrite : ReplacementGroup → List LineEdit × List String}

/-- A walk over the edits of one PUT only changes its body, and does not empty it. -/
theorem walkGroups_span (hr : ∀ edits group, GroupAt edits group → group.Retexts (rewrite group).1)
    (body : List String) :
    ∃ body', (walkGroups rewrite (lowerPutBody (.span span) body opIndex).length
        (lowerPutBody (.span span) body opIndex)).1 = lowerPutBody (.span span) body' opIndex ∧
      (body' = [] ↔ body = []) := by
  rcases eq_or_ne body [] with rfl | hb
  · refine ⟨[], ?_, Iff.rfl⟩
    rw [walkGroups_of_no_group (by simp [lowerPutBody, isReplacementInsert])]
  · have hput : lowerPutBody (.span span) body opIndex =
        spanInserts span opIndex body ++ spanDeletes span opIndex := rfl
    rw [hput]
    have hg := findReplacementGroup_span span opIndex hb
    obtain ⟨texts, ht, hne⟩ := hr _ _ (findReplacementGroup_some hg)
    refine ⟨texts, ?_, iff_of_false (fun h => ?_) hb⟩
    · obtain ⟨text, rest, rfl⟩ := exists_cons_of_ne_nil hb
      obtain ⟨fuel, hf⟩ : ∃ fuel,
          (spanInserts span opIndex (text :: rest) ++ spanDeletes span opIndex).length = fuel + 1 :=
        ⟨_, rfl⟩
      rw [hf, span_cons, walkGroups, ← span_cons, hg]
      simp only
      rw [ht, ← length_append, drop_length]
      have hnil : (walkGroups rewrite fuel []).1 = [] := by cases fuel <;> rfl
      rw [hnil, append_nil]
      rfl
    · have hin : spanInserts span opIndex body = [] := hne h
      exact hb (by simpa [spanInserts] using hin)

end SpanGroup

/-- Inserts of one anchor and operation are determined by their texts. -/
theorem exists_texts {anchor opIndex : ℕ}
    (h : ∀ edit ∈ inserts, ∃ text, edit = .insert anchor .before text .replacement opIndex) :
    ∃ texts : List String,
      inserts = texts.map fun text => .insert anchor .before text .replacement opIndex := by
  induction inserts with
  | nil => exact ⟨[], rfl⟩
  | cons edit rest ih =>
    obtain ⟨text, rfl⟩ := h _ mem_cons_self
    obtain ⟨texts, ht⟩ := ih fun edit hed => h edit (mem_cons_of_mem _ hed)
    exact ⟨text :: texts, by rw [ht, map_cons]⟩

theorem GroupAt.retexts (h : GroupAt edits group) {kept : List LineEdit}
    (hsub : kept.Sublist group.inserts) (hne : kept = [] → group.inserts = []) :
    group.Retexts (kept ++ group.deletes) := by
  obtain ⟨texts, ht⟩ := exists_texts fun edit hed => h.inserts edit (hsub.subset hed)
  exact ⟨texts, by rw [ht], fun hnil => hne (by rw [ht, hnil]; rfl)⟩

section

variable (edits : List LineEdit) (group : ReplacementGroup) (hg : GroupAt edits group)
include hg

theorem retexts_indentGroup : group.Retexts (indentGroup fileLines group).1 := by
  unfold indentGroup
  split
  · exact hg.retexts (List.Sublist.refl _) id
  · rename_i shift _
    obtain ⟨texts, ht⟩ := exists_texts hg.inserts
    refine ⟨texts.map fun text => if (trim text).isEmpty then text
      else String.ofList (shift ++ text.toList), ?_, fun hnil => ?_⟩
    · rw [ht, map_map, map_map]
      rfl
    · rw [ht, map_eq_nil_iff.1 hnil]
      rfl

theorem retexts_echoGroup : group.Retexts (echoGroup fileLines group).1 := by
  rcases echoGroup_cases fileLines group with heq | ⟨kept, heq, hsub, hne, -⟩
  · rw [heq]
    exact hg.retexts (List.Sublist.refl _) id
  · rw [heq]
    refine hg.retexts hsub fun hnil => ?_
    obtain ⟨texts, ht⟩ := exists_texts hg.inserts
    refine absurd hnil (hne ?_)
    rw [hg.payload, ht, filterMap_map]
    simp [replacementText]

end

/-- The repair layers only change the body of a PUT over a span, and do not empty it. -/
theorem applyRepairLayers_span (span : LineSpan) (body fileLines : List String) (opIndex : ℕ) :
    ∃ body', (applyRepairLayers (lowerPutBody (.span span) body opIndex) fileLines).edits =
      lowerPutBody (.span span) body' opIndex ∧ (body' = [] ↔ body = []) := by
  obtain ⟨indented, hin, hiff⟩ :=
    walkGroups_span span opIndex (retexts_indentGroup fileLines) body
  obtain ⟨echoed, hec, hiff'⟩ :=
    walkGroups_span span opIndex (retexts_echoGroup fileLines) indented
  refine ⟨echoed, ?_, hiff'.trans hiff⟩
  rw [applyRepairLayers, repairReplacementIndentation, repairBoundaryEchoes]
  simp only [hin, hec]

/-! ## The plan of one operation -/

variable {lines : List String}

/-- The plan of a PUT over a span splices a body in; without warnings it is the given one. -/
theorem planLines_span {span : LineSpan} (hs : span.stop ≤ lines.length) (body : List String)
    (opIndex : ℕ) :
    ∃ body', (planLines lines (lowerPutBody (.span span) body opIndex)).finalLines =
      splice lines (span.start - 1) span.stop body' ∧ (body' = [] ↔ body = []) := by
  obtain ⟨body', hed, hiff⟩ := applyRepairLayers_span span body lines opIndex
  refine ⟨body', ?_, hiff⟩
  rw [← materializeEdits_span hs body' opIndex, ← hed, planLines]
  simp only [coalesceReplacementEdits_lowerPutBody]

theorem planLines_quiet (hc : coalesceReplacementEdits edits = edits)
    (hq : (planLines lines edits).warnings = []) :
    (planLines lines edits).finalLines = materializeEdits lines edits := by
  simp only [planLines, hc] at hq ⊢
  rw [applyRepairLayers_quiet hq]

theorem planLines_gap {gap : ResolvedGap} (han : ∀ r ∈ gap.anchors, 0 < r ∧ r ≤ lines.length)
    (body : List String) (opIndex : ℕ) :
    (planLines lines (lowerPutBody (.gap gap) body opIndex)).finalLines =
      splice lines (gapPosition gap lines.length) (gapPosition gap lines.length) body := by
  have hp : ∀ edit ∈ lowerPutBody (.gap gap) body opIndex,
      edit.isReplacementInsert = false := by
    simp [lowerPutBody, isReplacementInsert]
  rw [← materializeEdits_gap han body opIndex]
  simp only [planLines, coalesceReplacementEdits_lowerPutBody, applyRepairLayers,
    repairReplacementIndentation, repairBoundaryEchoes, walkGroups_of_no_group hp]

theorem planLines_nil (lines : List String) : (planLines lines []).finalLines = lines := by
  have hb (row : ℕ) : lineBucket [] row = [] := rfl
  have hm : materializeEdits lines [] = lines := by
    rw [materializeEdits_eq (hb 0) (hb _), flatMap_zipIdx_eq_self fun _ _ _ _ => rfl]
    simp
  exact hm

end Aft.Hashline
