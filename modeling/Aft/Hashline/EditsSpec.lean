import Aft.Hashline.Apply
import Aft.Lib.Draft

/-!
# What lowered edits do to the lines

Every edit list acts row by row: what `materializeEdits` leaves at a row is read off the texts put
before and after it and off whether an edit deletes it. For the edits of one operation the final
lines are a splice of the original ones. For all edits they are those of the oracle of the tests,
which splices the edits of each line into place (`materializeEdits_eq_legacy`).
-/

namespace Aft.Hashline

open List LineEdit

/-! ## The edits at one row -/

def beforeTexts (mode : InsertMode) (edits : List LineEdit) (row : ℕ) : List String :=
  (lineBucket edits row).filterMap (LineEdit.textAt .before (some mode))

def afterTexts (edits : List LineEdit) (row : ℕ) : List String :=
  (lineBucket edits row).filterMap (LineEdit.textAt .after none)

def deletesRow (edits : List LineEdit) (row : ℕ) : Bool := (lineBucket edits row).any LineEdit.isDelete

theorem appendLineBucket_eq (current : Option String) (edits : List LineEdit) (row : ℕ) :
    appendLineBucket current (lineBucket edits row) =
      beforeTexts .plain edits row ++ beforeTexts .replacement edits row ++
        (if deletesRow edits row then [] else current.toList) ++ afterTexts edits row :=
  rfl

theorem lineBucket_append (a b : List LineEdit) (row : ℕ) :
    lineBucket (a ++ b) row = lineBucket a row ++ lineBucket b row :=
  filter_append ..

@[simp]
theorem beforeTexts_append (mode : InsertMode) (a b : List LineEdit) (row : ℕ) :
    beforeTexts mode (a ++ b) row = beforeTexts mode a row ++ beforeTexts mode b row := by
  simp [beforeTexts, lineBucket_append]

@[simp]
theorem afterTexts_append (a b : List LineEdit) (row : ℕ) :
    afterTexts (a ++ b) row = afterTexts a row ++ afterTexts b row := by
  simp [afterTexts, lineBucket_append]

@[simp]
theorem deletesRow_append (a b : List LineEdit) (row : ℕ) :
    deletesRow (a ++ b) row = (deletesRow a row || deletesRow b row) := by
  simp [deletesRow, lineBucket_append]

theorem deletesRow_iff {edits : List LineEdit} {row : ℕ} :
    deletesRow edits row ↔ row ∈ edits.filterMap deletedLine := by
  simp only [deletesRow, lineBucket, any_filter, any_eq_true, mem_filterMap]
  refine exists_congr fun edit => and_congr_right fun _ => ?_
  cases edit <;> simp [inBucket, isDelete, deletedLine]

section Deletes

variable (lines : List ℕ) (opIndex row : ℕ)

@[simp]
theorem beforeTexts_deletes (mode : InsertMode) :
    beforeTexts mode (lines.map fun line => .delete line opIndex) row = [] := by
  simp [beforeTexts, lineBucket, textAt]

@[simp]
theorem afterTexts_deletes : afterTexts (lines.map fun line => .delete line opIndex) row = [] := by
  simp [afterTexts, lineBucket, textAt]

@[simp]
theorem deletesRow_deletes :
    deletesRow (lines.map fun line => .delete line opIndex) row = decide (row ∈ lines) := by
  rw [Bool.eq_iff_iff, deletesRow_iff]
  simp [deletedLine]

end Deletes

section Inserts

variable (anchor : ℕ) (place : InsertPlace) (mode : InsertMode) (body : List String)
  (opIndex row : ℕ)

@[simp]
theorem deletesRow_inserts :
    deletesRow (body.map fun text => .insert anchor place text mode opIndex) row = false := by
  rw [← Bool.not_eq_true, deletesRow_iff]
  simp [deletedLine]

theorem beforeTexts_inserts (wanted : InsertMode) :
    beforeTexts wanted (body.map fun text => .insert anchor place text mode opIndex) row =
      if place = .before ∧ mode = wanted ∧ anchor = row then body else [] := by
  unfold beforeTexts lineBucket
  rw [filterMap_filter, filterMap_map]
  split_ifs with h
  · obtain ⟨rfl, rfl, rfl⟩ := h
    simp [inBucket, textAt]
  · rw [filterMap_eq_nil_iff]
    rcases eq_or_ne wanted mode with rfl | hm
    · cases place <;> simp_all [inBucket, textAt]
    · cases place <;> simp [textAt, hm]

theorem afterTexts_inserts :
    afterTexts (body.map fun text => .insert anchor place text mode opIndex) row =
      if place = .after ∧ anchor = row then body else [] := by
  unfold afterTexts lineBucket
  rw [filterMap_filter, filterMap_map]
  split_ifs with h
  · obtain ⟨rfl, rfl⟩ := h
    simp [inBucket, textAt]
  · rw [filterMap_eq_nil_iff]
    cases place <;> simp_all [inBucket, textAt]

theorem endTexts_inserts (wanted : InsertPlace) :
    (body.map fun text => insert anchor place text mode opIndex).filterMap
      (textAt wanted none) = if place = wanted then body else [] := by
  rw [filterMap_map]
  split_ifs with h
  · simp [textAt, h]
  · simp [textAt, h]

end Inserts

@[simp]
theorem endTexts_deletes (lines : List ℕ) (opIndex : ℕ) (wanted : InsertPlace) :
    (lines.map fun line => delete line opIndex).filterMap (textAt wanted none) = [] := by
  simp [textAt]

/-! ## One operation -/

variable {lines : List String}

/-- What `materializeEdits` makes of edits that touch neither line zero nor the line past the end. -/
theorem materializeEdits_eq {edits : List LineEdit} (hz : lineBucket edits 0 = [])
    (hp : lineBucket edits (lines.length + 1) = []) :
    materializeEdits lines edits = edits.filterMap (textAt .bof none) ++
      (lines.zipIdx 1).flatMap (fun row =>
        appendLineBucket (some row.1) (lineBucket edits row.2)) ++
      edits.filterMap (textAt .eof none) := by
  simp [materializeEdits, hz, hp, appendLineBucket]

theorem lineBucket_span {span : LineSpan} {row : ℕ} (h : row < span.start ∨ span.stop < row)
    (body : List String) (opIndex : ℕ) :
    lineBucket (lowerPutBody (.span span) body opIndex) row = [] := by
  have hle := span.le
  simp only [lineBucket, lowerPutBody, filter_append, append_eq_nil_iff, filter_eq_nil_iff, mem_map]
  constructor
  · rintro edit ⟨text, -, rfl⟩
    simp only [inBucket, beq_iff_eq]
    omega
  · rintro edit ⟨line, hl, rfl⟩
    have := LineSpan.mem_lines.1 hl
    simp only [inBucket, beq_iff_eq]
    omega

theorem appendLineBucket_span (current : String) (span : LineSpan) (body : List String)
    (opIndex row : ℕ) :
    appendLineBucket (some current) (lineBucket (lowerPutBody (.span span) body opIndex) row) =
      (if span.start = row then body else []) ++
        if span.start ≤ row ∧ row ≤ span.stop then [] else [current] := by
  rw [appendLineBucket_eq]
  simp [lowerPutBody, beforeTexts_inserts, afterTexts_inserts, LineSpan.mem_lines]

/-- Replacing a span splices the body in for its rows. -/
theorem materializeEdits_span {span : LineSpan} (hs : span.stop ≤ lines.length) (body : List String)
    (opIndex : ℕ) :
    materializeEdits lines (lowerPutBody (.span span) body opIndex) =
      splice lines (span.start - 1) span.stop body := by
  have hpos := span.pos
  have hle := span.le
  rw [materializeEdits_eq (lineBucket_span (.inl hpos) body opIndex)
    (lineBucket_span (.inr (Nat.lt_succ_of_le hs)) body opIndex)]
  have hen (place : InsertPlace) (hp : place ≠ .before) :
      (lowerPutBody (.span span) body opIndex).filterMap (textAt place none) = [] := by
    rw [lowerPutBody, filterMap_append, endTexts_inserts, endTexts_deletes,
      if_neg hp.symm, append_nil]
  rw [hen .bof (by decide), hen .eof (by decide), nil_append, append_nil]
  simp only [appendLineBucket_span]
  rw [flatMap_zipIdx_eq_splice (i := span.start - 1) (j := span.stop) (k := 1) (by omega)]
  · congr 1
    obtain ⟨first, rest, hr⟩ : ∃ first rest,
        (lines.drop (span.start - 1)).take (span.stop - (span.start - 1)) = first :: rest := by
      apply exists_cons_of_length_pos
      rw [length_take, length_drop]
      omega
    have hlen : (first :: rest).length = span.stop - (span.start - 1) := by
      rw [← hr, length_take, length_drop]
      omega
    rw [length_cons] at hlen
    rw [hr, zipIdx_cons, flatMap_cons, if_pos (by omega), if_pos (by omega), append_nil]
    refine append_right_eq_self.2 (flatMap_eq_nil_iff.2 ?_)
    rintro ⟨line, row⟩ hmem
    have hrow := mem_zipIdx hmem
    rw [if_neg (by simp only; omega), if_pos (by simp only; omega), append_nil]
  · intro line row hrow
    rw [if_neg (by simp only; omega), if_neg (by simp only; omega), nil_append]

/-- The number of rows before the text of a gap in a file of `total` rows. -/
def gapPosition (gap : ResolvedGap) (total : ℕ) : ℕ :=
  match gapPlacement gap with
  | (_, .bof) => 0
  | (_, .eof) => total
  | (anchor, .before) => anchor - 1
  | (anchor, .after) => anchor

theorem gapPlacement_cases (gap : ResolvedGap) :
    (gapPlacement gap = (1, .bof)) ∨ (∃ b, gap.before = some b ∧ gapPlacement gap = (b, .eof)) ∨
      (∃ a, gap.after = some a ∧ gapPlacement gap = (a, .before)) ∨
      ∃ b, gap.before = some b ∧ gapPlacement gap = (b, .after) := by
  obtain ⟨before, after⟩ := gap
  rcases before with - | b <;> rcases after with - | a
  · exact .inl rfl
  · by_cases ha : a = 1
    · subst ha
      exact .inl rfl
    · refine .inr (.inr (.inl ⟨a, rfl, ?_⟩))
      unfold gapPlacement
      split <;> simp_all
  · exact .inr (.inl ⟨b, rfl, rfl⟩)
  · exact .inr (.inr (.inr ⟨b, rfl, rfl⟩))

theorem appendLineBucket_inserts (current anchor : ℕ) (line : String) (place : InsertPlace)
    (body : List String) (opIndex : ℕ) :
    appendLineBucket (some line) (lineBucket
      (body.map fun text => .insert anchor place text .plain opIndex) current) =
      (if place = .before ∧ anchor = current then body else []) ++ [line] ++
        if place = .after ∧ anchor = current then body else [] := by
  rw [appendLineBucket_eq]
  simp [beforeTexts_inserts, afterTexts_inserts]

theorem lineBucket_inserts {anchor row : ℕ} {place : InsertPlace}
    (h : place = .bof ∨ place = .eof ∨ anchor ≠ row) (mode : InsertMode) (body : List String)
    (opIndex : ℕ) :
    lineBucket (body.map fun text => .insert anchor place text mode opIndex) row = [] := by
  simp only [lineBucket, filter_eq_nil_iff, mem_map]
  rintro edit ⟨text, -, rfl⟩
  rcases h with rfl | rfl | h
  · simp [inBucket]
  · simp [inBucket]
  · cases place <;> simp [inBucket, h]

/-- Text put into a gap is inserted at the gap's position. -/
theorem materializeEdits_gap {gap : ResolvedGap} (han : ∀ r ∈ gap.anchors, 0 < r ∧ r ≤ lines.length)
    (body : List String) (opIndex : ℕ) :
    materializeEdits lines (lowerPutBody (.gap gap) body opIndex) =
      splice lines (gapPosition gap lines.length) (gapPosition gap lines.length) body := by
  have hend (anchor : ℕ) (place : InsertPlace) (hp : place = .bof ∨ place = .eof) :
      materializeEdits lines (body.map fun text => .insert anchor place text .plain opIndex) =
        (if place = .bof then body else []) ++ lines ++ if place = .eof then body else [] := by
    rw [materializeEdits_eq (lineBucket_inserts (hp.imp_right .inl) _ _ _)
      (lineBucket_inserts (hp.imp_right .inl) _ _ _), endTexts_inserts, endTexts_inserts,
      flatMap_zipIdx_eq_self fun line row _ _ => ?_]
    rw [appendLineBucket_inserts]
    rcases hp with rfl | rfl <;> simp
  have hrow {i : ℕ} (hi : i < lines.length) (place : InsertPlace)
      (hp : place = .before ∨ place = .after) :
      materializeEdits lines (body.map fun text => .insert (i + 1) place text .plain opIndex) =
        splice lines i (i + 1) ((if place = .before then body else []) ++ [lines[i]] ++
          if place = .after then body else []) := by
    rw [materializeEdits_eq (lineBucket_inserts (.inr (.inr (by omega))) _ _ _)
      (lineBucket_inserts (.inr (.inr (by omega))) _ _ _), endTexts_inserts, endTexts_inserts,
      if_neg (by rcases hp with rfl | rfl <;> decide), if_neg (by rcases hp with rfl | rfl <;> decide),
      nil_append, append_nil]
    simp only [appendLineBucket_inserts]
    rw [flatMap_zipIdx_eq_splice (i := i) (j := i + 1) (Nat.le_succ i), Nat.add_sub_cancel_left,
      take_one_drop_eq_of_lt_length hi]
    · simp [Nat.add_comm]
    · intro line row hout
      rw [if_neg (by simp only; omega), if_neg (by simp only; omega), nil_append, append_nil]
  rcases gapPlacement_cases gap with h | ⟨b, hb, h⟩ | ⟨a, ha, h⟩ | ⟨b, hb, h⟩
  · simp only [lowerPutBody, gapPosition, h]
    rw [hend _ _ (.inl rfl)]
    simp [splice]
  · simp only [lowerPutBody, gapPosition, h]
    rw [hend _ _ (.inr rfl)]
    simp [splice]
  · obtain ⟨hpos, hle⟩ := han a (by simp [ResolvedGap.anchors, ha])
    obtain ⟨i, rfl⟩ : ∃ i, a = i + 1 := ⟨a - 1, by omega⟩
    simp only [lowerPutBody, gapPosition, h, Nat.add_sub_cancel]
    rw [hrow hle _ (.inl rfl), ← splice_concat_getElem hle]
    simp
  · obtain ⟨hpos, hle⟩ := han b (by simp [ResolvedGap.anchors, hb])
    obtain ⟨i, rfl⟩ : ∃ i, b = i + 1 := ⟨b - 1, by omega⟩
    simp only [lowerPutBody, gapPosition, h]
    rw [hrow hle _ (.inr rfl), ← splice_getElem_cons hle]
    simp

/-! ## The splice oracle -/

/-- The line of the bucket of an edit. -/
def LineEdit.bucketLine : LineEdit → Option ℕ
  | .insert anchor .before _ _ _ | .insert anchor .after _ _ _ => some anchor
  | .insert _ .bof _ _ _ | .insert _ .eof _ _ _ => none
  | .delete line _ => some line

/-- One bucket, spliced into the lines that the buckets below it left. -/
def spliceBucket (edits : List LineEdit) (fileLines : List String) (line : ℕ) : List String :=
  let idx := line - 1
  if fileLines.length < idx then fileLines
  else
    let before := beforeTexts .plain edits line
    let replacement := beforeTexts .replacement edits line
    let after := afterTexts edits line
    let deleteLine := deletesRow edits line
    if before = [] ∧ replacement = [] ∧ after = [] ∧ deleteLine = false then fileLines
    else
      let spliced :=
        if deleteLine then before ++ replacement ++ after
        else before ++ replacement ++ (fileLines[idx]?).toList ++ after
      if idx < fileLines.length then fileLines.take idx ++ spliced ++ fileLines.drop (idx + 1)
      else fileLines ++ spliced

/-- The oracle of the tests: the buckets from the last line up. -/
def materializeEditsLegacy (originalLines : List String) (edits : List LineEdit) : List String :=
  let lines := (edits.filterMap bucketLine).toFinset.sort (· ≥ ·)
  edits.filterMap (textAt .bof none) ++ lines.foldl (spliceBucket edits) originalLines ++
    edits.filterMap (textAt .eof none)

variable {edits : List LineEdit} {line : ℕ}

theorem spliceBucket_eq (h : line - 1 ≤ lines.length) :
    spliceBucket edits lines line = lines.take (line - 1) ++
      appendLineBucket lines[line - 1]? (lineBucket edits line) ++ lines.drop (line - 1 + 1) := by
  rw [appendLineBucket_eq]
  unfold spliceBucket
  generalize line - 1 = idx at h ⊢
  dsimp only
  rw [if_neg (Nat.not_lt.2 h)]
  split
  · rename_i hnone
    obtain ⟨hb, hr, ha, hd⟩ := hnone
    simp [hb, hr, ha, hd, ← drop_eq_getElem?_toList_append]
  · rcases h.lt_or_eq with hlt | rfl
    · rw [if_pos hlt]
      split_ifs <;> simp
    · cases deletesRow edits line <;> simp

theorem foldl_spliceBucket (init rest : List String) (hlines : lines = init ++ rest) :
    (range' (init.length + 1) (rest.length + 1)).reverse.foldl (spliceBucket edits) lines =
      init ++ (rest.zipIdx (init.length + 1)).flatMap (fun row =>
        appendLineBucket (some row.1) (lineBucket edits row.2)) ++
        appendLineBucket none (lineBucket edits (lines.length + 1)) := by
  induction rest generalizing init with
  | nil =>
    obtain rfl : lines = init := by rw [hlines, append_nil]
    rw [length_nil, Nat.zero_add, range'_one, reverse_singleton, foldl_cons, foldl_nil,
      spliceBucket_eq (Nat.le_refl _)]
    simp
  | cons row rest ih =>
    have hrest := ih (init ++ [row]) (by rw [hlines, append_assoc]; rfl)
    rw [length_append, length_singleton] at hrest
    rw [length_cons, range'_succ, reverse_cons, foldl_append, hrest, foldl_cons, foldl_nil,
      spliceBucket_eq (by simp)]
    simp

theorem spliceBucket_of_notMem (h : line ∉ (edits.filterMap bucketLine).toFinset)
    (lines : List String) : spliceBucket edits lines line = lines := by
  have hempty : lineBucket edits line = [] := by
    rw [lineBucket, filter_eq_nil_iff]
    intro edit hmem hin
    refine h (mem_toFinset.2 (mem_filterMap.2 ⟨edit, hmem, ?_⟩))
    rcases edit with ⟨anchor, _ | _ | _ | _, _⟩ | _ <;> simp_all [bucketLine, inBucket]
  simp [spliceBucket, beforeTexts, afterTexts, deletesRow, hempty]

/-- A fold over a set of numbers from the largest on, as a fold over all numbers below a bound. -/
theorem foldl_sort_ge {σ : Type*} {f : σ → ℕ → σ} {s : Finset ℕ} {bound : ℕ}
    (hbound : ∀ k ∈ s, k < bound) (hf : ∀ a, ∀ k ∉ s, f a k = a) (a : σ) :
    (s.sort (· ≥ ·)).foldl f a = (range bound).reverse.foldl f a := by
  have hs : s = ((range bound).reverse.filter (· ∈ s)).toFinset := by
    ext k
    simpa using hbound k
  have hsort := (toFinset_sort (r := (· ≥ ·)) (l := (range bound).reverse.filter (· ∈ s))
    ((nodup_reverse.2 nodup_range).filter _)).2 ?_
  · rw [← hs] at hsort
    rw [hsort, foldl_filter]
    congr 1
    funext a k
    split_ifs with hk
    · rfl
    · exact (hf a k (by simpa using hk)).symm
  · refine Pairwise.filter _ (pairwise_reverse.2 ?_)
    exact pairwise_lt_range.imp Nat.le_of_lt

/-- The single pass returns what splicing the buckets from the last line up returns. -/
theorem materializeEdits_eq_legacy (originalLines : List String) (edits : List LineEdit) :
    materializeEdits originalLines edits = materializeEditsLegacy originalLines edits := by
  generalize hextra : (edits.filterMap bucketLine).toFinset.sup id + 1 = extra
  have hbound : ∀ k ∈ (edits.filterMap bucketLine).toFinset,
      k < originalLines.length + 2 + extra := by
    intro k hk
    have hle : id k ≤ _ := Finset.le_sup hk
    rw [id] at hle
    omega
  -- The lines past the end come first and change nothing.
  have hpast : ((range extra).map (originalLines.length + 2 + ·)).reverse.foldl
      (spliceBucket edits) originalLines = originalLines := by
    refine foldlRecOn (motive := (· = originalLines)) _ _ rfl fun lines hlines k hk => ?_
    obtain ⟨i, -, rfl⟩ := mem_map.1 (mem_reverse.1 hk)
    rw [hlines, spliceBucket]
    exact if_pos (by omega)
  have hrows : (range' 1 (originalLines.length + 1)).reverse.foldl (spliceBucket edits)
      originalLines = _ := foldl_spliceBucket [] originalLines rfl
  unfold materializeEditsLegacy materializeEdits
  dsimp only
  rw [foldl_sort_ge hbound fun lines k hk => spliceBucket_of_notMem hk lines, range_add,
    reverse_append, foldl_append, hpast, range_eq_range', range'_succ, reverse_cons, foldl_append,
    hrows, nil_append, foldl_cons, foldl_nil, spliceBucket_eq (Nat.zero_le _)]
  generalize _ ++ appendLineBucket none _ = extended
  congr 2
  split_ifs with hempty
  · rw [List.isEmpty_iff.1 hempty]
    cases extended <;> rfl
  · cases extended <;> rfl

end Aft.Hashline
