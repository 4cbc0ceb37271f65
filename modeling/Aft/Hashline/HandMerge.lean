import Aft.Hashline.Composition

/-!
# Merging operations by hand

The changes that text PUTs and CUTs make to a file, as a reader of the patch would merge them: each
one acts on the rows of the baseline that it names, and what is put into a gap stays after the row
before it. One section with all operations plans exactly this document (`finalLines_merged`).
-/

namespace Aft.Hashline

open List Draft LineSpan LineOrigin

/-! ## Changes -/

/-- The change that a text PUT or a CUT makes. -/
inductive LineChange where
  | replace (span : LineSpan) (body : List String) (operation : String)
  | cut (span : LineSpan)
  | insert (gap : ResolvedGap) (body : List String)
deriving DecidableEq

/-- The row that a gap follows; zero for the gap before the first row. -/
def ResolvedGap.row (gap : ResolvedGap) : ℕ := gap.before.getD 0

def gapAfter (total row : ℕ) : ResolvedGap :=
  ⟨if row = 0 then none else some row, if row < total then some (row + 1) else none⟩

namespace LineChange

def of : Operation → ResolvedAddress → Option LineChange
  | .put address (.text body) line, .span span =>
    some (.replace span body (operationLabel (.put address (.text body) line)))
  | .put _ (.text body) _, .gap gap => some (.insert gap body)
  | .cut _ _ _, .span span => some (.cut span)
  | _, _ => none

def span? : LineChange → Option LineSpan
  | .replace span _ _ | .cut span => some span
  | .insert _ _ => none

def body : LineChange → List String
  | .replace _ body _ | .insert _ body => body
  | .cut _ => []

/-- A change of rows and gaps of a file with so many rows. -/
def Within (total : ℕ) : LineChange → Prop
  | .replace span _ _ | .cut span => span.stop ≤ total
  | .insert gap _ => gap.row ≤ total ∧ gap = gapAfter total gap.row

def apply (draft : Draft (String × LineOrigin)) : LineChange → Draft (String × LineOrigin)
  | .replace span body operation => draft.replace span.start span.stop
      (body.map fun line => (line, .replacement span operation))
  | .cut span => draft.replace span.start span.stop []
  | .insert gap body => draft.insert gap.row
      (body.map fun line => (line, .inserted ⟨gap.before, gap.after⟩))

def edits (opIndex : ℕ) : LineChange → List LineEdit
  | .replace span body _ => lowerPutBody (.span span) body opIndex
  | .cut span => lowerPutBody (.span span) [] opIndex
  | .insert gap body => lowerPutBody (.gap gap) body opIndex

end LineChange

def baselineDraft (lines : List String) : Draft (String × LineOrigin) where
  row r := (lines[r - 1]?).toList.map fun line => (line, .original r)
  gap _ := []

open LineChange

/-- The draft that changes make, one after another. -/
def draftOf (lines : List String) (changes : List LineChange) : Draft (String × LineOrigin) :=
  changes.foldl LineChange.apply (baselineDraft lines)

def handMerged (lines : List String) (changes : List LineChange) : List String :=
  ((draftOf lines changes).flatten lines.length).map Prod.fst

/-- Changes that name different rows, and no gap beside a row that is cut. -/
structure Independent (changes : List LineChange) : Prop where
  disjoint : changes.Pairwise fun a b => ∀ s ∈ a.span?, ∀ t ∈ b.span?, ∀ line ∈ s.lines, line ∉ t.lines
  gaps : ∀ gap body, .insert gap body ∈ changes → ∀ span, .cut span ∈ changes →
    ∀ line ∈ gap.anchors, line ∉ span.lines

theorem Independent.left {a b : List LineChange} (h : Independent (a ++ b)) : Independent a :=
  ⟨(pairwise_append.1 h.disjoint).1, fun gap body hgap span hs =>
    h.gaps gap body (mem_append_left _ hgap) span (mem_append_left _ hs)⟩

variable {changes : List LineChange}

/-- At most one change names a row. -/
theorem Independent.unique (h : Independent changes) {a b : LineChange} (ha : a ∈ changes)
    (hb : b ∈ changes) {s t : LineSpan} (hs : s ∈ a.span?) (ht : t ∈ b.span?) {line : ℕ}
    (hl : line ∈ s.lines) (hl' : line ∈ t.lines) : a = b := by
  by_contra hne
  have : Std.Symm fun a b : LineChange =>
      ∀ s ∈ a.span?, ∀ t ∈ b.span?, ∀ line ∈ s.lines, line ∉ t.lines :=
    ⟨fun a b hab s hs t ht line hl hl' => hab t ht s hs line hl' hl⟩
  exact h.disjoint.forall ha hb hne s hs t ht line hl hl'

theorem draftOf_concat (lines : List String) (changes : List LineChange) (change : LineChange) :
    draftOf lines (changes ++ [change]) = change.apply (draftOf lines changes) := by
  rw [draftOf, foldl_append]
  rfl

/-! ## What stands where -/

variable {r : ℕ} {line : String} {change : LineChange}

section Draft

variable {lines : List String} {changes : List LineChange}

theorem row_baselineDraft (h : lines[r - 1]? = some line) :
    (baselineDraft lines).row r = [(line, .original r)] := by
  simp [baselineDraft, h]

variable {span : LineSpan}

theorem LineSpan.lines_cases :
    r ∈ span.lines ↔ r = span.start ∨ span.start < r ∧ r ≤ span.stop := by
  have := span.le
  rw [mem_lines]
  omega

theorem row_apply_of_notMem {draft : Draft (String × LineOrigin)}
    (h : ∀ span ∈ change.span?, r ∉ span.lines) : (change.apply draft).row r = draft.row r := by
  have hre {span : LineSpan} {xs : List (String × LineOrigin)} (hr : r ∉ span.lines) :
      (draft.replace span.start span.stop xs).row r = draft.row r := by
    rw [lines_cases, not_or] at hr
    rw [row_replace, if_neg hr.1, if_neg hr.2]
  cases change with
  | replace | cut => exact hre (h _ rfl)
  | insert gap body => rfl

theorem row_draftOf_of_notMem (h : ∀ change ∈ changes, ∀ span ∈ change.span?, r ∉ span.lines) :
    (draftOf lines changes).row r = (baselineDraft lines).row r := by
  induction changes using reverseRecOn with
  | nil => rfl
  | append_singleton changes change ih =>
    rw [draftOf_concat, row_apply_of_notMem (h change (by simp))]
    exact ih fun other ho => h other (mem_append_left _ ho)

theorem row_draftOf_of_mem (hin : Independent changes) (hc : change ∈ changes)
    (hs : span ∈ change.span?) (hr : r ∈ span.lines) :
    (draftOf lines changes).row r = (change.apply ⟨fun _ => [], fun _ => []⟩).row r := by
  induction changes using reverseRecOn with
  | nil => cases hc
  | append_singleton changes last ih =>
    obtain ⟨-, -, hcr⟩ := pairwise_append.1 hin.disjoint
    rw [draftOf_concat]
    rcases mem_append.1 hc with hmem | hmem
    · rw [row_apply_of_notMem fun other ho => ?_]
      · exact ih hin.left hmem
      · exact hcr change hmem last (mem_singleton_self _) span hs other ho r hr
    · obtain rfl := mem_singleton.1 hmem
      have hre {xs : List (String × LineOrigin)} (draft : Draft (String × LineOrigin)) :
          (draft.replace span.start span.stop xs).row r =
            (replace ⟨fun _ => [], fun _ => []⟩ span.start span.stop xs).row r := by
        rw [row_replace, row_replace]
        rcases lines_cases.1 hr with heq | hb
        · rw [if_pos heq, if_pos heq]
        · rw [if_pos hb, if_pos hb]
      cases change with
      | replace | cut => cases hs; exact hre _
      | insert gap body => cases hs

def LineChange.fill (r : ℕ) : LineChange → List (String × LineOrigin)
  | .insert gap body =>
    if gap.row = r then body.map fun line => (line, .inserted ⟨gap.before, gap.after⟩) else []
  | .replace _ _ _ | .cut _ => []

theorem gap_draftOf (r : ℕ) : (draftOf lines changes).gap r = changes.flatMap (fill r) := by
  induction changes using reverseRecOn with
  | nil => rfl
  | append_singleton changes change ih =>
    rw [draftOf_concat, flatMap_append, flatMap_singleton, ← ih]
    cases change with
    | replace | cut => exact (append_nil _).symm
    | insert gap body =>
      rw [apply, gap_insert, fill]
      by_cases h : r = gap.row
      · rw [if_pos h, if_pos h.symm, h]
      · rw [if_neg h, if_neg (Ne.symm h), append_nil]

variable {x : String × LineOrigin}

theorem mem_gap_draftOf (h : x ∈ (draftOf lines changes).gap r) :
    ∃ gap body, .insert gap body ∈ changes ∧ gap.row = r ∧ x.2 = .inserted ⟨gap.before, gap.after⟩ := by
  rw [gap_draftOf] at h
  obtain ⟨change, hc, hx⟩ := mem_flatMap.1 h
  cases change with
  | replace | cut => cases hx
  | insert gap body =>
    rw [fill] at hx
    split_ifs at hx with hrow
    · obtain ⟨line, -, rfl⟩ := mem_map.1 hx
      exact ⟨gap, body, hc, hrow, rfl⟩
    · cases hx

/-- A row holds its line of the baseline or the text that replaces the rows from it on. -/
theorem mem_row_draftOf (hin : Independent changes) (h : x ∈ (draftOf lines changes).row r) :
    (x.2 = .original r ∧ ∀ change ∈ changes, ∀ span ∈ change.span?, r ∉ span.lines) ∨
    ∃ span body operation, .replace span body operation ∈ changes ∧ r = span.start ∧
      x.2 = .replacement span operation := by
  by_cases hn : ∀ change ∈ changes, ∀ span ∈ change.span?, r ∉ span.lines
  · rw [row_draftOf_of_notMem hn] at h
    obtain ⟨line, -, rfl⟩ := mem_map.1 h
    exact .inl ⟨rfl, hn⟩
  · simp only [not_forall, not_not] at hn
    obtain ⟨change, hc, span, hs, hr⟩ := hn
    rw [row_draftOf_of_mem hin hc hs hr] at h
    cases change with
    | replace span' body operation =>
      rw [apply, row_replace] at h
      split_ifs at h with hst
      · obtain ⟨line, -, rfl⟩ := mem_map.1 h
        exact .inr ⟨span', body, operation, hc, hst, rfl⟩
      · cases h
      · cases h
    | cut span' =>
      rw [apply, row_replace] at h
      split_ifs at h <;> cases h
    | insert gap body => cases hs

/-- The row that holds what stands for a line of the baseline. -/
structure HomeRow (draft : Draft (String × LineOrigin)) (changes : List LineChange)
    (line row : ℕ) : Prop where
  pos : 0 < row
  le : row ≤ line
  nonempty : draft.row row ≠ []
  covers : ∀ x ∈ draft.row row, x.2.coversLine line = true
  only : ∀ r, 0 < r → r ≠ row → ∀ x ∈ draft.row r, x.2.coversLine line = false
  between : ∀ r, row < r → r ≤ line → draft.row r = []
  source : row = line ∨ ∃ span body operation, .replace span body operation ∈ changes ∧
    row = span.start ∧ line ∈ span.lines

/-- A line that is not cut has a row that holds what stands for it. -/
theorem exists_homeRow (hin : Independent changes)
    (hb : ∀ span body operation, .replace span body operation ∈ changes → body ≠ [])
    (hpos : 0 < r) (hle : r ≤ lines.length) (hcut : ∀ span, .cut span ∈ changes → r ∉ span.lines) :
    ∃ row, HomeRow (draftOf lines changes) changes r row := by
  by_cases hn : ∀ change ∈ changes, ∀ span ∈ change.span?, r ∉ span.lines
  · have hrow : (draftOf lines changes).row r = _ := row_draftOf_of_notMem hn
    rw [row_baselineDraft (getElem?_eq_getElem (by omega))] at hrow
    refine ⟨r, hpos, le_rfl, ?_, ?_, ?_, fun i hi hir => absurd hi (not_lt.2 hir), .inl rfl⟩
    · rw [hrow]
      exact cons_ne_nil _ _
    · intro x hx
      rw [hrow, mem_singleton] at hx
      simp [hx, coversLine]
    · intro i _ hi x hx
      rcases mem_row_draftOf hin hx with ⟨htag, -⟩ | ⟨span, body, operation, hmem, -, htag⟩
      · rw [htag]
        simpa [coversLine] using hi
      · have := hn _ hmem span rfl
        rw [mem_lines] at this
        rw [htag]
        simpa [coversLine] using this
  · simp only [not_forall, not_not] at hn
    obtain ⟨change, hc, span, hs, hr⟩ := hn
    cases change with
    | insert gap body => cases hs
    | cut other =>
      cases hs
      exact absurd hr (hcut _ hc)
    | replace other body operation =>
      cases hs
      have hrow {i : ℕ} (hi : i ∈ span.lines) : (draftOf lines changes).row i = _ :=
        row_draftOf_of_mem hin hc rfl hi
      have hst := hrow span.start_mem_lines
      rw [apply, row_replace, if_pos rfl] at hst
      obtain ⟨hf, hl⟩ := mem_lines.1 hr
      refine ⟨span.start, span.pos, hf, ?_, ?_, ?_, fun i hi hir => ?_,
        Or.inr ⟨span, body, operation, hc, rfl, hr⟩⟩
      · rw [hst]
        simpa using hb _ _ _ hc
      · intro x hx
        rw [hst] at hx
        obtain ⟨line, -, rfl⟩ := mem_map.1 hx
        simpa [coversLine] using ⟨hf, hl⟩
      · intro i _ hi x hx
        rcases mem_row_draftOf hin hx with ⟨htag, hfr⟩ | ⟨span', body', operation', hmem, hi', htag⟩
        · rw [htag]
          have : i ≠ r := by
            rintro rfl
            exact hfr _ hc span rfl hr
          simpa [coversLine] using this
        · rw [htag, coversLine, decide_eq_false_iff_not, ← mem_lines]
          intro hr'
          have hsa := hin.unique hmem hc rfl rfl hr' hr
          cases hsa
          exact hi hi'
      · rw [hrow (mem_lines.2 ⟨hi.le, hir.trans hl⟩), apply, row_replace,
          if_neg hi.ne', if_pos ⟨hi, hir.trans hl⟩]

end Draft

/-! ## One section -/

/-- Where the text of a gap of the file goes. -/
theorem gapPlacement_within {gap : ResolvedGap} {body : List String} {total : ℕ}
    (h : (insert gap body).Within total) :
    (gap.row = 0 ∧ gapPlacement gap = (1, .bof)) ∨
    (0 < gap.row ∧ gap.row < total ∧ gapPlacement gap = (gap.row, .after)) ∨
    (0 < gap.row ∧ gap.row = total ∧ gapPlacement gap = (gap.row, .eof)) := by
  obtain ⟨hle, hgap⟩ := h
  generalize gap.row = row at hle hgap ⊢
  rw [hgap, gapAfter]
  rcases Nat.eq_zero_or_pos row with rfl | hpos
  · refine .inl ⟨rfl, ?_⟩
    rw [if_pos rfl]
    split_ifs <;> rfl
  · rcases hle.lt_or_eq with hlt | heq
    · refine .inr (.inl ⟨hpos, hlt, ?_⟩)
      rw [if_neg hpos.ne', if_pos hlt]
      rfl
    · refine .inr (.inr ⟨hpos, heq, ?_⟩)
      rw [if_neg hpos.ne', if_neg (by omega)]
      rfl

/-- The text that a change puts in place of a row. -/
def LineChange.textAt (r : ℕ) : LineChange → List String
  | .replace span body _ => if span.start = r then body else []
  | .cut _ | .insert _ _ => []

def LineChange.takes (r : ℕ) (change : LineChange) : Bool :=
  change.span?.any fun span => decide (r ∈ span.lines)

theorem takes_iff : change.takes r ↔ ∃ span ∈ change.span?, r ∈ span.lines := by
  simp [takes, Option.any_eq_true]

theorem takes_eq_false : change.takes r = false ↔ ∀ span ∈ change.span?, r ∉ span.lines := by
  rw [← Bool.not_eq_true, takes_iff]
  simp only [not_exists, not_and]

section Views

variable {change : LineChange} {total : ℕ}

theorem fill_insert (gap : ResolvedGap) (body : List String) (r : ℕ) :
    ((insert gap body).fill r).map Prod.fst = if gap.row = r then body else [] := by
  rw [fill]
  split_ifs
  · rw [map_map]
    exact map_id _
  · rfl

theorem endTexts_span (span : LineSpan) (body : List String) (opIndex : ℕ) {place : InsertPlace}
    (hp : place ≠ .before) :
    (lowerPutBody (.span span) body opIndex).filterMap (LineEdit.textAt place none) = [] := by
  rw [lowerPutBody, filterMap_append, endTexts_inserts, endTexts_deletes, if_neg hp.symm,
    append_nil]

/-- The texts that a change puts at the ends of the file are in its first and last gap. -/
theorem endTexts_edits (hw : change.Within total) (opIndex : ℕ) :
    (change.edits opIndex).filterMap (LineEdit.textAt .bof none) = (change.fill 0).map Prod.fst ∧
    (change.edits opIndex).filterMap (LineEdit.textAt .eof none) =
      if total = 0 then [] else (change.fill total).map Prod.fst := by
  cases change with
  | replace | cut =>
    rw [edits, endTexts_span _ _ _ (by decide), endTexts_span _ _ _ (by decide)]
    simp [fill]
  | insert gap body =>
    rw [edits, lowerPutBody, endTexts_inserts, endTexts_inserts, fill_insert, fill_insert]
    rcases gapPlacement_within hw with ⟨hrow, hp⟩ | ⟨hpos, hlt, hp⟩ | ⟨hpos, heq, hp⟩
    · rw [hp, hrow]
      by_cases ht : total = 0 <;> simp [ht, Ne.symm]
    · simp [hp, hpos.ne', hlt.ne]
    · simp [hp, heq, show total ≠ 0 by omega]

theorem rowTexts_edits (hw : change.Within total) (opIndex r : ℕ) :
    beforeTexts .plain (change.edits opIndex) r = [] ∧
    beforeTexts .replacement (change.edits opIndex) r = change.textAt r ∧
    deletesRow (change.edits opIndex) r = change.takes r ∧
    afterTexts (change.edits opIndex) r =
      if 0 < r ∧ r < total then (change.fill r).map Prod.fst else [] := by
  cases change with
  | replace | cut =>
    simp [edits, fill, textAt, takes, span?, lowerPutBody, beforeTexts_inserts, afterTexts_inserts]
  | insert gap body =>
    rw [edits, lowerPutBody, beforeTexts_inserts, beforeTexts_inserts, deletesRow_inserts,
      afterTexts_inserts, fill_insert]
    rcases gapPlacement_within hw with ⟨hrow, hp⟩ | ⟨hpos, hlt, hp⟩ | ⟨hpos, heq, hp⟩
    · rw [hp]
      refine ⟨by simp, by simp [textAt], rfl, ?_⟩
      split_ifs with h <;> simp_all
    · rw [hp]
      refine ⟨by simp, by simp [textAt], rfl, ?_⟩
      by_cases h : gap.row = r
      · rw [if_pos ⟨rfl, h⟩, if_pos (by omega), if_pos h]
      · simp [h]
    · rw [hp]
      refine ⟨by simp, by simp [textAt], rfl, ?_⟩
      rw [if_neg (by simp)]
      split_ifs with h h'
      · omega
      · rfl
      · rfl

theorem lineBucket_edits (hw : change.Within total) (opIndex : ℕ) (hr : r = 0 ∨ total < r) :
    lineBucket (change.edits opIndex) r = [] := by
  have hs {span : LineSpan} (hst : span.stop ≤ total) (body : List String) :
      lineBucket (lowerPutBody (.span span) body opIndex) r = [] := by
    refine lineBucket_span ?_ body opIndex
    have := span.pos
    omega
  cases change with
  | replace | cut => exact hs hw _
  | insert gap body =>
    refine lineBucket_inserts ?_ _ _ _
    rcases gapPlacement_within hw with ⟨hrow, hp⟩ | ⟨hpos, hlt, hp⟩ | ⟨hpos, heq, hp⟩
    · rw [hp]
      exact .inl rfl
    · rw [hp]
      exact .inr (.inr (by simp only; omega))
    · rw [hp]
      exact .inr (.inl rfl)

end Views

/-- The edits of changes under their operation indices. -/
def changeEdits (changes : List (LineChange × ℕ)) : List LineEdit :=
  changes.flatMap fun (change, opIndex) => change.edits opIndex

variable {lines : List String}

section Merged

variable {indexed : List (LineChange × ℕ)} {total : ℕ}

section

variable (hw : ∀ change ∈ indexed.map Prod.fst, change.Within total)
include hw

theorem endTexts_changeEdits :
    (changeEdits indexed).filterMap (LineEdit.textAt .bof none) =
      ((indexed.map Prod.fst).flatMap (fill 0)).map Prod.fst ∧
    (changeEdits indexed).filterMap (LineEdit.textAt .eof none) =
      if total = 0 then []
      else ((indexed.map Prod.fst).flatMap (fill total)).map Prod.fst := by
  induction indexed with
  | nil => simp [changeEdits]
  | cons first rest ih =>
    rw [map_cons, forall_mem_cons] at hw
    obtain ⟨hbof, heof⟩ := endTexts_edits hw.1 first.2
    obtain ⟨ihbof, iheof⟩ := ih hw.2
    rw [changeEdits] at ihbof iheof ⊢
    rw [flatMap_cons, filterMap_append, filterMap_append, hbof, heof, ihbof, iheof]
    split_ifs <;> simp

theorem rowTexts_changeEdits (r : ℕ) :
    beforeTexts .plain (changeEdits indexed) r = [] ∧
    beforeTexts .replacement (changeEdits indexed) r =
      (indexed.map Prod.fst).flatMap (textAt r) ∧
    deletesRow (changeEdits indexed) r = (indexed.map Prod.fst).any (takes r) ∧
    afterTexts (changeEdits indexed) r = if 0 < r ∧ r < total then
      ((indexed.map Prod.fst).flatMap (fill r)).map Prod.fst else [] := by
  induction indexed with
  | nil => simp [changeEdits, beforeTexts, afterTexts, deletesRow, lineBucket]
  | cons first rest ih =>
    rw [map_cons, forall_mem_cons] at hw
    obtain ⟨hp, hr, hdel, haf⟩ := rowTexts_edits hw.1 first.2 r
    obtain ⟨ihplain, ihrepl, ihdel, ihafter⟩ := ih hw.2
    rw [changeEdits] at ihplain ihrepl ihdel ihafter ⊢
    rw [flatMap_cons, beforeTexts_append, beforeTexts_append, deletesRow_append,
      afterTexts_append, hp, hr, hdel, haf, ihplain, ihrepl, ihdel, ihafter]
    split_ifs <;> simp

theorem lineBucket_changeEdits (hr : r = 0 ∨ total < r) :
    lineBucket (changeEdits indexed) r = [] := by
  rw [lineBucket, changeEdits, filter_flatMap]
  refine flatMap_eq_nil_iff.2 fun pair hp => ?_
  exact lineBucket_edits (hw _ (mem_map_of_mem hp)) pair.2 hr

end

/-- What the edits leave at a row is what the draft has there. -/
theorem rowText_eq (hin : Independent changes) (hl : lines[r - 1]? = some line) :
    changes.flatMap (textAt r) ++ (if changes.any (takes r) then [] else [line]) =
      ((draftOf lines changes).row r).map Prod.fst := by
  have ht {change : LineChange} (h : change.takes r = false) : change.textAt r = [] := by
    cases change with
    | replace span body operation =>
      rw [textAt, if_neg]
      rintro rfl
      simp [takes, span?, start_mem_lines] at h
    | cut | insert => rfl
  by_cases hta : changes.any (takes r) = true
  · obtain ⟨change, hc, htak⟩ := any_eq_true.1 hta
    obtain ⟨span, hs, hr⟩ := takes_iff.1 htak
    rw [if_pos hta, append_nil, row_draftOf_of_mem hin hc hs hr]
    obtain ⟨before, after, rfl⟩ := append_of_mem hc
    obtain ⟨-, hco, hcr⟩ := pairwise_append.1 hin.disjoint
    have hb : before.flatMap (textAt r) = [] := by
      refine flatMap_eq_nil_iff.2 fun other ho => ht (takes_eq_false.2 ?_)
      intro span' hs' hr'
      exact hcr other ho change mem_cons_self span' hs' span hs r hr' hr
    have haf : after.flatMap (textAt r) = [] := by
      refine flatMap_eq_nil_iff.2 fun other ho => ht (takes_eq_false.2 ?_)
      intro span' hs' hr'
      exact (pairwise_cons.1 hco).1 other ho span hs span' hs' r hr hr'
    rw [flatMap_append, flatMap_cons, hb, haf, append_nil]
    cases change with
    | replace span' body operation =>
      rw [textAt, apply, row_replace]
      by_cases hst : span'.start = r
      · rw [if_pos hst, if_pos hst.symm, map_map]
        exact (map_id _).symm
      · rw [if_neg hst, if_neg (Ne.symm hst)]
        split_ifs <;> rfl
    | cut span' =>
      rw [apply, row_replace]
      split_ifs <;> rfl
    | insert gap body => cases hs
  · have hn : ∀ change ∈ changes, change.takes r = false := by
      simpa using hta
    rw [if_neg hta, flatMap_eq_nil_iff.2 fun change hc => ht (hn change hc),
      row_draftOf_of_notMem fun change hc => takes_eq_false.1 (hn change hc),
      row_baselineDraft hl]
    rfl

/-- The edits of independent changes give the document merged by hand. -/
theorem materializeEdits_changes (hw : ∀ change ∈ indexed.map Prod.fst, change.Within lines.length)
    (hin : Independent (indexed.map Prod.fst)) :
    materializeEdits lines (changeEdits indexed) = handMerged lines (indexed.map Prod.fst) := by
  obtain ⟨hbof, heof⟩ := endTexts_changeEdits hw
  generalize hd : draftOf lines (indexed.map Prod.fst) = draft
  have hgap (r : ℕ) : (indexed.map Prod.fst).flatMap (fill r) = draft.gap r := by
    rw [← hd, gap_draftOf]
  have hro : (lines.zipIdx 1).flatMap (fun row =>
      appendLineBucket (some row.1) (lineBucket (changeEdits indexed) row.2)) =
      (range' 1 lines.length).flatMap fun r => (draft.row r).map Prod.fst ++
        if r < lines.length then (draft.gap r).map Prod.fst else [] := by
    rw [← zipIdx_map_snd 1 lines, flatMap_map]
    refine flatMap_congr fun row hrow => ?_
    obtain ⟨hle, hlt, hget⟩ := mem_zipIdx hrow
    have hl : lines[row.2 - 1]? = some row.1 := by
      rw [getElem?_eq_getElem (by omega), hget]
    obtain ⟨hp, hre, hdel, haf⟩ := rowTexts_changeEdits hw row.2
    rw [appendLineBucket_eq, hp, hre, hdel, haf, ← hd, ← rowText_eq hin hl, hd, hgap]
    simp [show 0 < row.2 by omega]
  rw [materializeEdits_eq (lineBucket_changeEdits hw (.inl rfl))
    (lineBucket_changeEdits hw (.inr (Nat.lt_succ_self _))), hbof, heof, hro, handMerged,
    hd, hgap, hgap]
  generalize lines.length = n
  cases n with
  | zero => simp
  | succ n =>
    have hini : (range' 1 n).flatMap (fun r => (draft.row r).map Prod.fst ++
        if r < n + 1 then (draft.gap r).map Prod.fst else []) =
        (draft.rest 0 n).map Prod.fst := by
      rw [Draft.rest, map_flatMap]
      refine flatMap_congr fun r hr => ?_
      have := (mem_range'_1.1 hr).2
      rw [if_pos (by omega), map_append]
    rw [range'_concat, flatMap_append, hini, Draft.flatten_succ, Draft.flatten]
    simp [Nat.add_comm]

theorem exists_lowerPutBody (change : LineChange) (opIndex : ℕ) :
    ∃ address body, change.edits opIndex = lowerPutBody address body opIndex := by
  cases change with
  | replace span body operation => exact ⟨.span span, body, rfl⟩
  | cut span => exact ⟨.span span, [], rfl⟩
  | insert gap body => exact ⟨.gap gap, body, rfl⟩

theorem opIndex_edits {opIndex : ℕ} {edit : LineEdit} (h : edit ∈ change.edits opIndex) :
    edit.opIndex = opIndex := by
  obtain ⟨address, body, hed⟩ := exists_lowerPutBody change opIndex
  rw [hed] at h
  exact opIndex_lowerPutBody h

theorem coalesce_edits (change : LineChange) (opIndex : ℕ) :
    coalesceReplacementEdits (change.edits opIndex) = change.edits opIndex := by
  obtain ⟨address, body, hed⟩ := exists_lowerPutBody change opIndex
  rw [hed]
  exact coalesceReplacementEdits_lowerPutBody ..

/-- Coalescing leaves the edits of changes with different operation indices alone. -/
theorem coalesce_changeEdits (hn : (indexed.map Prod.snd).Nodup) :
    coalesceReplacementEdits (changeEdits indexed) = changeEdits indexed := by
  induction indexed with
  | nil => rfl
  | cons first rest ih =>
    rw [map_cons, nodup_cons] at hn
    rw [changeEdits, flatMap_cons, coalesceReplacementEdits_append, coalesce_edits]
    · exact congrArg _ (ih hn.2)
    · intro x hx y hy heq
      obtain ⟨pair, hp, hy⟩ := mem_flatMap.1 hy
      rw [opIndex_edits hx, opIndex_edits hy] at heq
      exact hn.1 (heq ▸ mem_map_of_mem hp)

end Merged

def Describes (operations : List (Operation × ResolvedOperation)) (changes : List LineChange) :
    Prop :=
  List.Forall₂ (fun pair change => LineChange.of pair.1 pair.2.address = some change) operations
    changes

variable {registers registers' : StagedRegisters} {edits : List LineEdit}

theorem lowerOperation_change {operation : Operation} {resolved : ResolvedOperation}
    (hc : of operation resolved.address = some change)
    (h : lowerOperation lines operation resolved registers = .ok (edits, registers')) :
    edits = change.edits resolved.operationIndex := by
  obtain ⟨opIndex, address⟩ := resolved
  cases operation with
  | put location source line =>
    cases source with
    | text body =>
      cases h
      cases address with
      | span | gap => cases hc; rfl
      | wholeFile | blockAnchor _ | blockGapAnchor _ _ => cases hc
    | register register => cases hc
  | cut location register line =>
    cases address with
    | span span =>
      cases hc
      exact (lowerCutSpan_eq_ok h).1
    | wholeFile | gap _ | blockAnchor _ | blockGapAnchor _ _ => cases hc
  | rem | mv => cases hc

variable {operations : List (Operation × ResolvedOperation)}

theorem lowerOperations_changes (hc : Describes operations changes)
    (h : lowerOperations lines operations registers = .ok (edits, registers')) :
    edits = changeEdits (changes.zip (operations.map fun pair => pair.2.operationIndex)) := by
  induction hc generalizing registers edits with
  | nil =>
    cases h
    rfl
  | cons hch _ ih =>
    obtain ⟨⟨first, next⟩, hf, h⟩ := Except.bind_eq_ok_iff.1 h
    obtain ⟨⟨more, final⟩, hm, h⟩ := Except.bind_eq_ok_iff.1 h
    cases h
    rw [lowerOperation_change hch hf, ih hm]
    rfl

/-- One section without repair plans the document merged by hand. -/
theorem finalLines_merged (hc : Describes operations changes)
    (hn : (operations.map fun pair => pair.2.operationIndex).Nodup)
    (hw : ∀ change ∈ changes, change.Within lines.length) (hin : Independent changes)
    (h : lowerOperations lines operations registers = .ok (edits, registers'))
    (hq : (planLines lines edits).warnings = []) :
    (planLines lines edits).finalLines = handMerged lines changes := by
  have hed := lowerOperations_changes hc h
  have hl : changes.length = (operations.map fun pair => pair.2.operationIndex).length := by
    rw [length_map]
    exact (List.Forall₂.length_eq hc).symm
  have hfst := map_fst_zip hl.le
  have hsnd := map_snd_zip hl.ge
  rw [planLines_quiet _ hq, hed, materializeEdits_changes, hfst]
  · rwa [hfst]
  · rwa [hfst]
  · rw [hed]
    refine coalesce_changeEdits ?_
    rwa [hsnd]

end Aft.Hashline
