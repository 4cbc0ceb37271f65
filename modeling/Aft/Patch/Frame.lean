import Aft.Patch.Hunks

/-!
# The frame of a patch

A text is accepted when its rows have a frame of markers and the rows inside can be read
(`parsePatch_eq_ok`, `parsePatch_of_reads`). The hunks are those of the rows inside unless the row of
the end marker is indented and a chunk is still open there (`parsePatch_determined_iff`).
-/

namespace Aft.Patch

open List

/-! ## Frames -/

/-- The rows of a text whose rows `inner` are between the markers. -/
structure Framed (lines before : List Text) (first : Text) (inner : List Text) (last : Text)
    (after : List Text) : Prop where
  rows : lines = before ++ first :: (inner ++ last :: after)
  before : ∀ row ∈ before, trim row = []
  first : trim first = beginPatch
  inner : ∀ row ∈ inner, trim row ≠ endPatch
  last : trim last = endPatch
  after : ∀ row ∈ after, trim row = []

variable {lines : List Text} {start stop : ℕ}

theorem firstContent_eq_none (hs : stop ≤ lines.length) :
    firstContent lines start stop = none ↔ ∀ row ∈ slice lines start stop, trim row = [] := by
  have hsl : slice lines start stop =
      (range' start (stop - start)).map fun i => lines.getD i [] := by
    refine ext_getElem (by simp [slice]; omega) fun i h _ => ?_
    have hi : start + i < lines.length := by
      simp only [slice, length_take] at h
      omega
    simp [slice, getElem?_eq_getElem hi]
  rw [firstContent, hsl, forall_mem_map]
  simp

variable {before inner after : List Text} {first : Text}

theorem Framed.drop_inner {last : Text} (h : Framed lines before first inner last after) :
    lines.drop (before.length + 1) = inner ++ last :: after := by
  have hf : lines.drop before.length = first :: (inner ++ last :: after) := by
    rw [h.rows, drop_left]
  exact drop_succ_of_drop hf

variable {text : Text}

theorem parsePatch_of_framed {last : Text} (hs : utf8Len text ≤ maxPatchSize)
    (h : Framed (patchRows text) before first inner last after) :
    parsePatch text = validateOperations (patchRows text) (before.length + 1 + inner.length)
      inner.length (before.length + 1) >>= fun _ =>
        parseHunks (patchRows text) (before.length + 1 + inner.length) inner.length
          (before.length + 1) [] := by
  have hb (target : Text) (ht : target ≠ []) :
      before.findIdx? (fun line => trim line = target) = none := by
    rw [findIdx?_eq_none_iff]
    intro row hrow
    rw [h.before row hrow]
    exact decide_eq_false ht.symm
  have hin : inner.findIdx? (fun line => trim line = endPatch) = none := by
    rw [findIdx?_eq_none_iff]
    exact fun row hrow => decide_eq_false (h.inner row hrow)
  have hf : trim first ≠ endPatch := by rw [h.first]; decide
  have hst : (patchRows text).findIdx? (fun line => trim line = beginPatch) =
      some before.length := by
    rw [h.rows, findIdx?_append, hb _ (by decide), findIdx?_cons]
    simp [h.first]
  have hsto : (patchRows text).findIdx? (fun line => trim line = endPatch) =
      some (before.length + 1 + inner.length) := by
    rw [h.rows, findIdx?_append, hb _ (by decide), findIdx?_cons,
      findIdx?_append, hin, findIdx?_cons]
    simp [hf, h.last]
    omega
  have hn : firstContent (patchRows text) 0 before.length = none := by
    rw [firstContent_eq_none (by rw [h.rows, length_append]; omega)]
    simpa [slice, h.rows] using h.before
  have hn' : firstContent (patchRows text) (before.length + 1 + inner.length + 1)
      (patchRows text).length = none := by
    rw [firstContent_eq_none le_rfl, slice, drop_succ_of_drop (drop_add_of_drop h.drop_inner)]
    exact fun row hrow => h.after row (mem_of_mem_take hrow)
  rw [parsePatch, if_neg (by omega)]
  simp only [hst, hsto, if_neg (show ¬ before.length + 1 + inner.length ≤ before.length by omega),
    validatePatchStructure, hn, hn', Nat.add_sub_cancel_left]

theorem framed_of_markers (hs : lines.findIdx? (fun line => trim line = beginPatch) = some start)
    (hst : lines.findIdx? (fun line => trim line = endPatch) = some stop) (hlt : start < stop)
    (hb : firstContent lines 0 start = none)
    (haf : firstContent lines (stop + 1) lines.length = none) :
    ∃ before first inner last after, Framed lines before first inner last after := by
  obtain ⟨hs, hf, -⟩ := findIdx?_eq_some_iff_getElem.1 hs
  obtain ⟨hst, hlast, hin⟩ := findIdx?_eq_some_iff_getElem.1 hst
  rw [firstContent_eq_none hs.le] at hb
  rw [firstContent_eq_none le_rfl, slice, take_of_length_le (by simp)] at haf
  refine ⟨lines.take start, lines[start], slice lines (start + 1) stop, lines[stop],
    lines.drop (stop + 1), ?_, hb, of_decide_eq_true hf, ?_, of_decide_eq_true hlast, haf⟩
  · have hsk : (lines.drop (start + 1)).drop (stop - (start + 1)) =
        lines[stop] :: lines.drop (stop + 1) := by
      rw [drop_drop, Nat.add_sub_cancel' hlt, drop_eq_getElem_cons hst]
    rw [slice, ← hsk, take_append_drop, ← drop_eq_getElem_cons hs, take_append_drop]
  · intro row hrow
    obtain ⟨i, hi, rfl⟩ := getElem_of_mem hrow
    simp only [slice, length_take] at hi
    have hne := hin (start + 1 + i) (by omega)
    simpa [slice] using hne

variable {hunks : List Hunk}

/-- What is accepted has a frame. -/
theorem framed_of_parsePatch (h : parsePatch text = .ok hunks) :
    utf8Len text ≤ maxPatchSize ∧
      ∃ before first inner last after, Framed (patchRows text) before first inner last after := by
  rw [parsePatch] at h
  split_ifs at h with hs
  refine ⟨by omega, ?_⟩
  generalize patchRows text = lines at h ⊢
  cases hst : lines.findIdx? (fun line => trim line = beginPatch) with
  | none => simp [hst] at h
  | some start =>
    cases hsto : lines.findIdx? (fun line => trim line = endPatch) with
    | none => simp [hsto] at h
    | some stop =>
      simp only [hst, hsto] at h
      split_ifs at h with hle
      obtain ⟨_, hv, -⟩ := Except.bind_eq_ok_iff.1 h
      unfold validatePatchStructure at hv
      cases hb : firstContent lines 0 start with
      | some index => simp only [hb] at hv; cases hv
      | none =>
        cases haf : firstContent lines (stop + 1) lines.length with
        | some index => simp only [hb, haf] at hv; cases hv
        | none => exact framed_of_markers hst hsto (by omega) hb haf

/-! ## The rows from the end marker on -/

/-- The rows from the end marker on that the loops of the parser read. -/
def pastEnd (last : Text) (after : List Text) : List Text :=
  if marker.isPrefixOf last then [] else last :: after

variable {row : Text}

theorem dropWhile_of_head (h : ∀ c ∈ row.head?, isWhitespace c = false) :
    row.dropWhile isWhitespace = row := by
  cases row with
  | nil => rfl
  | cons c rest => rw [dropWhile_cons, if_neg (by rw [h c rfl]; decide)]

theorem trim_prefix (h : ∀ c ∈ row.head?, isWhitespace c = false) : trim row <+: row := by
  rw [trim, dropWhile_of_head h]
  exact rdropWhile_prefix _ _

theorem inert_of_trim_eq_nil (h : trim row = []) : ∀ c ∈ row.head?, isWhitespace c = true := by
  cases row with
  | nil => rintro _ ⟨⟩
  | cons c rest =>
    rintro _ ⟨⟩
    by_contra hc
    rw [trim, dropWhile_cons, if_neg hc, rdropWhile_eq_nil_iff] at h
    exact hc (h c mem_cons_self)

section EndRow

variable {last : Text} (hlast : trim last = endPatch)

include hlast

theorem inert_of_not_marker (hm : ¬ marker <+: last) : ∀ c ∈ last.head?, isWhitespace c = true := by
  intro c hc
  by_contra hf
  have hp : trim last <+: last := trim_prefix fun d hd => by
    obtain rfl := Option.mem_unique hd hc
    simpa using hf
  rw [hlast] at hp
  have hend : marker <+: endPatch := ⟨_, rfl⟩
  exact hm (hend.trans hp)

theorem not_moveTo_of_endPatch : ¬ moveTo <+: last := by
  intro hm
  have hp : trim last <+: last := trim_prefix fun c hc => by
    obtain ⟨rest, rfl⟩ := hm
    cases hc
    rfl
  rw [hlast] at hp
  rcases prefix_or_prefix_of_prefix hp hm with h | h <;>
    exact absurd ( isPrefixOf_iff_prefix.2 h) (by decide)

/-- The rows from the end marker on: those that are read, and then one that every loop stops at. -/
theorem split_pastEnd (haf : ∀ row ∈ after, trim row = []) :
    ∃ rest, last :: after = pastEnd last after ++ rest ∧ Inert (pastEnd last after) ∧
      AtStop rest := by
  unfold pastEnd
  split_ifs with hm
  · refine ⟨last :: after, rfl, forall_mem_nil _, ?_⟩
    rintro _ ⟨⟩
    refine ⟨isPrefixOf_iff.1 hm, ?_⟩
    rintro rfl
    exact absurd hlast (by decide)
  · refine ⟨[], (append_nil _).symm, forall_mem_cons.2 ⟨?_, ?_⟩, by simp [AtStop]⟩
    · exact inert_of_not_marker hlast fun h => hm (isPrefixOf_iff.2 h)
    · exact fun row hrow => inert_of_trim_eq_nil (haf row hrow)

end EndRow

theorem parsePatch_of_reads {last : Text} {read : List Hunk} (hs : utf8Len text ≤ maxPatchSize)
    (h : Framed (patchRows text) before first inner last after) (hr : Reads inner read) :
    parsePatch text = limited (foundHunks (pastEnd last after) inner read) := by
  obtain ⟨rest, hro, hin, hre⟩ := split_pastEnd h.last h.after
  have hd := h.drop_inner
  rw [parsePatch_of_framed hs h, validateOperations_complete hr hd le_rfl]
  rw [hro] at hd
  exact parseHunks_reads hr hin hre hd le_rfl (by simp)

theorem foundHunks_length (taken rows : List Text) (hunks : List Hunk) :
    (foundHunks taken rows hunks).length = hunks.length := by
  unfold foundHunks
  split_ifs
  · induction hunks using reverseRecOn with
    | nil => rfl
    | append_singleton hunks hunk _ => simp [modifyLast_concat]
  · rfl

/-- What is accepted can be read, and the hunks are those that are found. -/
theorem parsePatch_eq_ok (h : parsePatch text = .ok hunks) :
    ∃ before first inner last after, Framed (patchRows text) before first inner last after ∧
      ∃ read, Reads inner read ∧ read.length ≤ maxHunks ∧
        hunks = foundHunks (pastEnd last after) inner read := by
  obtain ⟨hs, before, first, inner, last, after, hf⟩ := framed_of_parsePatch h
  refine ⟨before, first, inner, last, after, hf, ?_⟩
  have hv := h
  rw [parsePatch_of_framed hs hf] at hv
  obtain ⟨_, hv, -⟩ := Except.bind_eq_ok_iff.1 hv
  have ht : ∀ row ∈ (last :: after).head?, ¬ moveTo <+: row := by
    rintro _ ⟨⟩
    exact not_moveTo_of_endPatch hf.last
  obtain ⟨read, hr⟩ := validateOperations_sound hf.drop_inner ht le_rfl hv
  rw [parsePatch_of_reads hs hf hr, limited] at h
  split_ifs at h with hl
  rw [foundHunks_length] at hl
  exact ⟨read, hr, hl, (Except.ok.inj h).symm⟩

/-! ## Rows that a chunk takes from the end marker on -/

def Determines (rows : List Text) (hunks : List Hunk) : Prop :=
  Reads rows hunks ∧ ∀ other, Reads rows other → other = hunks

/-- A chunk is open at the end marker, the loops go on there, and they read a line of the chunk. -/
def Absorbs (inner : List Text) (last : Text) (after : List Text) : Prop :=
  opensChunk inner false = true ∧ ∃ row ∈ pastEnd last after, row = [] ∨ [' '] <+: row

theorem foundHunks_nil (rows : List Text) (hunks : List Hunk) : foundHunks [] rows hunks = hunks := by
  unfold foundHunks
  split_ifs
  · induction hunks using reverseRecOn with
    | nil => rfl
    | append_singleton hunks hunk _ => rw [modifyLast_concat, Hunk.absorb_nil]
  · rfl

variable {rows : List Text}

theorem Reads.unique {other : List Hunk} (h : Reads rows hunks) (ho : Reads rows other)
    (hl : hunks.length ≤ maxHunks) : other = hunks := by
  have hin : Inert [] := forall_mem_nil _
  have hs : AtStop [] := by simp [AtStop]
  have hli : rows.drop 0 = rows ++ ([] ++ []) := by simp
  have hacc : ([] : List Hunk).length ≤ maxHunks := Nat.zero_le _
  have hf := parseHunks_reads h hin hs hli le_rfl hacc
  have hf' := parseHunks_reads ho hin hs hli le_rfl hacc
  rw [hf, nil_append, foundHunks_nil, foundHunks_nil, limited_of_le hl, limited] at hf'
  split_ifs at hf'
  exact (Except.ok.inj hf').symm

theorem opensChunk_addRows {body : List Text} (hb : ∀ row ∈ body, IsAddRow row) :
    opensChunk body false = false := by
  induction body with
  | nil => rfl
  | cons row body ih =>
    have hp : IsPayload row := by
      rcases hb row mem_cons_self with rfl | hrow
      · exact .inl rfl
      · exact .inr ⟨'+', by simp, hrow⟩
    rw [opensChunk_payload hp]
    exact ih fun other ho => hb other (mem_cons_of_mem _ ho)

/-- The last hunk is an update, and so is its last chunk the last one of the patch. -/
def EndsInChunk (hunks : List Hunk) : Prop :=
  ∃ before path movePath chunks chunk, hunks = before ++ [.update path movePath (chunks ++ [chunk])]

theorem EndsInChunk.cons (h : EndsInChunk hunks) (hunk : Hunk) : EndsInChunk (hunk :: hunks) := by
  obtain ⟨before, path, movePath, chunks, chunk, rfl⟩ := h
  exact ⟨hunk :: before, path, movePath, chunks, chunk, rfl⟩

theorem endsInChunk_singleton {path : Text} {movePath : Option Text}
    {chunks : List UpdateFileChunk} (h : chunks ≠ []) :
    EndsInChunk [.update path movePath chunks] :=
  ⟨[], path, movePath, chunks.dropLast, chunks.getLast h, by
    rw [dropLast_append_getLast, nil_append]⟩

theorem Reads.endsInChunk (h : Reads rows hunks) (ho : opensChunk rows false = true) :
    EndsInChunk hunks := by
  induction h with
  | nil => cases ho
  | blank _ ih => exact ih (by rwa [opensChunk_payload (.inl rfl)] at ho)
  | add _ hb hn _ ih =>
    rw [opensChunk_operation (marker_addFile _) hn, opensChunk_addRows hb] at ho
    split_ifs at ho
    exact (ih ho).cons _
  | delete _ _ ih => exact (ih (by rwa [opensChunk_marker (marker_deleteFile _)] at ho)).cons _
  | @update path body rows chunks hunks _ _ hc hn hr ih =>
    rw [opensChunk_operation (marker_updateFile _) hn] at ho
    split_ifs at ho with hro
    · subst hro
      obtain rfl := hr.eq_nil
      exact endsInChunk_singleton hc
    · exact (ih ho).cons _
  | @move path destination body rows chunks hunks _ _ hb hn hr ih =>
    rw [opensChunk_marker (marker_updateFile _), opensChunk_operation (marker_moveTo _) hn] at ho
    split_ifs at ho with hro
    · subst hro
      obtain rfl := hr.eq_nil
      exact endsInChunk_singleton (hb.ne_nil_of_open ho)
    · exact (ih ho).cons _

/-! ## What a chunk takes -/

theorem oldLines_length_foldl (rows : List Text) (chunk : UpdateFileChunk) :
    chunk.oldLines.length ≤ (rows.foldl .push chunk).oldLines.length := by
  induction rows generalizing chunk with
  | nil => exact le_rfl
  | cons row rows ih =>
    refine le_trans ?_ (ih _)
    unfold UpdateFileChunk.push
    split <;> simp

theorem push_of_indented (hrow : ∀ c ∈ row.head?, isWhitespace c = true)
    (h : ¬ (row = [] ∨ [' '] <+: row)) (chunk : UpdateFileChunk) : chunk.push row = chunk := by
  unfold UpdateFileChunk.push
  split
  · exact absurd (.inl rfl) h
  · exact absurd (.inr ⟨_, rfl⟩) h
  · exact absurd (hrow _ rfl) (by decide)
  · exact absurd (hrow _ rfl) (by decide)
  · rfl

theorem oldLines_length_of_line (h : row = [] ∨ [' '] <+: row) (chunk : UpdateFileChunk) :
    chunk.oldLines.length < (chunk.push row).oldLines.length := by
  rcases h with rfl | ⟨content, rfl⟩ <;> simp [UpdateFileChunk.push]

/-- Indented rows leave a chunk as it is exactly when none of them is a line. -/
theorem foldl_push_eq_iff (h : Inert rows) (chunk : UpdateFileChunk) :
    rows.foldl .push chunk = chunk ↔ ¬ ∃ row ∈ rows, row = [] ∨ [' '] <+: row := by
  constructor
  · rintro heq ⟨row, hrow, hl⟩
    obtain ⟨before, after, rfl⟩ := append_of_mem hrow
    rw [foldl_append, foldl_cons] at heq
    have hlt := oldLines_length_of_line hl (before.foldl .push chunk)
    have hb := oldLines_length_foldl before chunk
    have haf := oldLines_length_foldl after ((before.foldl .push chunk).push row)
    rw [heq] at haf
    omega
  · intro hn
    induction rows with
    | nil => rfl
    | cons row rows ih =>
      obtain ⟨hrow, hr⟩ := forall_mem_cons.1 h
      simp only [exists_mem_cons_iff, not_or] at hn
      rw [foldl_cons, push_of_indented hrow (not_or.2 hn.1)]
      exact ih hr (by simpa using hn.2)

theorem foundHunks_eq_iff {taken : List Text} (h : Reads rows hunks) (ht : Inert taken) :
    foundHunks taken rows hunks = hunks ↔
      ¬ (opensChunk rows false = true ∧ ∃ row ∈ taken, row = [] ∨ [' '] <+: row) := by
  unfold foundHunks
  split_ifs with ho
  · obtain ⟨before, path, movePath, chunks, chunk, rfl⟩ := h.endsInChunk ho
    rw [modifyLast_concat, Hunk.absorb, absorbChunks, modifyLast_concat]
    simp [foldl_push_eq_iff ht, ho]
  · simp [ho]

/-- The hunks are those inside the frame, unless a chunk takes rows from the end marker on. -/
theorem parsePatch_determined_iff (h : parsePatch text = .ok hunks) :
    ∃ before first inner last after, Framed (patchRows text) before first inner last after ∧
      (Determines inner hunks ↔ ¬ Absorbs inner last after) := by
  obtain ⟨before, first, inner, last, after, hf, read, hr, hl, rfl⟩ :=
    parsePatch_eq_ok h
  refine ⟨before, first, inner, last, after, hf, ?_⟩
  obtain ⟨rest, -, hin, -⟩ := split_pastEnd hf.last hf.after
  rw [Absorbs, ← foundHunks_eq_iff hr hin]
  constructor
  · exact fun hd => (hd.2 read hr).symm
  · intro heq
    rw [heq]
    exact ⟨hr, fun other ho => hr.unique ho hl⟩

end Aft.Patch
