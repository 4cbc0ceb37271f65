import Aft.Patch.Rows

/-!
# The hunks of a patch

The loops of the parser on rows that can be read. They find the hunks that the rows are read as
(`parseHunks_reads`), with one exception: indented rows that follow do not stop the loops, and a
chunk that is still open takes them as lines of its own.
-/

namespace Aft.Patch

open List Option

instance : DecidablePred IsPayload := fun _ => decidable_of_iff _ isPayload_iff.symm

def opensChunk (rows : List Text) (inChunk : Bool) : Bool :=
  rows.foldl (fun inChunk row => chunkMark.isPrefixOf row || inChunk && decide (IsPayload row)) inChunk

/-- Rows that are empty or indented. -/
def Inert (rows : List Text) : Prop := ∀ row ∈ rows, ∀ c ∈ row.head?, isWhitespace c = true

/-- Rows at which every loop of the parser stops. -/
def AtStop (rows : List Text) : Prop := ∀ row ∈ rows.head?, marker <+: row ∧ row ≠ endOfFile

def absorbChunks (taken : List Text) (chunks : List UpdateFileChunk) : List UpdateFileChunk :=
  chunks.modifyLast (taken.foldl .push)

/-- Rows taken into the last chunk of an update. -/
def Hunk.absorb (taken : List Text) : Hunk → Hunk
  | .update path movePath chunks => .update path movePath (absorbChunks taken chunks)
  | hunk => hunk

variable {row : Text}

theorem not_isPrefixOf_of_inert {lead : Text} {first : Char} (hl : [first] <+: lead)
    (hf : isWhitespace first = false) (hrow : ∀ c ∈ row.head?, isWhitespace c = true) :
    lead.isPrefixOf row = false := by
  rw [← Bool.not_eq_true, isPrefixOf_iff]
  intro h
  obtain ⟨rest, rfl⟩ := hl.trans h
  cases (hrow first rfl).symm.trans hf

variable {rows : List Text}

/-- The first of such rows means nothing to any loop. -/
theorem Inert.of_cons (h : Inert (row :: rows)) : marker.isPrefixOf row = false ∧
    chunkMark.isPrefixOf row = false ∧ ['+'].isPrefixOf row = false ∧ Inert rows := by
  obtain ⟨hrow, hrows⟩ := forall_mem_cons.1 h
  exact ⟨not_isPrefixOf_of_inert ⟨_, rfl⟩ (by decide : isWhitespace '*' = false) hrow,
    not_isPrefixOf_of_inert ⟨_, rfl⟩ (by decide : isWhitespace '@' = false) hrow,
    not_isPrefixOf_of_inert (prefix_refl _) (by decide) hrow, hrows⟩

/-! ## Added files -/

variable {taken rest body : List Text}

section AddFile

variable (ht : Inert taken) (hr : AtStop rest)
include ht hr

theorem addFileRows_inert (i : ℕ) (content : Text) :
    addFileRows (taken ++ rest) i content = (content, i + taken.length) := by
  induction taken generalizing i with
  | nil =>
    cases rest with
    | nil => rfl
    | cons row rest =>
      rw [nil_append, addFileRows, if_pos (isPrefixOf_iff.2 (hr row rfl).1)]
      rfl
  | cons row taken ih =>
    obtain ⟨hm, -, hf, ht⟩ := ht.of_cons
    have had : ['+'].isPrefixOf? row = none := by
      rw [← not_isSome_iff_eq_none, isSome_isPrefixOf?_eq_isPrefixOf, hf]
      decide
    rw [cons_append, addFileRows, if_neg (by rw [hm]; decide), had, ih ht,
      length_cons, Nat.add_right_comm, Nat.add_assoc]

theorem addFileRows_reads (hb : ∀ row ∈ body, IsAddRow row) (i : ℕ) (content : Text) :
    addFileRows (body ++ (taken ++ rest)) i content =
      (content ++ (body.filterMap fun row => ['+'].isPrefixOf? row).flatMap (· ++ ['\n']),
        i + body.length + taken.length) := by
  induction body generalizing i content with
  | nil => simp [addFileRows_inert ht hr]
  | cons row body ih =>
    have hrow := hb row mem_cons_self
    rw [cons_append, addFileRows, if_neg (by rw [hrow.not_marker]; decide),
      ih fun other ho => hb other (mem_cons_of_mem _ ho)]
    refine Prod.ext ?_ (by simp only [length_cons]; omega)
    rcases hrow with rfl | ⟨added, rfl⟩
    · have hn : ['+'].isPrefixOf? ([] : Text) = none := rfl
      rw [filterMap_cons_none hn, hn]
    · have hs : ['+'].isPrefixOf? (['+'] ++ added) = some added := rfl
      rw [filterMap_cons_some hs, hs, flatMap_cons]
      simp

end AddFile

theorem flatMap_append_eq_intercalate (lines : List Text) (line : Text) :
    lines.flatMap (· ++ ['\n']) ++ line = ['\n'].intercalate (lines ++ [line]) := by
  induction lines with
  | nil => simp
  | cons first lines ih =>
    rw [flatMap_cons, append_assoc, ih, cons_append, intercalate_cons_of_ne_nil (by simp)]

/-- Lines that each end in a line feed, without the last line feed. -/
theorem stripped_flatMap (lines : List Text) :
    (if (lines.flatMap (· ++ ['\n'])).getLast? = some '\n' then
      (lines.flatMap (· ++ ['\n'])).dropLast else lines.flatMap (· ++ ['\n'])) =
      ['\n'].intercalate lines := by
  induction lines using reverseRecOn with
  | nil => rfl
  | append_singleton lines line _ =>
    rw [flatMap_append, flatMap_singleton, ← append_assoc, getLast?_concat,
      if_pos rfl, dropLast_concat, flatMap_append_eq_intercalate]

variable {lines : List Text}

theorem parseAddFileContent_reads {i : ℕ} (hl : lines.drop i = body ++ (taken ++ rest))
    (hb : ∀ row ∈ body, IsAddRow row) (ht : Inert taken) (hr : AtStop rest) :
    parseAddFileContent lines i = (addContents body, i + body.length + taken.length) := by
  rw [parseAddFileContent, hl, addFileRows_reads ht hr hb]
  exact Prod.ext (stripped_flatMap _) rfl

/-! ## Updated files -/

section UpdateRows

variable {row : Text} {rest : List Text} {chunk : UpdateFileChunk} (i : ℕ)
  (acc : List UpdateFileChunk)

theorem updateFileRows_mark (hrow : chunkMark <+: row) (current : Option UpdateFileChunk) :
    updateFileRows (row :: rest) i current acc =
      updateFileRows rest (i + 1) (some (.opened row)) (acc ++ current.toList) := by
  cases current with
  | none =>
    rw [updateFileRows, if_neg (by rw [not_marker_of_chunkMark hrow]; decide),
      if_pos (isPrefixOf_iff.2 hrow), toList_none, append_nil]
  | some chunk => rw [updateFileRows, if_pos (isPrefixOf_iff.2 hrow), toList_some]

theorem updateFileRows_push (hm : marker.isPrefixOf row = false)
    (hma : chunkMark.isPrefixOf row = false) (current : Option UpdateFileChunk) :
    updateFileRows (row :: rest) i current acc =
      updateFileRows rest (i + 1) (current.map (·.push row)) acc := by
  have hne : row ≠ endOfFile := by
    rintro rfl
    cases hm.symm.trans marker_endOfFile
  cases current with
  | none =>
    rw [updateFileRows, if_neg (by rw [hm]; decide), if_neg (by rw [hma]; decide), map_none]
  | some chunk =>
    rw [updateFileRows, if_neg (by rw [hma]; decide), if_neg hne,
      if_neg (by rw [hm]; decide), map_some]

theorem updateFileRows_stop (hr : AtStop rest) (current : Option UpdateFileChunk) :
    updateFileRows rest i current acc = (acc ++ current.toList, i) := by
  cases rest with
  | nil => cases current <;> rfl
  | cons row rest =>
    obtain ⟨hm, hne⟩ := hr row rfl
    cases current with
    | none => rw [updateFileRows, if_pos (isPrefixOf_iff.2 hm), toList_none, append_nil]
    | some chunk =>
      have hma : ¬ chunkMark.isPrefixOf row = true := by
        intro h
        cases (not_marker_of_chunkMark (isPrefixOf_iff.1 h)).symm.trans (isPrefixOf_iff.2 hm)
      rw [updateFileRows, if_neg hma, if_neg hne, if_pos (isPrefixOf_iff.2 hm), toList_some]

end UpdateRows

theorem updateFileRows_inert (ht : Inert taken) (hr : AtStop rest) (i : ℕ)
    (current : Option UpdateFileChunk) (acc : List UpdateFileChunk) :
    updateFileRows (taken ++ rest) i current acc =
      (acc ++ (current.map (taken.foldl .push)).toList, i + taken.length) := by
  induction taken generalizing i current with
  | nil => rw [nil_append, updateFileRows_stop i acc hr]; cases current <;> rfl
  | cons row taken ih =>
    obtain ⟨hm, hma, -, ht⟩ := ht.of_cons
    rw [cons_append, updateFileRows_push i acc hm hma, ih ht, Nat.add_right_comm]
    cases current <;> rfl

section OpensChunk

variable {row : Text} {rows : List Text} {inChunk : Bool}

theorem opensChunk_mark (hrow : chunkMark <+: row) :
    opensChunk (row :: rows) inChunk = opensChunk rows true := by
  rw [opensChunk, foldl_cons, isPrefixOf_iff.2 hrow]
  rfl

theorem opensChunk_payload (hrow : IsPayload row) :
    opensChunk (row :: rows) inChunk = opensChunk rows inChunk := by
  rw [opensChunk, foldl_cons, hrow.not_mark.2, decide_eq_true hrow, Bool.and_true]
  rfl

theorem opensChunk_marker (hrow : marker <+: row) :
    opensChunk (row :: rows) inChunk = opensChunk rows false := by
  have hm : chunkMark.isPrefixOf row = false := by
    obtain ⟨rest, rfl⟩ := hrow
    rfl
  have hp : ¬ IsPayload row := fun h => by
    cases h.not_mark.1.symm.trans (isPrefixOf_iff.2 hrow)
  rw [opensChunk, foldl_cons, hm, decide_eq_false hp, Bool.and_false]
  rfl

end OpensChunk

variable {chunks : List UpdateFileChunk}

theorem absorbChunks_append (before : List UpdateFileChunk) (hc : chunks ≠ []) :
    absorbChunks taken (before ++ chunks) = before ++ absorbChunks taken chunks :=
  modifyLast_append_of_right_ne_nil _ before chunks hc

variable {current : Option UpdateFileChunk}

theorem ReadsChunks.ne_nil_of_open (h : ReadsChunks current rows chunks)
    (ho : opensChunk rows current.isSome = true) : chunks ≠ [] := by
  induction h with
  | nil current => cases current <;> simp_all [opensChunk]
  | blank _ ih => exact ih (by rwa [opensChunk_payload (.inl rfl)] at ho)
  | mark _ hr _ => simp [hr.ne_nil]
  | payload _ hr _ => exact hr.ne_nil
  | close _ _ => simp

theorem updateFileRows_reads (hb : ReadsChunks current body chunks) (ht : Inert taken)
    (hr : AtStop rest) (i : ℕ) (acc : List UpdateFileChunk) :
    updateFileRows (body ++ (taken ++ rest)) i current acc =
      (acc ++ if opensChunk body current.isSome then absorbChunks taken chunks else chunks,
        i + body.length + taken.length) := by
  induction hb generalizing i acc with
  | nil current =>
    rw [nil_append, updateFileRows_inert ht hr]
    cases current <;> rfl
  | blank hr' ih =>
    rw [cons_append, updateFileRows_push i acc rfl rfl, map_none, ih, isSome_none, length_cons]
    exact Prod.ext rfl (by simp only []; omega)
  | @mark current row rows chunks hrow hr' ih =>
    rw [cons_append, updateFileRows_mark i acc hrow, ih, opensChunk_mark hrow,
      isSome_some, append_assoc, length_cons]
    refine Prod.ext ?_ (by simp only []; omega)
    split_ifs
    · rw [absorbChunks_append _ hr'.ne_nil]
    · rfl
  | payload hrow hr' ih =>
    rw [cons_append, updateFileRows_push i acc hrow.not_mark.1 hrow.not_mark.2, map_some, ih,
      opensChunk_payload hrow, length_cons]
    exact Prod.ext rfl (by simp only []; omega)
  | @close chunk rows chunks hr' ih =>
    rw [cons_append, updateFileRows, if_neg (by decide), if_pos rfl, ih,
      opensChunk_marker (isPrefixOf_iff.1 rfl), isSome_none, append_assoc, length_cons]
    refine Prod.ext ?_ (by simp only []; omega)
    split_ifs with ho
    · exact congrArg (acc ++ ·) (absorbChunks_append [_] (hr'.ne_nil_of_open ho)).symm
    · rfl

theorem absorbChunks_nil (chunks : List UpdateFileChunk) : absorbChunks [] chunks = chunks := by
  induction chunks using reverseRecOn with
  | nil => rfl
  | append_singleton chunks chunk _ => rw [absorbChunks, modifyLast_concat]; rfl

theorem parseUpdateFileChunks_reads {i : ℕ} (hl : lines.drop i = body ++ (taken ++ rest))
    (hb : ReadsChunks none body chunks) (ht : Inert taken) (hr : AtStop rest) :
    parseUpdateFileChunks lines i =
      (if opensChunk body false then absorbChunks taken chunks else chunks,
        i + body.length + taken.length) := by
  rw [parseUpdateFileChunks, hl, updateFileRows_reads hb ht hr]
  rfl

/-! ## File operations -/

/-- The hunks found in rows, where `taken` is read after them. -/
def foundHunks (taken rows : List Text) (hunks : List Hunk) : List Hunk :=
  if opensChunk rows false then hunks.modifyLast (.absorb taken) else hunks

/-- A list of hunks that is not too long. -/
def limited (hunks : List Hunk) : Except String (List Hunk) :=
  if hunks.length ≤ maxHunks then .ok hunks
  else .error s!"Patch exceeds maximum of {maxHunks} file operations"

variable {hunks : List Hunk}

theorem Reads.eq_nil (h : Reads [] hunks) : hunks = [] := by
  cases h
  rfl

theorem marker_addFile (path : Text) : marker <+: addFile ++ path := ⟨_, rfl⟩

theorem marker_deleteFile (path : Text) : marker <+: deleteFile ++ path := ⟨_, rfl⟩

theorem marker_updateFile (path : Text) : marker <+: updateFile ++ path := ⟨_, rfl⟩

theorem marker_moveTo (destination : Text) : marker <+: moveTo ++ destination := ⟨_, rfl⟩

theorem Reads.ne_nil_of_open (h : Reads rows hunks) (ho : opensChunk rows false = true) :
    hunks ≠ [] := by
  induction h with
  | nil => cases ho
  | blank _ ih => exact ih (by rwa [opensChunk_payload (.inl rfl)] at ho)
  | add | delete | update | move => simp

theorem foundHunks_cons {rows' : List Text} (h : Reads rows hunks) (hunk : Hunk)
    (ho : opensChunk rows' false = opensChunk rows false) :
    foundHunks taken rows' (hunk :: hunks) = hunk :: foundHunks taken rows hunks := by
  unfold foundHunks
  rw [ho]
  split_ifs with hop
  · exact modifyLast_append_of_right_ne_nil _ [hunk] hunks (h.ne_nil_of_open hop)
  · rfl

theorem opensChunk_operation (hrow : marker <+: row) (hn : AtMarker rows) :
    opensChunk (row :: (body ++ rows)) false =
      if rows = [] then opensChunk body false else opensChunk rows false := by
  rw [opensChunk_marker hrow]
  cases rows with
  | nil => rw [append_nil, if_pos rfl]
  | cons next rows =>
    rw [opensChunk, foldl_append]
    exact (opensChunk_marker (hn next rfl)).trans (opensChunk_marker (hn next rfl)).symm

theorem foundHunks_operation (hrow : marker <+: row) (hn : AtMarker rows) (h : Reads rows hunks)
    (hunk : Hunk) :
    foundHunks taken (row :: (body ++ rows)) (hunk :: hunks) =
      (if rows = [] ∧ opensChunk body false = true then hunk.absorb taken else hunk) ::
        foundHunks taken rows hunks := by
  have ho : opensChunk (row :: (body ++ rows)) false = _ := opensChunk_operation hrow hn
  by_cases hr : rows = []
  · subst hr
    obtain rfl := h.eq_nil
    rw [foundHunks, ho]
    simp only [true_and]
    split_ifs <;> rfl
  · rw [if_neg hr] at ho
    rw [if_neg fun h => hr h.1, foundHunks_cons h hunk ho]

theorem Reads.split_following (h : Reads rows hunks) (hn : AtMarker rows) (ht : Inert taken)
    (hr : AtStop rest) :
    ∃ read unread, rows ++ (taken ++ rest) = read ++ unread ∧ Inert read ∧ AtStop unread ∧
      read = if rows = [] then taken else [] := by
  cases rows with
  | nil => exact ⟨taken, rest, rfl, ht, hr, rfl⟩
  | cons row rows =>
    refine ⟨[], row :: rows ++ (taken ++ rest), rfl, forall_mem_nil _, ?_, rfl⟩
    rintro _ ⟨⟩
    exact ⟨hn row rfl, h.head_ne_endOfFile row rfl⟩

theorem parseHunks_past {stop i : ℕ} (h : stop ≤ i) (rounds : ℕ) (hunks : List Hunk) :
    parseHunks lines stop rounds i hunks = .ok hunks := by
  cases rounds with
  | zero => rfl
  | succ rounds => rw [parseHunks, if_pos h]

theorem limited_of_le (h : hunks.length ≤ maxHunks) : limited hunks = .ok hunks :=
  if_pos h

section Loop

variable {lines taken rest rows : List Text} {hunks : List Hunk}

/-- The loop on the rows after an operation, from where the operation left off. -/
theorem parseHunks_resume {j rounds : ℕ} {acc : List Hunk} (h : Reads rows hunks)
    (hr : parseHunks lines (j + rows.length) rounds j acc =
      limited (acc ++ foundHunks taken rows hunks)) (hacc : acc.length ≤ maxHunks) :
    parseHunks lines (j + rows.length) rounds (j + (if rows = [] then taken else []).length) acc =
      limited (acc ++ foundHunks taken rows hunks) := by
  split_ifs with hro
  · subst hro
    obtain rfl := h.eq_nil
    rw [parseHunks_past (by simp), foundHunks, if_neg (by decide), append_nil, limited_of_le hacc]
  · exact hr

variable {path : Text} {i stop rounds : ℕ} {acc : List Hunk}

theorem parseHunks_blank (hl : lines.drop i = [] :: rows) (hs : i < stop) :
    parseHunks lines stop (rounds + 1) i acc = parseHunks lines stop rounds (i + 1) acc := by
  have hh : parsePatchHeader lines i = none := by
    rw [parsePatchHeader, (getElem?_of_drop hl).1]
    rfl
  rw [parseHunks, if_neg (by omega), hh]

theorem parseHunks_add (hl : lines.drop i = (addFile ++ path) :: rows) (hp : trim path ≠ [])
    (hs : i < stop) (hacc : acc.length < maxHunks) :
    parseHunks lines stop (rounds + 1) i acc =
      parseHunks lines stop rounds (parseAddFileContent lines (i + 1)).2
        (acc ++ [.add (trim path) (parseAddFileContent lines (i + 1)).1]) := by
  rw [parseHunks, if_neg (by omega), parsePatchHeader_add hl hp, getD_of_drop hl]
  simp [if_neg (show ¬ maxHunks ≤ acc.length by omega)]

theorem parseHunks_delete (hl : lines.drop i = (deleteFile ++ path) :: rows)
    (hp : trim path ≠ []) (hs : i < stop) (hacc : acc.length < maxHunks) :
    parseHunks lines stop (rounds + 1) i acc =
      parseHunks lines stop rounds (i + 1) (acc ++ [.delete (trim path)]) := by
  have hadd : ¬ addFile.isPrefixOf (deleteFile ++ path) = true := nofun
  have hd : deleteFile.isPrefixOf (deleteFile ++ path) = true := rfl
  rw [parseHunks, if_neg (by omega), parsePatchHeader_delete hl hp, getD_of_drop hl]
  simp only [if_neg (show ¬ maxHunks ≤ acc.length by omega), if_neg hadd, if_pos hd]

variable {header : PatchHeader}

theorem parseHunks_update (hl : lines.drop i = (updateFile ++ path) :: rows)
    (hh : parsePatchHeader lines i = some header) (hs : i < stop)
    (hacc : acc.length < maxHunks) :
    parseHunks lines stop (rounds + 1) i acc =
      parseHunks lines stop rounds (parseUpdateFileChunks lines header.nextIdx).2
        (acc ++ [.update header.filePath header.movePath
          (parseUpdateFileChunks lines header.nextIdx).1]) := by
  have hadd : ¬ addFile.isPrefixOf (updateFile ++ path) = true := nofun
  have hd : ¬ deleteFile.isPrefixOf (updateFile ++ path) = true := nofun
  have hu : updateFile.isPrefixOf (updateFile ++ path) = true := rfl
  rw [parseHunks, if_neg (by omega), hh, getD_of_drop hl]
  simp only [if_neg (show ¬ maxHunks ≤ acc.length by omega), if_neg hadd, if_neg hd, if_pos hu]

variable {hunk : Hunk}

theorem parseHunks_operation {next : ℕ} (hh : parsePatchHeader lines i = some header)
    (hs : i < stop)
    (hst : acc.length < maxHunks → parseHunks lines stop (rounds + 1) i acc =
      parseHunks lines stop rounds next (acc ++ [hunk]))
    (hn : ∀ {acc : List Hunk}, acc.length ≤ maxHunks →
      parseHunks lines stop rounds next acc = limited (acc ++ hunks)) :
    parseHunks lines stop (rounds + 1) i acc = limited (acc ++ hunk :: hunks) := by
  by_cases hf : maxHunks ≤ acc.length
  · have hl : ¬ (acc ++ hunk :: hunks).length ≤ maxHunks := by
      rw [length_append, length_cons]
      omega
    rw [parseHunks, if_neg (by omega), hh, limited, if_neg hl]
    simp only [if_pos hf]
  · have hr : (acc ++ [hunk]).length ≤ maxHunks := by
      rw [length_append, length_singleton]
      omega
    rw [hst (by omega), hn hr, append_assoc]
    rfl

theorem Hunk.absorb_nil (hunk : Hunk) : hunk.absorb [] = hunk := by
  cases hunk <;> simp [Hunk.absorb, absorbChunks_nil]

/-- An operation with a body, and the hunks found after it. -/
theorem parseHunks_body {j : ℕ} (hh : parsePatchHeader lines i = some header) (hs : i < j)
    (hb : lines.drop j = body ++ (rows ++ (taken ++ rest))) (hn : AtMarker rows)
    (h : Reads rows hunks) (ht : Inert taken) (hr : AtStop rest)
    (hst : ∀ {read unread : List Text}, lines.drop j = body ++ (read ++ unread) → Inert read →
      AtStop unread → acc.length < maxHunks →
      parseHunks lines (j + body.length + rows.length) (rounds + 1) i acc =
        parseHunks lines (j + body.length + rows.length) rounds (j + body.length + read.length)
          (acc ++ [if opensChunk body false then hunk.absorb read else hunk]))
    (hl : ∀ {acc : List Hunk}, acc.length ≤ maxHunks →
      parseHunks lines (j + body.length + rows.length) rounds (j + body.length) acc =
        limited (acc ++ foundHunks taken rows hunks)) :
    parseHunks lines (j + body.length + rows.length) (rounds + 1) i acc =
      limited (acc ++ (if rows = [] ∧ opensChunk body false = true then hunk.absorb taken else hunk) ::
        foundHunks taken rows hunks) := by
  obtain ⟨read, unread, hsp, hre, hu, hw⟩ := h.split_following hn ht hr
  rw [hsp] at hb
  have hhu : (if rows = [] ∧ opensChunk body false = true then hunk.absorb taken else hunk) =
      if opensChunk body false then hunk.absorb read else hunk := by
    by_cases hro : rows = []
    · simp [hw, hro]
    · simp [hw, hro, Hunk.absorb_nil]
  rw [hhu]
  refine parseHunks_operation hh (by omega) (hst hb hre hu) fun hacc => ?_
  rw [hw]
  exact parseHunks_resume h (hl hacc) hacc

end Loop

/-- The loop over the operations finds the hunks that the rows are read as. -/
theorem parseHunks_reads (h : Reads rows hunks) (ht : Inert taken) (hr : AtStop rest) {i rounds : ℕ}
    {acc : List Hunk} (hl : lines.drop i = rows ++ (taken ++ rest)) (hro : rows.length ≤ rounds)
    (hacc : acc.length ≤ maxHunks) :
    parseHunks lines (i + rows.length) rounds i acc =
      limited (acc ++ foundHunks taken rows hunks) := by
  induction h generalizing i rounds acc with
  | nil =>
    rw [parseHunks_past (by simp), foundHunks, if_neg (by decide), append_nil, limited_of_le hacc]
  | @blank rows hunks _ ih =>
    rw [length_cons] at hro ⊢
    obtain ⟨rounds, rfl⟩ : ∃ k, rounds = k + 1 := ⟨rounds - 1, by omega⟩
    have hih := ih (drop_succ_of_drop hl) (by omega : rows.length ≤ rounds) hacc
    rw [parseHunks_blank hl (by omega), ← Nat.add_assoc, Nat.add_right_comm, hih, foundHunks,
      foundHunks, opensChunk_payload (.inl rfl)]
  | @add path body rows hunks hp hb hn h ih =>
    rw [length_cons, length_append] at hro ⊢
    obtain ⟨rounds, rfl⟩ : ∃ k, rounds = k + 1 := ⟨rounds - 1, by omega⟩
    rw [cons_append, append_assoc] at hl
    have hs : i + (body.length + rows.length + 1) = i + 1 + body.length + rows.length := by omega
    have hd := drop_succ_of_drop hl
    rw [foundHunks_operation (marker_addFile path) hn h, hs]
    refine parseHunks_body (parsePatchHeader_add hl hp) (by omega) hd hn h ht hr
      (fun hre hin hu hacc => ?_) fun hacc =>
        ih (drop_add_of_drop hd) (by omega) hacc
    rw [parseHunks_add hl hp (by omega) hacc, parseAddFileContent_reads hre hb hin hu]
    simp [Hunk.absorb]
  | @delete path rows hunks hp h ih =>
    rw [length_cons] at hro ⊢
    obtain ⟨rounds, rfl⟩ : ∃ k, rounds = k + 1 := ⟨rounds - 1, by omega⟩
    rw [foundHunks_cons h _ (opensChunk_marker (marker_deleteFile path))]
    refine parseHunks_operation (parsePatchHeader_delete hl hp) (by omega)
      (parseHunks_delete hl hp (by omega)) fun hacc => ?_
    rw [← Nat.add_assoc, Nat.add_right_comm]
    exact ih (drop_succ_of_drop hl) (by omega) hacc
  | @update path body rows chunks hunks hp hb hc hn h ih =>
    rw [length_cons, length_append] at hro ⊢
    obtain ⟨rounds, rfl⟩ : ∃ k, rounds = k + 1 := ⟨rounds - 1, by omega⟩
    rw [cons_append, append_assoc] at hl
    have hs : i + (body.length + rows.length + 1) = i + 1 + body.length + rows.length := by omega
    have hd := drop_succ_of_drop hl
    have hh := parsePatchHeader_update hl hp
    rw [head_bind_moveTo (hb.head_not_move hc _)] at hh
    rw [foundHunks_operation (marker_updateFile path) hn h, hs]
    refine parseHunks_body hh (by omega) hd hn h ht hr (fun hre hin hu hacc => ?_) fun hacc =>
        ih (drop_add_of_drop hd) (by omega) hacc
    rw [parseHunks_update hl hh (by omega) hacc, parseUpdateFileChunks_reads hre hb hin hu]
    cases opensChunk body false <;> rfl
  | @move path destination body rows chunks hunks hp hde hb hn h ih =>
    rw [length_cons, length_cons, length_append] at hro ⊢
    obtain ⟨rounds, rfl⟩ : ∃ k, rounds = k + 1 := ⟨rounds - 1, by omega⟩
    rw [cons_append, cons_append, append_assoc] at hl
    have hs : i + (body.length + rows.length + 1 + 1) = i + 2 + body.length + rows.length := by
      omega
    have hd := drop_succ_of_drop (drop_succ_of_drop hl)
    have hh := parsePatchHeader_update hl hp
    rw [foundHunks, opensChunk_marker (marker_updateFile path), ← foundHunks,
      foundHunks_operation (marker_moveTo destination) hn h, hs]
    refine parseHunks_body hh (by omega) hd hn h ht hr (fun hre hin hu hacc => ?_) fun hacc =>
        ih (drop_add_of_drop hd) (by omega) hacc
    rw [parseHunks_update hl hh (by omega) hacc]
    have hc := parseUpdateFileChunks_reads hre hb hin hu
    change parseHunks _ _ _ (parseUpdateFileChunks lines (i + 2)).2 (acc ++ [.update (trim path)
      (some (trim destination)) (parseUpdateFileChunks lines (i + 2)).1]) = _
    rw [hc]
    cases opensChunk body false <;> rfl

end Aft.Patch
