import Aft.Lib.Rows
import Aft.Patch.Frame

/-!
# Printed patches

The canonical text of a list of hunks: one row for each header, and for each chunk its removed lines
before its added lines. Parsing it gives the hunks back, except for carriage returns at the end of
lines (`parsePatch_printPatch`), and whatever is parsed has a text (`parsePatch_wellFormed`).
-/

namespace Aft.Patch

open List Hunk UpdateFileChunk

/-! ## The canonical text -/

def UpdateFileChunk.rows (chunk : UpdateFileChunk) : List Text :=
  (chunkMark ++ (chunk.changeContext.elim [] fun context => ' ' :: context)) ::
    (chunk.oldLines.map ('-' :: ·) ++ chunk.newLines.map ('+' :: ·) ++
      if chunk.isEndOfFile then [endOfFile] else [])

def Hunk.rows : Hunk → List Text
  | .add path contents => (addFile ++ ' ' :: path) :: (contents.splitOn '\n').map ('+' :: ·)
  | .delete path => [deleteFile ++ ' ' :: path]
  | .update path movePath chunks =>
    (updateFile ++ ' ' :: path) ::
      ((movePath.map fun destination => moveTo ++ ' ' :: destination).toList ++
        chunks.flatMap UpdateFileChunk.rows)

def printPatch (hunks : List Hunk) : Text :=
  ['\n'].intercalate (beginPatch :: (hunks.flatMap Hunk.rows ++ [endPatch]))

/-- A path or a context that a header row can hold. -/
def IsName (name : Text) : Prop := name ≠ [] ∧ trim name = name ∧ '\n' ∉ name

/-- A line that keeps its end in a row. -/
def IsLine (line : Text) : Prop := '\n' ∉ line ∧ line.getLast? ≠ some '\r'

def Hunk.names : Hunk → List Text
  | .add path _ => [path]
  | .delete path => [path]
  | .update path movePath chunks => path :: (movePath.toList ++ chunks.filterMap (·.changeContext))

def Hunk.lines : Hunk → List Text
  | .add _ contents => contents.splitOn '\n'
  | .delete _ => []
  | .update _ _ chunks => chunks.flatMap fun chunk => chunk.oldLines ++ chunk.newLines

/-- A hunk whose names can stand in rows, whose lines meet a condition and that does something. -/
structure Hunk.Prints (ok : Text → Prop) (hunk : Hunk) : Prop where
  names : ∀ name ∈ hunk.names, IsName name
  lines : ∀ line ∈ hunk.lines, ok line
  changes : ∀ path, hunk ≠ .update path none []

/-- A hunk that its rows describe. -/
def Hunk.Printable (hunk : Hunk) : Prop := hunk.Prints IsLine

/-! ## Names and lines -/

variable {text : Text} {c : Char}

theorem trim_trim (text : Text) : trim (trim text) = trim text := by
  have hh : ∀ c ∈ (trim text).head?, isWhitespace c = false := by
    intro c hc
    obtain ⟨more, hm⟩ : trim text <+: text.dropWhile isWhitespace := rdropWhile_prefix _ _
    have hnot := head?_dropWhile_not isWhitespace text
    rwa [← hm, head?_append, Option.mem_def.1 hc] at hnot
  rw [trim, dropWhile_of_head hh, trim, rdropWhile_idempotent]

theorem isName_trim (hne : trim text ≠ []) (hlf : '\n' ∉ text) : IsName (trim text) :=
  ⟨hne, trim_trim text, fun h =>
    hlf ((dropWhile_suffix _).subset (( rdropWhile_prefix _ _).subset h))⟩

theorem trim_space (text : Text) : trim (' ' :: text) = trim text := rfl

variable {name : Text}

theorem dropCr_append_name (h : IsName name) (lead : Text) :
    dropCr (lead ++ name) = lead ++ name := by
  have hl : (lead ++ name).getLast? = name.getLast? := getLast?_append_of_ne_nil _ h.1
  have hcr : name.getLast? ≠ some '\r' := by
    intro hcr
    have hne : trim name ≠ [] := by rw [h.2.1]; exact h.1
    have hnot := rdropWhile_last_not isWhitespace (name.dropWhile isWhitespace) hne
    have hg : (trim name).getLast hne = '\r' := by
      rw [← Option.some_inj, ← getLast?_eq_some_getLast, h.2.1, hcr]
    have hs : isWhitespace ((trim name).getLast hne) = true := by rw [hg]; decide
    exact hnot hs
  rw [dropCr, hl, if_neg hcr]

theorem dropCr_cons (first : Char) (hf : first ≠ '\r') (line : Text) :
    dropCr (first :: line) = first :: dropCr line := by
  cases line with
  | nil => simp [dropCr, hf]
  | cons c rest =>
    unfold dropCr
    rw [getLast?_cons_cons]
    split_ifs <;> simp

variable {line : Text}

theorem dropCr_eq_self_iff : dropCr line = line ↔ line.getLast? ≠ some '\r' := by
  unfold dropCr
  split_ifs with h
  · refine iff_of_false (fun heq => ?_) (not_not.2 h)
    have hl := congrArg length heq
    rw [length_dropLast] at hl
    obtain rfl := eq_nil_of_length_eq_zero (by omega : line.length = 0)
    cases h
  · simp [h]

theorem not_mem_dropCr (h : c ∉ line) : c ∉ dropCr line := by
  unfold dropCr
  split_ifs
  · exact fun hmem => h (mem_of_mem_dropLast hmem)
  · exact h

/-! ## Reading the printed rows -/

variable {chunk : UpdateFileChunk} {chunks : List UpdateFileChunk} {rows : List Text}

theorem ReadsChunks.payloads {rest : List Text} (hr : ∀ row ∈ rows, IsPayload row)
    (h : ReadsChunks (some (rows.foldl .push chunk)) rest chunks) :
    ReadsChunks (some chunk) (rows ++ rest) chunks := by
  induction rows generalizing chunk with
  | nil => exact h
  | cons row rows ih =>
    obtain ⟨hrow, hr⟩ := forall_mem_cons.1 hr
    exact .payload hrow (ih hr h)

theorem foldl_push_removed (lines : List Text) (chunk : UpdateFileChunk) :
    (lines.map ('-' :: ·)).foldl .push chunk =
      { chunk with oldLines := chunk.oldLines ++ lines } := by
  induction lines generalizing chunk with
  | nil => simp
  | cons line lines ih => rw [map_cons, foldl_cons, ih]; simp [push]

theorem foldl_push_added (lines : List Text) (chunk : UpdateFileChunk) :
    (lines.map ('+' :: ·)).foldl .push chunk =
      { chunk with newLines := chunk.newLines ++ lines } := by
  induction lines generalizing chunk with
  | nil => simp
  | cons line lines ih => rw [map_cons, foldl_cons, ih]; simp [push]

variable {first : Char} {row : Text}

theorem isPayload_of_mem_map (hf : first ∈ [' ', '+', '-']) {lines : List Text}
    (h : row ∈ lines.map (first :: ·)) : IsPayload row := by
  obtain ⟨line, -, rfl⟩ := mem_map.1 h
  exact .inr ⟨first, hf, line, rfl⟩

theorem opened_context {context : Option Text} (h : ∀ name ∈ context, IsName name) :
    opened (chunkMark ++ context.elim [] fun name => ' ' :: name) =
      ⟨[], [], context, false⟩ := by
  cases context with
  | none => rfl
  | some name =>
    obtain ⟨hne, ht, -⟩ := h name rfl
    have hc : trim ((chunkMark ++ ' ' :: name).drop chunkMark.length) = name := by
      rw [drop_left, trim_space, ht]
    simp only [Option.elim_some, opened, hc, List.isEmpty_iff, hne, if_false]

theorem readsChunks_rows (h : ∀ chunk ∈ chunks, ∀ context ∈ chunk.changeContext, IsName context)
    (current : Option UpdateFileChunk) :
    ReadsChunks current (chunks.flatMap UpdateFileChunk.rows) (current.toList ++ chunks) := by
  induction chunks generalizing current with
  | nil => simpa using ReadsChunks.nil current
  | cons chunk chunks ih =>
    obtain ⟨hc, hch⟩ := forall_mem_cons.1 h
    rw [flatMap_cons, UpdateFileChunk.rows, cons_append, append_assoc]
    refine .mark ⟨_, rfl⟩ (.payloads (fun row hrow => ?_) ?_)
    · rcases mem_append.1 hrow with hrow | hrow
      · exact isPayload_of_mem_map (by simp) hrow
      · exact isPayload_of_mem_map (by simp) hrow
    · rw [opened_context hc, foldl_append, foldl_push_removed, foldl_push_added]
      obtain ⟨oldLines, newLines, context, _ | _⟩ := chunk
      · exact ih hch _
      · exact .close (ih hch none)

theorem addContents_rows (lines : List Text) :
    addContents (lines.map ('+' :: ·)) = ['\n'].intercalate lines := by
  rw [addContents, filterMap_map]
  congr 1
  exact filterMap_some

variable {path : Text} {movePath : Option Text} {ok : Text → Prop}

theorem Hunk.forall_names_update :
    (∀ name ∈ (update path movePath chunks).names, ok name) ↔
      ok path ∧ (∀ destination ∈ movePath, ok destination) ∧
        ∀ chunk ∈ chunks, ∀ context ∈ chunk.changeContext, ok context := by
  simp only [names, forall_mem_cons, forall_mem_append, Option.mem_toList, mem_filterMap]
  refine and_congr_right fun _ => and_congr_right fun _ => ?_
  exact ⟨fun h chunk hc context hco => h context ⟨chunk, hc, hco⟩,
    fun h name ⟨chunk, hc, hn⟩ => h chunk hc name hn⟩

theorem trim_space_name (h : IsName name) :
    trim (' ' :: name) ≠ [] ∧ trim (' ' :: name) = name := by
  rw [trim_space, h.2.1]
  exact ⟨h.1, rfl⟩

variable {hunks : List Hunk}

theorem reads_rows (h : ∀ hunk ∈ hunks, hunk.Prints ok) :
    Reads (hunks.flatMap Hunk.rows) hunks := by
  induction hunks with
  | nil => exact .nil
  | cons hunk hunks ih =>
    obtain ⟨hh, hhu⟩ := forall_mem_cons.1 h
    have hn : AtMarker (hunks.flatMap Hunk.rows) := by
      cases hunks with
      | nil => simp [AtMarker]
      | cons next hunks =>
        cases next <;> rintro _ ⟨⟩ <;> exact ⟨_, rfl⟩
    have hr := ih hhu
    cases hunk with
    | add path contents =>
      have hp := trim_space_name (hh.names path (by simp [Hunk.names]))
      have hb : ∀ row ∈ (contents.splitOn '\n').map ('+' :: ·), IsAddRow row := by
        intro row hrow
        obtain ⟨line, -, rfl⟩ := mem_map.1 hrow
        exact .inr ⟨line, rfl⟩
      have hre := Reads.add hp.1 hb hn hr
      rwa [hp.2, addContents_rows, intercalate_splitOn] at hre
    | delete path =>
      have hp := trim_space_name (hh.names path (by simp [Hunk.names]))
      have hre := Reads.delete hp.1 hr
      rwa [hp.2] at hre
    | update path movePath chunks =>
      obtain ⟨hp, hm, hc⟩ := Hunk.forall_names_update.1 hh.names
      have hp := trim_space_name hp
      have hb := readsChunks_rows hc none
      cases movePath with
      | none =>
        have hne : chunks ≠ [] := by
          rintro rfl
          exact hh.changes path rfl
        have hre := Reads.update hp.1 hb hne hn hr
        rwa [hp.2] at hre
      | some destination =>
        have hd := trim_space_name (hm destination rfl)
        have hre := Reads.move hp.1 hd.1 hb hn hr
        rwa [hp.2, hd.2] at hre

/-! ## The rows of the printed text -/

/-- Every line of a hunk, changed by a function. -/
def Hunk.mapLines (f : Text → Text) : Hunk → Hunk
  | .add path contents => .add path (['\n'].intercalate ((contents.splitOn '\n').map f))
  | .delete path => .delete path
  | .update path movePath chunks => .update path movePath (chunks.map fun chunk =>
    { chunk with oldLines := chunk.oldLines.map f, newLines := chunk.newLines.map f })

/-- A hunk whose lines do not end before their end. -/
def Hunk.WellFormed (hunk : Hunk) : Prop := hunk.Prints ('\n' ∉ ·)

theorem splitOn_map_dropCr (contents : Text) :
    (['\n'].intercalate ((contents.splitOn '\n').map dropCr)).splitOn '\n' =
      (contents.splitOn '\n').map dropCr := by
  refine splitOn_intercalate _ ?_ (by simp)
  intro row hrow
  obtain ⟨line, hl, rfl⟩ := mem_map.1 hrow
  exact not_mem_dropCr (notMem_of_mem_splitOn hl)

theorem map_dropCr_cons (hf : first ≠ '\r') (lines : List Text) :
    (lines.map (first :: ·)).map dropCr = (lines.map dropCr).map (first :: ·) := by
  rw [map_map, map_map]
  exact map_congr_left fun line _ => dropCr_cons first hf line

theorem dropCr_name (h : IsName name) (lead : Text) :
    dropCr (lead ++ ' ' :: name) = lead ++ ' ' :: name := by
  have hap := dropCr_append_name h (lead ++ [' '])
  rwa [append_assoc] at hap

theorem UpdateFileChunk.rows_dropCr (h : ∀ context ∈ chunk.changeContext, IsName context) :
    chunk.rows.map dropCr =
      UpdateFileChunk.rows { chunk with
        oldLines := chunk.oldLines.map dropCr, newLines := chunk.newLines.map dropCr } := by
  obtain ⟨oldLines, newLines, context, atEnd⟩ := chunk
  have hm : dropCr (chunkMark ++ context.elim [] fun name => ' ' :: name) =
      chunkMark ++ context.elim [] fun name => ' ' :: name := by
    cases context with
    | none => rfl
    | some name => exact dropCr_name (h name rfl) chunkMark
  have hend : (if atEnd then [endOfFile] else []).map dropCr = if atEnd then [endOfFile] else [] := by
    cases atEnd <;> rfl
  simp [UpdateFileChunk.rows, hm, hend, map_dropCr_cons (show '-' ≠ '\r' by decide),
    map_dropCr_cons (show '+' ≠ '\r' by decide)]

variable {hunk : Hunk}

theorem Hunk.rows_dropCr (h : ∀ name ∈ hunk.names, IsName name) :
    hunk.rows.map dropCr = (hunk.mapLines dropCr).rows := by
  cases hunk with
  | add path contents =>
    rw [rows, mapLines, rows, splitOn_map_dropCr, map_cons,
      dropCr_name (h path (by simp [names])), map_dropCr_cons (by decide)]
  | delete path =>
    rw [mapLines, rows, map_singleton, dropCr_name (h path (by simp [names]))]
  | update path movePath chunks =>
    obtain ⟨hp, hm, hc⟩ := forall_names_update.1 h
    have hd : ((movePath.map fun destination => moveTo ++ ' ' :: destination).toList).map
        dropCr = (movePath.map fun destination => moveTo ++ ' ' :: destination).toList := by
      cases movePath with
      | none => rfl
      | some destination => exact congrArg (fun row => [row]) (dropCr_name (hm _ rfl) moveTo)
    rw [rows, mapLines, rows, map_cons, dropCr_name hp, map_append, hd, map_flatMap, flatMap_map]
    congr 2
    exact flatMap_congr fun chunk hch => chunk.rows_dropCr (hc chunk hch)

def nameLeads : List Text := [addFile, deleteFile, updateFile, moveTo, chunkMark]

theorem Hunk.mem_rows (h : row ∈ hunk.rows) :
    ∃ lead ∈ nameLeads ++ [endOfFile, ['+'], ['-']], ∃ rest, row = lead ++ rest ∧
      (rest = [] ∨ (∃ name ∈ hunk.names, rest = ' ' :: name) ∨ rest ∈ hunk.lines) := by
  cases hunk with
  | add path contents =>
    rcases mem_cons.1 h with rfl | h
    · exact ⟨addFile, by decide, _, rfl, .inr (.inl ⟨path, by simp [names], rfl⟩)⟩
    · obtain ⟨line, hl, rfl⟩ := mem_map.1 h
      exact ⟨['+'], by decide, line, rfl, .inr (.inr hl)⟩
  | delete path =>
    obtain rfl := mem_singleton.1 h
    exact ⟨deleteFile, by decide, _, rfl, .inr (.inl ⟨path, by simp [names], rfl⟩)⟩
  | update path movePath chunks =>
    rcases mem_cons.1 h with rfl | h
    · exact ⟨updateFile, by decide, _, rfl, .inr (.inl ⟨path, by simp [names], rfl⟩)⟩
    rcases mem_append.1 h with h | h
    · cases movePath with
      | none => cases h
      | some destination =>
        obtain rfl := mem_singleton.1 h
        exact ⟨moveTo, by decide, _, rfl, .inr (.inl ⟨destination, by simp [names], rfl⟩)⟩
    · obtain ⟨chunk, hc, h⟩ := mem_flatMap.1 h
      simp only [UpdateFileChunk.rows, mem_cons, mem_append, mem_map] at h
      rcases h with rfl | (⟨line, hl, rfl⟩ | ⟨line, hl, rfl⟩) | h
      · cases hco : chunk.changeContext with
        | none => exact ⟨chunkMark, by decide, [], rfl, .inl rfl⟩
        | some context =>
          refine ⟨chunkMark, by decide, _, rfl, .inr (.inl ⟨context, ?_, rfl⟩)⟩
          exact mem_cons_of_mem _ (mem_append_right _ (mem_filterMap.2 ⟨chunk, hc, hco⟩))
      · refine ⟨['-'], by decide, line, rfl, .inr (.inr (mem_flatMap.2 ⟨chunk, hc, ?_⟩))⟩
        exact mem_append_left _ hl
      · refine ⟨['+'], by decide, line, rfl, .inr (.inr (mem_flatMap.2 ⟨chunk, hc, ?_⟩))⟩
        exact mem_append_right _ hl
      · split_ifs at h
        · exact ⟨endOfFile, by decide, [], by simpa using h, .inl rfl⟩
        · cases h

theorem Hunk.trim_row_ne (h : row ∈ hunk.rows) : trim row ≠ endPatch := by
  obtain ⟨lead, hl, rest, rfl, -⟩ := mem_rows h
  have hle : ∀ lead ∈ nameLeads ++ [endOfFile, ['+'], ['-']],
      lead.head?.any (fun c => !isWhitespace c) ∧ ¬ lead.isPrefixOf endPatch ∧
        ¬ endPatch.isPrefixOf lead := by decide
  obtain ⟨hh, hnot, hnot'⟩ := hle lead hl
  intro hend
  have hp : trim (lead ++ rest) <+: lead ++ rest := trim_prefix fun c hc => by
    cases lead with
    | nil => cases hh
    | cons first lead =>
      cases hc
      simpa using hh
  rw [hend] at hp
  rcases prefix_or_prefix_of_prefix hp (prefix_append lead rest) with h | h
  · exact hnot' (isPrefixOf_iff.2 h)
  · exact hnot (isPrefixOf_iff.2 h)

theorem Hunk.WellFormed.not_mem_row (h : hunk.WellFormed) (hrow : row ∈ hunk.rows) :
    '\n' ∉ row := by
  obtain ⟨lead, hl, rest, rfl, hre⟩ := mem_rows hrow
  have hle : ∀ lead ∈ nameLeads ++ [endOfFile, ['+'], ['-']], '\n' ∉ lead := by decide
  refine not_mem_append (hle lead hl) ?_
  rcases hre with rfl | ⟨name, hn, rfl⟩ | hli
  · exact not_mem_nil
  · simp [(h.names name hn).2.2]
  · exact h.lines rest hli

theorem printPatch_eq (hunks : List Hunk) :
    printPatch hunks =
      (beginPatch :: hunks.flatMap Hunk.rows).flatMap (· ++ ['\n']) ++ endPatch :=
  (flatMap_append_eq_intercalate (beginPatch :: hunks.flatMap Hunk.rows) endPatch).symm

theorem trim_printPatch (hunks : List Hunk) : trim (printPatch hunks) = printPatch hunks := by
  have hh : (printPatch hunks).dropWhile isWhitespace = printPatch hunks := by
    rw [printPatch_eq]
    exact dropWhile_of_head fun c hc => by obtain rfl := Option.some.inj hc; rfl
  have hend : endPatch = "*** End Patc".toList ++ ['h'] := rfl
  rw [trim, hh, printPatch_eq, hend, ← append_assoc]
  exact rdropWhile_concat_neg _ _ _ (by decide)

theorem stripHeredoc_printPatch (hunks : List Hunk) :
    stripHeredoc (printPatch hunks) = printPatch hunks := by
  rw [printPatch_eq]
  rfl

theorem patchRows_printPatch (h : ∀ hunk ∈ hunks, hunk.WellFormed) :
    patchRows (printPatch hunks) =
      beginPatch :: ((hunks.map (·.mapLines dropCr)).flatMap Hunk.rows ++ [endPatch]) := by
  have hlf : ∀ row ∈ beginPatch :: (hunks.flatMap Hunk.rows ++ [endPatch]), '\n' ∉ row := by
    rw [forall_mem_cons, forall_mem_append]
    refine ⟨by decide, fun row hrow => ?_, by decide⟩
    obtain ⟨hunk, hh, hrow⟩ := mem_flatMap.1 hrow
    exact (h hunk hh).not_mem_row hrow
  rw [patchRows, trim_printPatch, stripHeredoc_printPatch, printPatch,
    splitOn_intercalate _ hlf (by simp), map_cons, map_append, map_flatMap,
    flatMap_map]
  congr 2
  exact flatMap_congr fun hunk hh => hunk.rows_dropCr (h hunk hh).names

theorem Hunk.WellFormed.mapLines (h : hunk.WellFormed) (f : Text → Text) :
    (hunk.mapLines f).Prints fun _ => True := by
  refine ⟨?_, fun _ _ => trivial, ?_⟩
  · have hn := h.names
    cases hunk with
    | add | delete => exact hn
    | update path movePath chunks =>
      simpa [mapLines, forall_names_update] using hn
  · have hc := h.changes
    rintro path hmap
    cases hunk with
    | add | delete => cases hmap
    | update path' movePath chunks =>
      obtain ⟨rfl, rfl, hch⟩ := update.inj hmap
      exact hc path' (by rw [map_eq_nil_iff.1 hch])

/-- Parsing the text of hunks gives the hunks, without carriage returns at line ends. -/
theorem parsePatch_printPatch (h : ∀ hunk ∈ hunks, hunk.WellFormed)
    (hl : hunks.length ≤ maxHunks) (hs : utf8Len (printPatch hunks) ≤ maxPatchSize) :
    parsePatch (printPatch hunks) = .ok (hunks.map (·.mapLines dropCr)) := by
  have hf : Framed (patchRows (printPatch hunks)) [] beginPatch
      ((hunks.map (·.mapLines dropCr)).flatMap Hunk.rows) endPatch [] := by
    refine ⟨patchRows_printPatch h, forall_mem_nil _, by decide, fun row hrow => ?_, by decide,
      forall_mem_nil _⟩
    obtain ⟨hunk, -, hrow⟩ := mem_flatMap.1 hrow
    exact Hunk.trim_row_ne hrow
  have hr : Reads ((hunks.map (·.mapLines dropCr)).flatMap Hunk.rows)
      (hunks.map (·.mapLines dropCr)) :=
    reads_rows (forall_mem_map.2 fun hunk hh => (h hunk hh).mapLines dropCr)
  have hend : pastEnd endPatch [] = [] := rfl
  rw [parsePatch_of_reads hs hf hr, hend, foundHunks_nil, limited_of_le (by rwa [length_map])]

/-! ## What is parsed has a text -/

def UpdateFileChunk.WellFormed (chunk : UpdateFileChunk) : Prop :=
  (∀ context ∈ chunk.changeContext, IsName context) ∧
    ∀ line ∈ chunk.oldLines ++ chunk.newLines, '\n' ∉ line

theorem Hunk.wellFormed_update :
    (update path movePath chunks).WellFormed ↔
      IsName path ∧ (∀ destination ∈ movePath, IsName destination) ∧
        (∀ chunk ∈ chunks, chunk.WellFormed) ∧ (movePath = none → chunks ≠ []) := by
  have hl : (∀ line ∈ (update path movePath chunks).lines, '\n' ∉ line) ↔
      ∀ chunk ∈ chunks, ∀ line ∈ chunk.oldLines ++ chunk.newLines, '\n' ∉ line := by
    simp only [lines, forall_mem_flatMap]
  constructor
  · intro h
    obtain ⟨hp, hm, hc⟩ := forall_names_update.1 h.names
    refine ⟨hp, hm, fun chunk hch => ⟨hc chunk hch, hl.1 h.lines chunk hch⟩, ?_⟩
    rintro rfl rfl
    exact h.changes path rfl
  · rintro ⟨hp, hm, hchu, hne⟩
    refine ⟨forall_names_update.2 ⟨hp, hm, fun chunk hch => (hchu chunk hch).1⟩,
      hl.2 fun chunk hch => (hchu chunk hch).2, ?_⟩
    rintro _ heq
    obtain ⟨-, rfl, rfl⟩ := update.inj heq
    exact hne rfl rfl

theorem wellFormed_opened (h : '\n' ∉ row) : (opened row).WellFormed := by
  refine ⟨fun context hc => ?_, by simp [opened]⟩
  simp only [opened, Option.mem_def] at hc
  split_ifs at hc with hem
  cases hc
  exact isName_trim (by simpa using hem) fun hmem => h (mem_of_mem_drop hmem)

theorem UpdateFileChunk.WellFormed.push (h : chunk.WellFormed) (hrow : '\n' ∉ row) :
    (chunk.push row).WellFormed := by
  obtain ⟨hc, hl⟩ := h
  unfold UpdateFileChunk.push
  split <;> refine ⟨hc, ?_⟩ <;> simp_all [or_imp]

theorem UpdateFileChunk.WellFormed.foldl_push (hr : ∀ row ∈ rows, '\n' ∉ row) (h : chunk.WellFormed) :
    (rows.foldl .push chunk).WellFormed := by
  exact foldlRecOn (motive := WellFormed) rows _ h fun _ hc row hrow => hc.push (hr row hrow)

theorem ReadsChunks.wellFormed {current : Option UpdateFileChunk}
    (h : ReadsChunks current rows chunks) (hr : ∀ row ∈ rows, '\n' ∉ row)
    (hc : ∀ chunk ∈ current, chunk.WellFormed) : ∀ chunk ∈ chunks, chunk.WellFormed := by
  induction h with
  | nil current => simpa using hc
  | blank _ ih => exact ih (forall_mem_cons.1 hr).2 hc
  | mark _ _ ih =>
    obtain ⟨hrow, hr⟩ := forall_mem_cons.1 hr
    refine forall_mem_append.2 ⟨by simpa using hc, ih hr ?_⟩
    rintro _ ⟨⟩
    exact wellFormed_opened hrow
  | payload _ _ ih =>
    obtain ⟨hrow, hr⟩ := forall_mem_cons.1 hr
    refine ih hr ?_
    rintro _ ⟨⟩
    exact (hc _ rfl).push hrow
  | @close chunk rows chunks _ ih =>
    have hcl : chunk.WellFormed := hc chunk rfl
    refine forall_mem_cons.2 ⟨hcl, ih (forall_mem_cons.1 hr).2 ?_⟩
    rintro _ ⟨⟩

theorem Reads.wellFormed (h : Reads rows hunks) (hr : ∀ row ∈ rows, '\n' ∉ row) :
    ∀ hunk ∈ hunks, hunk.WellFormed := by
  have hn {lead path : Text} (h : '\n' ∉ lead ++ path) (hne : trim path ≠ []) :
      IsName (trim path) :=
    isName_trim hne fun hmem => h (mem_append_right _ hmem)
  have hno : ∀ chunk ∈ (none : Option UpdateFileChunk), chunk.WellFormed := by rintro _ ⟨⟩
  induction h with
  | nil => exact forall_mem_nil _
  | blank _ ih => exact ih (forall_mem_cons.1 hr).2
  | @add path body rows hunks hp _ _ _ ih =>
    obtain ⟨hrow, hr⟩ := forall_mem_cons.1 hr
    refine forall_mem_cons.2 ⟨⟨?_, fun line hl => notMem_of_mem_splitOn hl, ?_⟩,
      ih (forall_mem_append.1 hr).2⟩
    · simpa [names] using hn hrow hp
    · rintro _ ⟨⟩
  | @delete path rows hunks hp _ ih =>
    obtain ⟨hrow, hr⟩ := forall_mem_cons.1 hr
    refine forall_mem_cons.2 ⟨⟨?_, forall_mem_nil _, ?_⟩, ih hr⟩
    · simpa [names] using hn hrow hp
    · rintro _ ⟨⟩
  | update hp hb hne _ _ ih =>
    obtain ⟨hrow, hr⟩ := forall_mem_cons.1 hr
    obtain ⟨hbo, hr⟩ := forall_mem_append.1 hr
    refine forall_mem_cons.2 ⟨wellFormed_update.2 ⟨hn hrow hp, ?_,
      hb.wellFormed hbo hno, fun _ => hne⟩, ih hr⟩
    rintro _ ⟨⟩
  | move hp hd hb _ _ ih =>
    obtain ⟨hrow, hr⟩ := forall_mem_cons.1 hr
    obtain ⟨hm, hr⟩ := forall_mem_cons.1 hr
    obtain ⟨hbo, hr⟩ := forall_mem_append.1 hr
    refine forall_mem_cons.2 ⟨wellFormed_update.2 ⟨hn hrow hp, ?_,
      hb.wellFormed hbo hno, ?_⟩, ih hr⟩
    · rintro _ ⟨⟩
      exact hn hm hd
    · rintro ⟨⟩

variable {α : Type*} {f : α → α} {l : List α}

theorem forall_mem_modifyLast {p : α → Prop} (h : ∀ x ∈ l, p x) (hf : ∀ x, p x → p (f x)) :
    ∀ x ∈ l.modifyLast f, p x := by
  induction l using reverseRecOn with
  | nil => exact h
  | append_singleton l last _ =>
    rw [forall_mem_append, forall_mem_singleton] at h
    rw [modifyLast_concat, forall_mem_append, forall_mem_singleton]
    exact ⟨h.1, hf last h.2⟩

theorem Hunk.WellFormed.absorb (h : hunk.WellFormed) {taken : List Text}
    (ht : ∀ row ∈ taken, '\n' ∉ row) : (hunk.absorb taken).WellFormed := by
  cases hunk with
  | add | delete => exact h
  | update path movePath chunks =>
    obtain ⟨hp, hm, hc, hne⟩ := wellFormed_update.1 h
    refine wellFormed_update.2 ⟨hp, hm,
      forall_mem_modifyLast hc fun chunk hch => hch.foldl_push ht, fun hn => ?_⟩
    obtain ⟨before, chunk, rfl⟩ := (eq_nil_or_concat' chunks).resolve_left (hne hn)
    rw [absorbChunks, modifyLast_concat]
    simp

theorem not_mem_of_mem_patchRows (h : row ∈ patchRows text) : '\n' ∉ row := by
  obtain ⟨line, hl, rfl⟩ := mem_map.1 h
  exact not_mem_dropCr (notMem_of_mem_splitOn hl)

theorem parsePatch_wellFormed (h : parsePatch text = .ok hunks) :
    ∀ hunk ∈ hunks, hunk.WellFormed := by
  obtain ⟨before, first, inner, last, after, hf, read, hr, -, rfl⟩ := parsePatch_eq_ok h
  have hro : ∀ row ∈ before ++ first :: (inner ++ last :: after), '\n' ∉ row := by
    rw [← hf.rows]
    exact fun row => not_mem_of_mem_patchRows
  rw [forall_mem_append, forall_mem_cons, forall_mem_append] at hro
  have ht : ∀ row ∈ pastEnd last after, '\n' ∉ row := by
    unfold pastEnd
    split_ifs
    · exact forall_mem_nil _
    · exact hro.2.2.2
  have hw := hr.wellFormed hro.2.2.1
  unfold foundHunks
  split_ifs
  · exact forall_mem_modifyLast hw fun hunk hh => hh.absorb ht
  · exact hw

/-! ## The round trip -/

theorem map_eq_self_iff : l.map f = l ↔ ∀ x ∈ l, f x = x := by
  have hmap : l.map f = l.map id ↔ ∀ x ∈ l, f x = id x := map_inj_left
  rwa [map_id] at hmap

theorem Hunk.mapLines_eq_self_iff (hunk : Hunk) :
    hunk.mapLines dropCr = hunk ↔ ∀ line ∈ hunk.lines, dropCr line = line := by
  cases hunk with
  | add path contents =>
    rw [mapLines, lines, add.injEq, and_iff_right rfl, ← map_eq_self_iff]
    constructor
    · intro h
      rw [← splitOn_map_dropCr, h]
    · intro h
      rw [h, intercalate_splitOn]
  | delete path => simp [mapLines, lines]
  | update path movePath chunks =>
    rw [mapLines, lines, update.injEq, and_iff_right rfl, and_iff_right rfl,
      map_eq_self_iff, forall_mem_flatMap]
    refine forall₂_congr fun chunk _ => ?_
    rw [forall_mem_append, ← map_eq_self_iff, ← map_eq_self_iff]
    cases chunk
    simp

theorem Hunk.printable_iff (hunk : Hunk) :
    hunk.Printable ↔ hunk.WellFormed ∧ hunk.mapLines dropCr = hunk := by
  rw [mapLines_eq_self_iff]
  constructor
  · intro h
    exact ⟨⟨h.names, fun line hl => (h.lines line hl).1, h.changes⟩,
      fun line hl => dropCr_eq_self_iff.2 (h.lines line hl).2⟩
  · rintro ⟨h, hk⟩
    exact ⟨h.names, fun line hl => ⟨h.lines line hl, dropCr_eq_self_iff.1 (hk line hl)⟩, h.changes⟩

/-- The hunks that come back from their text. -/
theorem parsePatch_printPatch_iff (hl : hunks.length ≤ maxHunks)
    (hs : utf8Len (printPatch hunks) ≤ maxPatchSize) :
    parsePatch (printPatch hunks) = .ok hunks ↔ ∀ hunk ∈ hunks, hunk.Printable := by
  have hw : parsePatch (printPatch hunks) = .ok hunks → ∀ hunk ∈ hunks, hunk.WellFormed :=
    parsePatch_wellFormed
  constructor
  · intro h hunk hh
    have hp := parsePatch_printPatch (hw h) hl hs
    rw [h, Except.ok.injEq, eq_comm, map_eq_self_iff] at hp
    exact hunk.printable_iff.2 ⟨hw h hunk hh, hp hunk hh⟩
  · intro h
    have hpr (hunk : Hunk) (hh : hunk ∈ hunks) := hunk.printable_iff.1 (h hunk hh)
    rw [parsePatch_printPatch (fun hunk hh => (hpr hunk hh).1) hl hs,
      map_eq_self_iff.2 fun hunk hh => (hpr hunk hh).2]

/-- The hunks of an accepted text are what the rows inside the frame say exactly when no chunk takes
rows from the end marker on; and hunks within the limits come back from their text exactly when
their names and lines can stand in rows. -/
theorem parsePatch_reads_rows (text : Text) (hunks : List Hunk) :
    (parsePatch text = .ok hunks →
      ∃ before first inner last after, Framed (patchRows text) before first inner last after ∧
        (Determines inner hunks ↔ ¬ Absorbs inner last after)) ∧
    (hunks.length ≤ maxHunks → utf8Len (printPatch hunks) ≤ maxPatchSize →
      (parsePatch (printPatch hunks) = .ok hunks ↔ ∀ hunk ∈ hunks, hunk.Printable)) :=
  ⟨parsePatch_determined_iff, parsePatch_printPatch_iff⟩

/-- The indented row of the end marker becomes a line of the chunk before it. -/
theorem parsePatch_absorbs_end :
    parsePatch "*** Begin Patch\n*** Update File: a\n@@\n-x\n *** End Patch".toList =
        .ok [.update "a".toList none
          [⟨["x".toList, "*** End Patch".toList], ["*** End Patch".toList], none, false⟩]] ∧
      parsePatch "*** Begin Patch\n*** Update File: a\n@@\n-x\n*** End Patch".toList =
        .ok [.update "a".toList none [⟨["x".toList], [], none, false⟩]] := by
  constructor <;> rfl

/-- What is accepted is within the limit and well formed, and comes back from its own text without
the carriage returns at line ends. -/
theorem parsePatch_accepted (haccepted : parsePatch text = .ok hunks) :
    hunks.length ≤ maxHunks ∧ (∀ hunk ∈ hunks, hunk.WellFormed) ∧
      (utf8Len (printPatch hunks) ≤ maxPatchSize →
        parsePatch (printPatch hunks) = .ok (hunks.map (·.mapLines dropCr))) := by
  have hlimit : hunks.length ≤ maxHunks := by
    obtain ⟨_, _, _, _, _, -, read, -, hread, rfl⟩ := parsePatch_eq_ok haccepted
    rwa [foundHunks_length]
  have hwell := parsePatch_wellFormed haccepted
  exact ⟨hlimit, hwell, parsePatch_printPatch hwell hlimit⟩

theorem parsePatch_accepted_delete :
    parsePatch "*** Begin Patch\n*** Delete File: a\n*** End Patch".toList =
        .ok [.delete "a".toList] ∧ (Hunk.delete "a".toList).WellFormed := by
  have haccepted : parsePatch "*** Begin Patch\n*** Delete File: a\n*** End Patch".toList =
      .ok [.delete "a".toList] := rfl
  exact ⟨haccepted, (parsePatch_accepted haccepted).2.1 _ (mem_singleton_self _)⟩

end Aft.Patch
