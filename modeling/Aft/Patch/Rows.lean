import Aft.Lib.Result
import Aft.Patch.Parser

/-!
# The rows of a patch

`Reads rows hunks` says how the rows between the markers are read: every row that is not empty is a
file header, a move row, a `@@` row, an End of File row, or one line of one hunk. The validator
accepts exactly these rows (`validateOperations_complete`, `validateOperations_sound`).
-/

namespace Aft.Patch

open Nat List

open Option

/-! ## The grammar -/

def IsAddRow (row : Text) : Prop := row = [] ∨ ['+'] <+: row

/-- A row of a chunk. -/
def IsPayload (row : Text) : Prop := row = [] ∨ ∃ first ∈ [' ', '+', '-'], [first] <+: row

def addContents (rows : List Text) : Text :=
  ['\n'].intercalate (rows.filterMap fun row => ['+'].isPrefixOf? row)

inductive ReadsChunks : Option UpdateFileChunk → List Text → List UpdateFileChunk → Prop
  | nil (current : Option UpdateFileChunk) : ReadsChunks current [] current.toList
  | blank {rows chunks} (hrest : ReadsChunks none rows chunks) :
      ReadsChunks none ([] :: rows) chunks
  | mark {current row rows chunks} (hrow : chunkMark <+: row)
      (hrest : ReadsChunks (some (.opened row)) rows chunks) :
      ReadsChunks current (row :: rows) (current.toList ++ chunks)
  | payload {chunk row rows chunks} (hrow : IsPayload row)
      (hrest : ReadsChunks (some (chunk.push row)) rows chunks) :
      ReadsChunks (some chunk) (row :: rows) chunks
  | close {chunk rows chunks} (hrest : ReadsChunks none rows chunks) :
      ReadsChunks (some chunk) (endOfFile :: rows) ({ chunk with isEndOfFile := true } :: chunks)

/-- Rows that are empty or go on with a marker. -/
def AtMarker (rows : List Text) : Prop := ∀ row ∈ rows.head?, marker <+: row

/-- Rows of file operations. -/
inductive Reads : List Text → List Hunk → Prop
  | nil : Reads [] []
  | blank {rows hunks} (hrest : Reads rows hunks) : Reads ([] :: rows) hunks
  | add {path body rows hunks} (hpath : trim path ≠ []) (hbody : ∀ row ∈ body, IsAddRow row)
      (hnext : AtMarker rows) (hrest : Reads rows hunks) :
      Reads ((addFile ++ path) :: (body ++ rows)) (.add (trim path) (addContents body) :: hunks)
  | delete {path rows hunks} (hpath : trim path ≠ []) (hrest : Reads rows hunks) :
      Reads ((deleteFile ++ path) :: rows) (.delete (trim path) :: hunks)
  | update {path body rows chunks hunks} (hpath : trim path ≠ [])
      (hbody : ReadsChunks none body chunks) (hchunks : chunks ≠ []) (hnext : AtMarker rows)
      (hrest : Reads rows hunks) :
      Reads ((updateFile ++ path) :: (body ++ rows)) (.update (trim path) none chunks :: hunks)
  | move {path destination body rows chunks hunks} (hpath : trim path ≠ [])
      (hdestination : trim destination ≠ []) (hbody : ReadsChunks none body chunks)
      (hnext : AtMarker rows) (hrest : Reads rows hunks) :
      Reads ((updateFile ++ path) :: (moveTo ++ destination) :: (body ++ rows))
        (.update (trim path) (some (trim destination)) chunks :: hunks)

/-! ## Headers -/

variable {lead : Text} {row : Text}

theorem isPrefixOf_iff : lead.isPrefixOf row = true ↔ lead <+: row :=
  isPrefixOf_iff_prefix

section Header

variable {lines rest : List Text} {row path : Text} {i : ℕ}

theorem getElem?_of_drop (h : lines.drop i = row :: rest) :
    lines[i]? = some row ∧ lines[i + 1]? = rest.head? := by
  constructor
  · rw [← add_zero i, ← getElem?_drop, h]
    rfl
  · rw [← getElem?_drop, h, head?_eq_getElem?]
    rfl

theorem getD_of_drop (h : lines.drop i = row :: rest) : lines.getD i [] = row := by
  rw [getD_eq_getElem?_getD, (getElem?_of_drop h).1, getD_some]

theorem parsePatchHeader_add (h : lines.drop i = (addFile ++ path) :: rest) (hp : trim path ≠ []) :
    parsePatchHeader lines i = some ⟨trim path, none, i + 1⟩ := by
  have hpr : addFile.isPrefixOf? (addFile ++ path) = some path := rfl
  simp [parsePatchHeader, (getElem?_of_drop h).1, hpr, hp]

theorem parsePatchHeader_delete (h : lines.drop i = (deleteFile ++ path) :: rest)
    (hp : trim path ≠ []) : parsePatchHeader lines i = some ⟨trim path, none, i + 1⟩ := by
  have hadd : addFile.isPrefixOf? (deleteFile ++ path) = none := rfl
  have hpr : deleteFile.isPrefixOf? (deleteFile ++ path) = some path := rfl
  simp [parsePatchHeader, (getElem?_of_drop h).1, hadd, hpr, hp]

theorem parsePatchHeader_update (h : lines.drop i = (updateFile ++ path) :: rest)
    (hp : trim path ≠ []) :
    parsePatchHeader lines i = some (match rest.head?.bind (moveTo.isPrefixOf? ·) with
      | some destination => ⟨trim path, some (trim destination), i + 2⟩
      | none => ⟨trim path, none, i + 1⟩) := by
  have hadd : addFile.isPrefixOf? (updateFile ++ path) = none := rfl
  have hd : deleteFile.isPrefixOf? (updateFile ++ path) = none := rfl
  have hpr : updateFile.isPrefixOf? (updateFile ++ path) = some path := rfl
  obtain ⟨hrow, hn⟩ := getElem?_of_drop h
  rw [parsePatchHeader, hrow, hn]
  simp only [bind_eq_bind, bind_some, hadd, hd, hpr]
  cases rest.head?.bind (moveTo.isPrefixOf? ·) <;> simp [hp]

theorem parsePatchHeader_eq_some {header : PatchHeader} (hrow : lines.drop i = row :: rest)
    (h : parsePatchHeader lines i = some header) :
    ∃ path, trim path ≠ [] ∧
      (row = addFile ++ path ∨ row = deleteFile ++ path ∨ row = updateFile ++ path) := by
  rw [parsePatchHeader, (getElem?_of_drop hrow).1] at h
  simp only [bind_eq_bind, bind_some] at h
  cases hadd : addFile.isPrefixOf? row with
  | some path =>
    simp only [hadd] at h
    refine ⟨path, fun hem => ?_, .inl (isPrefixOf?_eq_some_iff_append_eq.1 hadd).symm⟩
    simp [hem] at h
  | none =>
    simp only [hadd] at h
    cases hd : deleteFile.isPrefixOf? row with
    | some path =>
      simp only [hd] at h
      refine ⟨path, fun hem => ?_, .inr (.inl (isPrefixOf?_eq_some_iff_append_eq.1 hd).symm)⟩
      simp [hem] at h
    | none =>
      simp only [hd] at h
      cases hu : updateFile.isPrefixOf? row with
      | some path =>
        simp only [hu] at h
        refine ⟨path, fun hem => ?_, .inr (.inr (isPrefixOf?_eq_some_iff_append_eq.1 hu).symm)⟩
        split at h <;> simp [hem] at h
      | none =>
        simp only [hu] at h
        cases h

end Header

/-! ## The validator -/

theorem IsAddRow.not_marker (h : IsAddRow row) : marker.isPrefixOf row = false := by
  rcases h with rfl | ⟨added, rfl⟩ <;> rfl

theorem IsPayload.not_mark (h : IsPayload row) :
    marker.isPrefixOf row = false ∧ chunkMark.isPrefixOf row = false := by
  rcases h with rfl | ⟨first, hf, rest, rfl⟩
  · exact ⟨rfl, rfl⟩
  · fin_cases hf <;> exact ⟨rfl, rfl⟩

theorem isPayload_iff :
    IsPayload row ↔ row.isEmpty = true ∨ row.head?.any (· ∈ [' ', '+', '-']) = true := by
  unfold IsPayload
  cases row with
  | nil | cons => simp

theorem marker_endOfFile : marker.isPrefixOf endOfFile = true := rfl

theorem not_marker_of_chunkMark (h : chunkMark <+: row) : marker.isPrefixOf row = false := by
  obtain ⟨rest, rfl⟩ := h
  rfl

variable {rows : List Text} {body : List Text}

theorem validateAdd_complete (hb : ∀ row ∈ body, IsAddRow row) (hn : AtMarker rows) (i : ℕ) :
    validateAdd (body ++ rows) i = .ok (i + body.length) := by
  induction body generalizing i with
  | nil =>
    cases rows with
    | nil => rfl
    | cons row rows =>
      rw [List.nil_append, validateAdd, if_pos (isPrefixOf_iff.2 (hn row rfl))]
      rfl
  | cons row body ih =>
    have hrow := hb row List.mem_cons_self
    have hadd : (row.isEmpty || ['+'].isPrefixOf row) = true := by
      rw [Bool.or_eq_true, List.isEmpty_iff, isPrefixOf_iff]
      exact hrow
    rw [List.cons_append, validateAdd, if_neg (by rw [hrow.not_marker]; decide), if_pos hadd,
      ih (fun other ho => hb other (List.mem_cons_of_mem _ ho)), List.length_cons,
      add_assoc, add_comm 1]

variable {next : ℕ} {i : ℕ}

theorem validateAdd_sound (h : validateAdd rows i = .ok next) :
    ∃ body rest, rows = body ++ rest ∧ next = i + body.length ∧ (∀ row ∈ body, IsAddRow row) ∧
      AtMarker rest := by
  induction rows generalizing i with
  | nil => exact ⟨[], [], rfl, (Except.ok.inj h).symm, by simp, by simp [AtMarker]⟩
  | cons row rows ih =>
    rw [validateAdd] at h
    split_ifs at h with hm hadd
    · refine ⟨[], row :: rows, rfl, (Except.ok.inj h).symm, by simp, ?_⟩
      rintro _ ⟨⟩
      exact isPrefixOf_iff.1 hm
    · rw [Bool.or_eq_true, List.isEmpty_iff, isPrefixOf_iff] at hadd
      obtain ⟨body, rest, rfl, rfl, hb, hr⟩ := ih h
      refine ⟨row :: body, rest, rfl, by rw [List.length_cons]; omega, ?_, hr⟩
      exact List.forall_mem_cons.2 ⟨hadd, hb⟩

section UpdateRows

variable {row : Text} {rest : List Text} {i : ℕ} {inChunk sawChunk : Bool}

theorem validateUpdate_blank :
    validateUpdate ([] :: rest) i inChunk sawChunk = validateUpdate rest (i + 1) inChunk sawChunk := by
  have hne : ([] : Text) ≠ endOfFile := by decide
  rw [validateUpdate, if_neg fun h => hne h.1, if_neg (by decide), if_neg (by decide),
    if_pos (by rfl)]

theorem validateUpdate_mark (hrow : chunkMark <+: row) :
    validateUpdate (row :: rest) i inChunk sawChunk = validateUpdate rest (i + 1) true true := by
  have hm := not_marker_of_chunkMark hrow
  have hne : row ≠ endOfFile := by
    rintro rfl
    cases hm.symm.trans marker_endOfFile
  rw [validateUpdate, if_neg fun h => hne h.1, if_neg (by rw [hm]; decide),
    if_pos (isPrefixOf_iff.2 hrow)]

theorem validateUpdate_payload (hrow : IsPayload row) :
    validateUpdate (row :: rest) i true sawChunk = validateUpdate rest (i + 1) true sawChunk := by
  obtain ⟨hm, hma⟩ := hrow.not_mark
  rw [validateUpdate, if_neg (by
      rintro ⟨rfl, -⟩
      cases hm.symm.trans marker_endOfFile),
    if_neg (by rw [hm]; decide), if_neg (by rw [hma]; decide)]
  rcases isPayload_iff.1 hrow with hem | hf
  · rw [if_pos hem]
  · rw [if_pos hf]
    simp

end UpdateRows

variable {chunks : List UpdateFileChunk}

theorem ReadsChunks.ne_nil {chunk : UpdateFileChunk} (h : ReadsChunks (some chunk) rows chunks) :
    chunks ≠ [] := by
  generalize hc : some chunk = current at h
  induction h generalizing chunk with
  | nil current => simp [← hc]
  | blank => cases hc
  | mark _ _ _ => simp [← hc]
  | payload _ _ ih => exact ih rfl
  | close _ _ => simp

theorem validateUpdate_complete {current : Option UpdateFileChunk}
    (hb : ReadsChunks current body chunks) (hn : AtMarker rows)
    (ho : ∀ row ∈ rows.head?, row ≠ endOfFile) (i : ℕ) {sawChunk : Bool}
    (hsaw : current.isSome = true → sawChunk = true) :
    validateUpdate (body ++ rows) i current.isSome sawChunk =
      .ok (sawChunk || !chunks.isEmpty, i + body.length) := by
  induction hb generalizing i sawChunk with
  | nil current =>
    have hem : sawChunk = (sawChunk || !current.toList.isEmpty) := by
      cases current <;> simp_all
    cases rows with
    | nil => rw [← hem]; rfl
    | cons row rows =>
      rw [nil_append, validateUpdate, if_neg fun h => ho row rfl h.1,
        if_pos (isPrefixOf_iff.2 (hn row rfl)), ← hem]
      rfl
  | blank _ ih =>
    rw [cons_append, validateUpdate_blank, ih (i + 1) hsaw, length_cons, add_right_comm, add_assoc]
  | @mark current row rows' chunks hrow hr ih =>
    have hne := hr.ne_nil
    have hs := @ih (i + 1) true fun _ => rfl
    rw [isSome_some] at hs
    rw [cons_append, validateUpdate_mark hrow, hs, add_right_comm, add_assoc]
    simp [hne]
  | payload hrow _ ih =>
    have hs := ih (i + 1) hsaw
    rw [isSome_some] at hs ⊢
    rw [cons_append, validateUpdate_payload hrow, hs, length_cons, add_right_comm, add_assoc]
  | close _ ih =>
    have hno := @ih (i + 1) sawChunk nofun
    rw [isSome_none] at hno
    rw [isSome_some, cons_append, validateUpdate, if_pos ⟨rfl, rfl⟩, hno, add_right_comm, hsaw rfl]
    rfl

theorem validateUpdate_complete_none (hb : ReadsChunks none body chunks) (hn : AtMarker rows)
    (ho : ∀ row ∈ rows.head?, row ≠ endOfFile) (i : ℕ) :
    validateUpdate (body ++ rows) i false false = .ok (!chunks.isEmpty, i + body.length) := by
  simpa using validateUpdate_complete hb hn ho i (nofun : _ → false = true)

theorem ReadsChunks.head_not_move (h : ReadsChunks none body chunks) (hc : chunks ≠ [])
    (rest : List Text) : ∀ row ∈ (body ++ rest).head?, ¬ moveTo <+: row := by
  cases h with
  | nil => exact absurd rfl hc
  | blank =>
    rintro _ ⟨⟩ ⟨destination, hrow⟩
    cases hrow
  | mark hm =>
    rintro _ ⟨⟩ ⟨destination, rfl⟩
    obtain ⟨rest, hrow⟩ := hm
    cases hrow

theorem validateUpdate_sound {sawChunk sawChunk' : Bool} (current : Option UpdateFileChunk)
    (hsaw : current.isSome = true → sawChunk = true)
    (h : validateUpdate rows i current.isSome sawChunk = .ok (sawChunk', next)) :
    ∃ body rest chunks, rows = body ++ rest ∧ next = i + body.length ∧
      ReadsChunks current body chunks ∧ AtMarker rest ∧ sawChunk' = (sawChunk || !chunks.isEmpty) := by
  induction rows generalizing i sawChunk current with
  | nil =>
    cases h
    refine ⟨[], [], current.toList, rfl, rfl, .nil current, by simp [AtMarker], ?_⟩
    cases current <;> simp_all
  | cons row rows ih =>
    rw [validateUpdate] at h
    split_ifs at h with hc hm hma hem hin hf
    · obtain ⟨rfl, hs⟩ := hc
      obtain ⟨chunk, rfl⟩ := isSome_iff_exists.1 hs
      obtain ⟨body, rest, chunks, rfl, rfl, hb, hr, rfl⟩ := ih none nofun h
      refine ⟨_ :: body, rest, _, rfl, by rw [length_cons]; omega, .close hb, hr, ?_⟩
      rw [hsaw rfl]
      rfl
    · cases h
      refine ⟨[], row :: rows, current.toList, rfl, rfl, .nil current, ?_, ?_⟩
      · rintro _ ⟨⟩
        exact isPrefixOf_iff.1 hm
      · cases current <;> simp_all
    · obtain ⟨body, rest, chunks, rfl, rfl, hb, hr, rfl⟩ :=
        ih (some (.opened row)) (fun _ => rfl) h
      refine ⟨_ :: body, rest, _, rfl, by rw [length_cons]; omega,
        .mark (isPrefixOf_iff.1 hma) hb, hr, ?_⟩
      simp [hb.ne_nil]
    · obtain rfl := isEmpty_iff.1 hem
      cases current with
      | none =>
        obtain ⟨body, rest, chunks, rfl, rfl, hb, hr, rfl⟩ := ih none hsaw h
        exact ⟨_ :: body, rest, _, rfl, by rw [length_cons]; omega, .blank hb, hr, rfl⟩
      | some chunk =>
        obtain ⟨body, rest, chunks, rfl, rfl, hb, hr, rfl⟩ := ih (some (chunk.push [])) hsaw h
        exact ⟨_ :: body, rest, _, rfl, by rw [length_cons]; omega, .payload (.inl rfl) hb, hr, rfl⟩
    · simp only [Bool.not_eq_true, Bool.not_eq_false'] at hin
      obtain ⟨chunk, rfl⟩ := isSome_iff_exists.1 hin
      obtain ⟨body, rest, chunks, rfl, rfl, hb, hr, rfl⟩ := ih (some (chunk.push row)) hsaw h
      exact ⟨_ :: body, rest, _, rfl, by rw [length_cons]; omega,
        .payload (isPayload_iff.2 (.inr hf)) hb, hr, rfl⟩

/-! ## Operations -/

variable {lines : List Text} {rest : List Text}

theorem drop_succ_of_drop (h : lines.drop i = row :: rest) : lines.drop (i + 1) = rest := by
  rw [← drop_drop, h, drop_one, tail_cons]

theorem drop_add_of_drop (h : lines.drop i = body ++ rest) :
    lines.drop (i + body.length) = rest := by
  rw [← drop_drop, h, drop_left]

variable {tail : List Text}

theorem slice_of_drop (h : lines.drop i = rows ++ tail) :
    slice lines i (i + rows.length) = rows := by
  rw [slice, h, Nat.add_sub_cancel_left, take_left]

variable {hunks : List Hunk}

/-- The rows at which an operation can stop. -/
theorem Reads.head_ne_endOfFile (h : Reads rows hunks) : ∀ row ∈ rows.head?, row ≠ endOfFile := by
  cases h <;> rintro _ ⟨⟩ heq <;> cases heq

section Operation

variable {lines body rows tail : List Text} {row path : Text} {i stop rounds : ℕ}

/-- A row that is not blank starts one operation. -/
theorem validateOperations_step (hrow : lines.drop i = row :: rows) (hne : row ≠ [])
    (hs : i < stop) :
    validateOperations lines stop (rounds + 1) i =
      validateOperation lines i stop >>= validateOperations lines stop rounds := by
  rw [validateOperations, if_neg (by omega), getD_of_drop hrow, if_neg (by simpa using hne)]

theorem head_bind_moveTo (h : ∀ row ∈ rows.head?, ¬ moveTo <+: row) :
    rows.head?.bind (moveTo.isPrefixOf? ·) = none := by
  rw [bind_eq_none_iff]
  intro row hh
  rw [← not_isSome_iff_eq_none, isSome_iff_exists]
  rintro ⟨destination, hd⟩
  exact h row hh ⟨destination, isPrefixOf?_eq_some_iff_append_eq.1 hd⟩

variable {destination : Text}

section

variable (hp : trim path ≠ [])
include hp

theorem validateOperation_add (hl : lines.drop i = (addFile ++ path) :: (body ++ tail)) :
    validateOperation lines i (i + 1 + body.length) = validateAdd body (i + 1) := by
  have hr := drop_succ_of_drop hl
  rw [validateOperation, parsePatchHeader_add hl hp, getD_of_drop hl]
  simp only [reduceCtorEq, slice_of_drop hr]
  rfl

theorem validateOperation_delete (hl : lines.drop i = (deleteFile ++ path) :: rows) :
    validateOperation lines i stop = .ok (i + 1) := by
  rw [validateOperation, parsePatchHeader_delete hl hp, getD_of_drop hl]
  rfl

theorem validateOperation_update (hl : lines.drop i = (updateFile ++ path) :: (body ++ tail))
    (hm : ∀ row ∈ (body ++ tail).head?, ¬ moveTo <+: row) :
    validateOperation lines i (i + 1 + body.length) =
      validateUpdate body (i + 1) false false >>= fun seen =>
        if seen.1 then .ok seen.2
        else .error (invalidPatchLine i "update operation requires an @@ hunk") := by
  have hr := drop_succ_of_drop hl
  rw [validateOperation, parsePatchHeader_update hl hp, getD_of_drop hl,
    head_bind_moveTo hm]
  simp only [slice_of_drop hr]
  cases validateUpdate body (i + 1) false false with
  | error message => rfl
  | ok seen =>
    obtain ⟨_ | _, next⟩ := seen <;> rfl

theorem validateOperation_move (hd : trim destination ≠ [])
    (hl : lines.drop i = (updateFile ++ path) :: (moveTo ++ destination) :: (body ++ tail)) :
    validateOperation lines i (i + 2 + body.length) =
      validateUpdate body (i + 2) false false >>= fun seen => .ok seen.2 := by
  have hr := drop_succ_of_drop (drop_succ_of_drop hl)
  have hm : moveTo.isPrefixOf? (moveTo ++ destination) = some destination := rfl
  rw [validateOperation, parsePatchHeader_update hl hp, getD_of_drop hl]
  simp only [head?_cons, bind_some, hm, some.injEq, hd]
  rw [slice_of_drop hr]
  cases validateUpdate body (i + 2) false false with
  | error message => rfl
  | ok seen =>
    obtain ⟨_ | _, next⟩ := seen <;> rfl

theorem validateOperation_move_empty (hd : trim destination = [])
    (hl : lines.drop i = (updateFile ++ path) :: (moveTo ++ destination) :: rows) :
    validateOperation lines i stop =
      .error (invalidPatchLine (i + 1) "move destination must not be empty") := by
  have hm : moveTo.isPrefixOf? (moveTo ++ destination) = some destination := rfl
  rw [validateOperation, parsePatchHeader_update hl hp]
  simp only [head?_cons, bind_some, hm, hd]
  rfl

end

end Operation

/-- An accepted operation, and what is accepted after it. -/
theorem validateOperations_resume {consumed : List Text} {rounds : ℕ}
    (hl : lines.drop i = row :: consumed ++ rows ++ tail) (hne : row ≠ [])
    (ho : validateOperation lines i (i + (row :: consumed ++ rows).length) =
      .ok (i + (row :: consumed).length)) (hr : (row :: consumed ++ rows).length ≤ rounds)
    (hre : ∀ {i rounds : ℕ}, lines.drop i = rows ++ tail → rows.length ≤ rounds →
      validateOperations lines (i + rows.length) rounds i = .ok ()) :
    validateOperations lines (i + (row :: consumed ++ rows).length) rounds i = .ok () := by
  rw [length_append, length_cons] at hr
  obtain ⟨rounds, rfl⟩ : ∃ k, rounds = k + 1 := ⟨rounds - 1, by omega⟩
  have hs : i < i + (row :: consumed ++ rows).length := by
    rw [length_append, length_cons]
    omega
  rw [validateOperations_step hl hne hs, ho, length_append, ← add_assoc]
  rw [append_assoc] at hl
  exact hre (drop_add_of_drop hl) (by omega)

theorem validateOperations_complete (h : Reads rows hunks) {rounds : ℕ}
    (hl : lines.drop i = rows ++ tail) (hr : rows.length ≤ rounds) :
    validateOperations lines (i + rows.length) rounds i = .ok () := by
  induction h generalizing i rounds with
  | nil => cases rounds <;> simp [validateOperations]
  | @blank rows hunks hre ih =>
    rw [length_cons] at hr ⊢
    obtain ⟨rounds, rfl⟩ : ∃ k, rounds = k + 1 := ⟨rounds - 1, by omega⟩
    have hih := ih (drop_succ_of_drop hl) (by omega : rows.length ≤ rounds)
    rw [validateOperations, if_neg (by omega), getD_of_drop hl, ← add_assoc, add_right_comm]
    exact hih
  | @add path body rows hunks hp hb hn hre ih =>
    refine validateOperations_resume hl nofun ?_ hr ih
    have ho := validateOperation_add hp hl
    rw [validateAdd_complete hb hn] at ho
    simpa [add_comm, add_left_comm] using ho
  | @delete path rows hunks hp hre ih =>
    have hl' : lines.drop i = (deleteFile ++ path) :: [] ++ rows ++ tail := hl
    exact validateOperations_resume hl' nofun (validateOperation_delete hp hl) hr ih
  | @update path body rows chunks hunks hp hb hc hn hre ih =>
    refine validateOperations_resume hl nofun ?_ hr ih
    have hm : ∀ row ∈ (body ++ rows ++ tail).head?, ¬ moveTo <+: row := by
      rw [append_assoc]
      exact hb.head_not_move hc _
    have ho := validateOperation_update hp hl hm
    rw [validateUpdate_complete_none hb hn hre.head_ne_endOfFile] at ho
    simpa [hc, add_comm, add_left_comm, bind, Except.bind] using ho
  | @move path destination body rows chunks hunks hp hd hb hn hre ih =>
    have hl' : lines.drop i = (updateFile ++ path) :: ((moveTo ++ destination) :: body) ++ rows ++
        tail := hl
    refine validateOperations_resume hl' nofun ?_ hr ih
    have ho := validateOperation_move hp hd hl
    rw [validateUpdate_complete_none hb hn hre.head_ne_endOfFile] at ho
    simpa [add_comm, add_left_comm, bind, Except.bind] using ho

theorem header_of_validateOperation {stop : ℕ} (hrow : lines.drop i = row :: rest)
    (h : validateOperation lines i stop = .ok next) :
    ∃ path, trim path ≠ [] ∧
      (row = addFile ++ path ∨ row = deleteFile ++ path ∨ row = updateFile ++ path) := by
  cases hh : parsePatchHeader lines i with
  | some header => exact parsePatchHeader_eq_some hrow hh
  | none =>
    rw [validateOperation, hh] at h
    cases h

/-- The rows of an accepted operation, with the hunk that they are read as. -/
theorem validateOperation_sound (hl : lines.drop i = row :: rest ++ tail)
    (ht : ∀ row ∈ tail.head?, ¬ moveTo <+: row)
    (h : validateOperation lines i (i + (row :: rest).length) = .ok next) :
    ∃ consumed rows hunk, row :: rest = row :: consumed ++ rows ∧
      next = i + (row :: consumed).length ∧
      ∀ hunks, Reads rows hunks → Reads (row :: rest) (hunk :: hunks) := by
  have hs : i + (row :: rest).length = i + 1 + rest.length := by
    rw [length_cons]
    omega
  rw [hs] at h
  obtain ⟨path, hp, rfl | rfl | rfl⟩ := header_of_validateOperation hl h
  · rw [validateOperation_add hp hl] at h
    obtain ⟨body, rows, rfl, rfl, hb, hn⟩ := validateAdd_sound h
    exact ⟨body, rows, _, rfl, by rw [length_cons]; omega, fun hunks hr =>
      .add hp hb hn hr⟩
  · rw [validateOperation_delete hp hl] at h
    cases h
    exact ⟨[], rest, _, rfl, rfl, fun hunks hr => .delete hp hr⟩
  · by_cases hm : ∀ row ∈ (rest ++ tail).head?, ¬ moveTo <+: row
    · rw [validateOperation_update hp hl hm] at h
      obtain ⟨⟨sawChunk, stop⟩, hv, h⟩ := Except.bind_eq_ok_iff.1 h
      obtain ⟨body, rows, chunks, rfl, rfl, hb, hn, rfl⟩ :=
        validateUpdate_sound none nofun hv
      split_ifs at h with hc
      cases h
      refine ⟨body, rows, _, rfl, by rw [length_cons]; omega, fun hunks hr =>
        .update hp hb (by simpa using hc) hn hr⟩
    · simp only [not_forall, not_not] at hm
      obtain ⟨row, hh, hrow⟩ := hm
      cases rest with
      | nil => exact absurd hrow (ht row hh)
      | cons first rest =>
        cases hh
        obtain ⟨destination, rfl⟩ := hrow
        by_cases hd : trim destination = []
        · rw [validateOperation_move_empty hp hd hl] at h
          cases h
        · have htwo : i + 1 + ((moveTo ++ destination) :: rest).length = i + 2 + rest.length := by
            rw [length_cons]
            omega
          rw [htwo, validateOperation_move hp hd hl] at h
          obtain ⟨⟨sawChunk, stop⟩, hv, h⟩ := Except.bind_eq_ok_iff.1 h
          obtain ⟨body, rows, chunks, rfl, rfl, hb, hn, -⟩ :=
            validateUpdate_sound none nofun hv
          cases h
          refine ⟨(moveTo ++ destination) :: body, rows, _, rfl, ?_, fun hunks hr =>
            .move hp hd hb hn hr⟩
          rw [length_cons, length_cons]
          omega

theorem validateOperations_sound {rounds : ℕ} (hl : lines.drop i = rows ++ tail)
    (ht : ∀ row ∈ tail.head?, ¬ moveTo <+: row) (hr : rows.length ≤ rounds)
    (h : validateOperations lines (i + rows.length) rounds i = .ok ()) :
    ∃ hunks, Reads rows hunks := by
  induction rounds generalizing i rows with
  | zero =>
    obtain rfl := eq_nil_of_length_eq_zero (le_zero.1 hr)
    exact ⟨[], .nil⟩
  | succ rounds ih =>
    cases rows with
    | nil => exact ⟨[], .nil⟩
    | cons row rest =>
      rw [length_cons] at hr
      by_cases hb : row = []
      · subst hb
        rw [validateOperations, if_neg (by rw [length_cons]; omega), getD_of_drop hl,
          length_cons, ← add_assoc, add_right_comm] at h
        obtain ⟨hunks, hre⟩ := ih (drop_succ_of_drop hl) (by omega) h
        exact ⟨hunks, .blank hre⟩
      · rw [validateOperations_step hl hb (by rw [length_cons]; omega)] at h
        obtain ⟨next, ho, h⟩ := Except.bind_eq_ok_iff.1 h
        obtain ⟨consumed, rows, hunk, heq, rfl, hrea⟩ :=
          validateOperation_sound hl ht ho
        rw [heq, append_assoc] at hl
        rw [heq, length_append, ← add_assoc] at h
        have hle := congrArg length heq
        simp only [length_cons, length_append] at hle
        obtain ⟨hunks, hre⟩ := ih (drop_add_of_drop hl) (by omega) h
        exact ⟨hunk :: hunks, hrea hunks hre⟩

end Aft.Patch
