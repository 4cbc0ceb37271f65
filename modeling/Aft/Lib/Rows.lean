import Mathlib

/-!
# Rows of a sequence with a row separator

`rows sep l` cuts a sequence after every separator. A row is its content, which never holds a
separator, and whether a separator ended it; only the last row may be open, and an open row is never
empty. The rows of a concatenation are the concatenated rows as soon as the first part ends in a
separator (`rows_append_sep`).
-/

universe u

/-- The content of a row, and whether a separator ended it. -/
structure Row (α : Type u) where
  content : List α
  ended : Bool
deriving DecidableEq, Repr

variable {α : Type u} [DecidableEq α] {sep : α}

def rows (sep : α) : List α → List (Row α)
  | [] => []
  | a :: rest =>
    if a = sep then ⟨[], true⟩ :: rows sep rest
    else match rows sep rest with
      | [] => [⟨[a], false⟩]
      | row :: more => ⟨a :: row.content, row.ended⟩ :: more

/-- The elements a row stands for. -/
def Row.toList (sep : α) (row : Row α) : List α :=
  row.content ++ if row.ended then [sep] else []

@[simp] theorem rows_nil : rows sep [] = [] := rfl

theorem rows_sep_cons (rest : List α) : rows sep (sep :: rest) = ⟨[], true⟩ :: rows sep rest := by
  simp [rows]

theorem rows_eq_nil {l : List α} : rows sep l = [] ↔ l = [] := by
  cases l with
  | nil => simp
  | cons a rest =>
    simp only [rows]
    split_ifs
    · simp
    · cases rows sep rest <;> simp

theorem rows_append_sep (l rest : List α) :
    rows sep (l ++ sep :: rest) = rows sep (l ++ [sep]) ++ rows sep rest := by
  induction l with
  | nil => simp [rows_sep_cons]
  | cons a l ih =>
    simp only [List.cons_append, rows]
    split_ifs
    · rw [ih, List.cons_append]
    · rw [ih]
      cases h : rows sep (l ++ [sep]) with
      | nil => simp [rows_eq_nil] at h
      | cons row more => rfl

/-- A separator-free stretch followed by a separator is one ended row. -/
theorem rows_concat_sep {l : List α} (h : sep ∉ l) : rows sep (l ++ [sep]) = [⟨l, true⟩] := by
  induction l with
  | nil => simp [rows_sep_cons]
  | cons a l ih =>
    rw [List.mem_cons, not_or] at h
    simp [rows, Ne.symm h.1, ih h.2]

/-- A separator-free stretch is one open row, unless it is empty. -/
theorem rows_of_notMem {l : List α} (h : sep ∉ l) (hne : l ≠ []) : rows sep l = [⟨l, false⟩] := by
  induction l with
  | nil => exact absurd rfl hne
  | cons a l ih =>
    rw [List.mem_cons, not_or] at h
    rcases eq_or_ne l [] with rfl | hl
    · simp [rows, Ne.symm h.1]
    · simp [rows, Ne.symm h.1, ih h.2 hl]

/-- The content of a row holds no separator, and is not empty if the row is open. -/
theorem content_of_mem_rows {l : List α} {row : Row α} (h : row ∈ rows sep l) :
    sep ∉ row.content ∧ (row.ended = false → row.content ≠ []) := by
  induction l generalizing row with
  | nil => simp at h
  | cons a l ih =>
    simp only [rows] at h
    split_ifs at h with ha
    · rcases List.mem_cons.1 h with rfl | h
      · simp
      · exact ih h
    · cases hl : rows sep l with
      | nil =>
        rw [hl, List.mem_singleton] at h
        simpa [h] using Ne.symm ha
      | cons first more =>
        rw [hl] at h
        rcases List.mem_cons.1 h with rfl | h
        · simpa [Ne.symm ha] using (ih (hl ▸ List.mem_cons_self)).1
        · exact ih (hl ▸ List.mem_cons_of_mem _ h)

theorem rows_isChain (l : List α) : (rows sep l).IsChain fun row _ => row.ended = true := by
  induction l with
  | nil => exact List.IsChain.nil
  | cons a l ih =>
    simp only [rows]
    split_ifs
    · cases h : rows sep l with
      | nil => exact List.isChain_singleton _
      | cons row more => exact List.isChain_cons_cons.2 ⟨rfl, h ▸ ih⟩
    · cases h : rows sep l with
      | nil => exact List.isChain_singleton _
      | cons row more =>
        rw [h] at ih
        cases more with
        | nil => exact List.isChain_singleton _
        | cons next more => exact List.isChain_cons_cons.2 (List.isChain_cons_cons.1 ih)

theorem flatMap_toList_rows (l : List α) : (rows sep l).flatMap (Row.toList sep) = l := by
  induction l with
  | nil => rfl
  | cons a l ih =>
    simp only [rows]
    split_ifs with ha
    · simp [Row.toList, ih, ha]
    · cases hl : rows sep l with
      | nil => simp [Row.toList, rows_eq_nil.1 hl]
      | cons row more =>
        rw [hl] at ih
        simpa [Row.toList] using ih

theorem List.notMem_of_mem_splitOn {l segment : List α} (h : segment ∈ l.splitOn sep) :
    sep ∉ segment := by
  induction l generalizing segment with
  | nil =>
    rw [splitOn_nil, mem_singleton] at h
    simp [h]
  | cons first l ih =>
    rw [splitOn_cons_eq_if_modifyHead] at h
    split_ifs at h with hf
    · rcases mem_cons.1 h with rfl | h
      · simp
      · exact ih h
    · obtain ⟨head, tail, hs⟩ := exists_cons_of_ne_nil (splitOn_ne_nil sep l)
      rw [hs] at h ih
      rw [modifyHead_cons, mem_cons] at h
      rcases h with rfl | h
      · simpa [Ne.symm (by simpa using hf : first ≠ sep)] using ih mem_cons_self
      · exact ih (mem_cons_of_mem _ h)
