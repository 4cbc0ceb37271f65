import Aft.Lib.Json
import Aft.Lib.Result

/-!
# Batches of edits

Every edit of a batch is resolved to a byte range of the text as it was read. The ranges are sorted
from the end of the text, only neighbours are compared for an overlap, and the output is built in
one pass the other way. An accepted batch is a simultaneous substitution
(`buildBatchOutput_eq_foldlM`); the order of the request decides only between ranges that start at
one offset (`handleBatch_perm`).
-/

namespace Aft.Edit

open List Option

abbrev Text := List Char

inductive Failure
  | refused (code message : String)
  | panic
deriving DecidableEq

structure ResolvedEdit where
  byteStart : ℕ
  byteEnd : ℕ
  replacement : Text
deriving DecidableEq

/-! ## The code -/

/-- The two parts of a text around a byte offset, if the offset is a character boundary. -/
def splitAt? (offset : ℕ) : Text → Option (Text × Text)
  | [] => if offset = 0 then some ([], []) else none
  | c :: text =>
    if offset = 0 then some ([], c :: text)
    else if offset < c.utf8Size then none
    else (splitAt? (offset - c.utf8Size) text).map (Prod.map (c :: ·) id)

section

variable (source : Text)

/-- `source[start..stop]`. -/
def slice (start stop : ℕ) : Except Failure Text :=
  match (splitAt? stop source).bind fun parts => splitAt? start parts.1 with
  | some parts => .ok parts.2
  | none => .error .panic

def validateByteRange (start stop : ℕ) : Except Failure Unit :=
  let invalid problem := .error (.refused "invalid_request"
    s!"invalid request: invalid byte range [{start}..{stop}): {problem}")
  if stop < start then invalid "start must be <= end"
  else if byteLength source < stop then
    invalid s!"end exceeds source length {byteLength source}"
  else if (splitAt? start source).isNone then invalid "start is not a char boundary"
  else if (splitAt? stop source).isNone then invalid "end is not a char boundary"
  else .ok ()

def replaceByteRange (start stop : ℕ) (replacement : Text) : Except Failure Text := do
  validateByteRange source start stop
  return (← slice source 0 start) ++ replacement ++ (← slice source stop (byteLength source))

def validateEdit (edit : ResolvedEdit) : Except Failure Unit :=
  validateByteRange source edit.byteStart edit.byteEnd

/-- One round of the output loop; the state is the output and the cursor. -/
def pushEdit (state : Text × ℕ) (edit : ResolvedEdit) : Except Failure (Text × ℕ) := do
  return (state.1 ++ (← slice source state.2 edit.byteStart) ++ edit.replacement, edit.byteEnd)

def buildBatchOutput (resolved : List ResolvedEdit) : Except Failure Text := do
  resolved.forM (validateEdit source)
  let state ← resolved.reverse.foldlM (pushEdit source) ([], 0)
  return state.1 ++ (← slice source state.2 (byteLength source))

def replaceEdit (edit : ResolvedEdit) : Except Failure Text :=
  replaceByteRange source edit.byteStart edit.byteEnd edit.replacement

end

def sortEdits (resolved : List ResolvedEdit) : List ResolvedEdit :=
  resolved.insertionSort fun a b => b.byteStart ≤ a.byteStart

def checkOverlaps : List ResolvedEdit → Except Failure Unit
  | higher :: lower :: rest =>
    if higher.byteStart < lower.byteEnd then
      .error (.refused "overlapping_edits" (s!"batch: edits overlap — edit at bytes " ++
        s!"[{lower.byteStart}..{lower.byteEnd}) overlaps with edit at bytes " ++
        s!"[{higher.byteStart}..{higher.byteEnd})"))
    else checkOverlaps (lower :: rest)
  | _ => .ok ()

/-- `out` is `text` with the range of every edit replaced; the edits go from its end to its
start. -/
inductive Substitutes : Text → List ResolvedEdit → Text → Prop
  | nil {text} : Substitutes text [] text
  | cons {before old after edit edits out} (hrest : Substitutes before edits out)
      (hstart : byteLength before = edit.byteStart)
      (hstop : byteLength (before ++ old) = edit.byteEnd) :
      Substitutes (before ++ old ++ after) (edit :: edits) (out ++ edit.replacement ++ after)

/-- The ranges of edits that go from the end of the text to its start. -/
def Apart (edits : List ResolvedEdit) : Prop :=
  edits.Pairwise fun higher lower => lower.byteEnd ≤ higher.byteStart

/-! ## Byte ranges of a text -/

variable {before old after text source out : Text} {start stop offset : ℕ}
  {edit : ResolvedEdit} {edits : List ResolvedEdit}

@[simp] theorem splitAt?_byteLength (before after : Text) :
    splitAt? (byteLength before) (before ++ after) = some (before, after) := by
  induction before with
  | nil => cases after <;> simp [splitAt?]
  | cons c before ih =>
    have hc := c.utf8Size_pos
    have hne : c.utf8Size + byteLength before ≠ 0 := by omega
    simp only [cons_append, byteLength_cons, splitAt?, hne]
    simp [ih]

theorem splitAt?_eq_some (h : splitAt? offset text = some (before, after)) :
    text = before ++ after ∧ byteLength before = offset := by
  induction text generalizing offset before after with
  | nil => simp_all [splitAt?]
  | cons c text ih =>
    simp only [splitAt?] at h
    split_ifs at h with h0 hlt
    · cases h
      exact ⟨rfl, h0.symm⟩
    · obtain ⟨⟨a, b⟩, hab, heq⟩ := map_eq_some_iff.1 h
      obtain ⟨rfl, ha⟩ := ih hab
      cases heq
      exact ⟨rfl, by rw [byteLength_cons]; omega⟩

/-- What follows a text does not move its boundaries. -/
theorem splitAt?_append (after : Text) (h : offset ≤ byteLength text) :
    (splitAt? offset (text ++ after)).isNone = (splitAt? offset text).isNone := by
  induction text generalizing offset with
  | nil =>
    obtain rfl : offset = 0 := by simpa using h
    cases after <;> simp [splitAt?]
  | cons c text ih =>
    simp only [cons_append, splitAt?]
    split_ifs with h0 hlt
    · rfl
    · rfl
    · rw [isNone_map, isNone_map, ih (by rw [byteLength_cons] at h; omega)]

theorem slice_eq (before part after : Text) :
    slice (before ++ part ++ after) (byteLength before) (byteLength (before ++ part)) =
      .ok part := by
  simp only [slice, splitAt?_byteLength, bind_some]

theorem validateByteRange_append (h : after = [] ∨ stop ≤ byteLength text) :
    validateByteRange (text ++ after) start stop = validateByteRange text start stop := by
  rcases h with rfl | h
  · rw [append_nil]
  by_cases hlt : stop < start
  · simp [validateByteRange, hlt]
  · have hlong : ¬ byteLength text + byteLength after < stop := by omega
    simp [validateByteRange, hlong, Nat.not_lt.2 h, splitAt?_append after h,
      splitAt?_append after ((Nat.not_lt.1 hlt).trans h)]

/-- A valid range cuts its text in three; an invalid one is refused, never a panic. -/
theorem validateByteRange_cases (text : Text) (start stop : ℕ) :
    (∃ code message, validateByteRange text start stop = .error (.refused code message)) ∨
      validateByteRange text start stop = .ok () ∧ ∃ before old after,
        text = before ++ old ++ after ∧ byteLength before = start ∧
          byteLength (before ++ old) = stop := by
  unfold validateByteRange
  split_ifs with hlt hlong hstart hstop
  case neg =>
    obtain ⟨⟨before, rest⟩, hb⟩ := ne_none_iff_exists'.1 (isNone_iff_eq_none.not.1 hstart)
    obtain ⟨⟨upto, after⟩, hu⟩ := ne_none_iff_exists'.1 (isNone_iff_eq_none.not.1 hstop)
    obtain ⟨htext, rfl⟩ := splitAt?_eq_some hb
    obtain ⟨htext', rfl⟩ := splitAt?_eq_some hu
    refine .inr ⟨rfl, ?_⟩
    rcases append_eq_append_iff.1 (htext.symm.trans htext') with ⟨old, rfl, -⟩ | ⟨old, rfl, rfl⟩
    · exact ⟨before, old, after, htext', rfl, rfl⟩
    · -- The later boundary is not before the earlier one, so nothing lies between them.
      cases old with
      | nil => exact ⟨upto, [], rest, by simpa using htext', by simp, by simp⟩
      | cons c old =>
        have hc := c.utf8Size_pos
        simp only [byteLength_append, byteLength_cons] at hlt
        omega
  all_goals exact .inl ⟨_, _, rfl⟩

theorem replaceByteRange_eq (replacement : Text)
    (hv : validateByteRange (before ++ old ++ after) (byteLength before)
      (byteLength (before ++ old)) = .ok ()) :
    replaceByteRange (before ++ old ++ after) (byteLength before) (byteLength (before ++ old))
      replacement = .ok (before ++ replacement ++ after) := by
  have hleft := slice_eq [] before (old ++ after)
  have hright := slice_eq (before ++ old) after []
  simp only [nil_append, byteLength_nil, append_nil, ← append_assoc] at hleft hright
  simp only [replaceByteRange, hv, hleft, hright]
  rfl

/-! ## The output of a batch -/

theorem Substitutes.foldlM_pushEdit (h : Substitutes text edits out) (tail : Text) :
    ∃ state part, edits.reverse.foldlM (pushEdit (text ++ tail)) ([], 0) = .ok state ∧
      slice (text ++ tail) state.2 (byteLength text) = .ok part ∧ state.1 ++ part = out := by
  induction h generalizing tail with
  | @nil text => exact ⟨([], 0), text, rfl, slice_eq [] text tail, rfl⟩
  | @cons before old after edit edits out hrest hstart hstop ih =>
    obtain ⟨state, part, hfold, hslice, rfl⟩ := ih (old ++ after ++ tail)
    simp only [← append_assoc] at hfold hslice
    refine ⟨(state.1 ++ part ++ edit.replacement, edit.byteEnd), after, ?_, ?_, rfl⟩
    · have hpush : pushEdit (before ++ old ++ after ++ tail) state edit =
          .ok (state.1 ++ part ++ edit.replacement, edit.byteEnd) := by
        rw [pushEdit, ← hstart, hslice]
        rfl
      rw [reverse_cons, foldlM_append, hfold]
      exact (bind_pure _).trans hpush
    · rw [← hstop]
      exact slice_eq (before ++ old) after tail

/-- Replacing range by range, from the end, checks the ranges as they stand in the whole text. -/
theorem Apart.foldlM_replaceEdit (hp : Apart edits) (text tail : Text)
    (ht : tail = [] ∨ ∀ edit ∈ edits, edit.byteEnd ≤ byteLength text) :
    (∃ code message, edits.forM (validateEdit text) = .error (.refused code message) ∧
        edits.foldlM replaceEdit (text ++ tail) = .error (.refused code message)) ∨
      edits.forM (validateEdit text) = .ok () ∧ ∃ out, Substitutes text edits out ∧
        edits.foldlM replaceEdit (text ++ tail) = .ok (out ++ tail) := by
  induction edits generalizing text tail with
  | nil => exact .inr ⟨rfl, text, .nil, rfl⟩
  | cons edit edits ih =>
    obtain ⟨hedit, hp⟩ := pairwise_cons.1 hp
    have hsame : validateEdit (text ++ tail) edit = validateEdit text edit :=
      validateByteRange_append (ht.imp_right fun h => h edit mem_cons_self)
    rcases validateByteRange_cases text edit.byteStart edit.byteEnd with
      ⟨code, message, hv⟩ | ⟨hv, before, old, after, rfl, hstart, hstop⟩
    · refine .inl ⟨code, message, ?_, ?_⟩
      · rw [forM_cons_eq, validateEdit, hv]
        rfl
      · rw [foldlM_cons, replaceEdit, replaceByteRange]
        rw [validateEdit, validateEdit, hv] at hsame
        rw [hsame]
        rfl
    have hfold : (edit :: edits).foldlM replaceEdit (before ++ old ++ after ++ tail) =
        edits.foldlM replaceEdit (before ++ (edit.replacement ++ after ++ tail)) := by
      have hv' := hsame.trans hv
      rw [validateEdit, ← hstart, ← hstop, append_assoc _ after] at hv'
      rw [foldlM_cons, replaceEdit, ← hstart, ← hstop, append_assoc _ after,
        replaceByteRange_eq _ hv', append_assoc, append_assoc]
      rfl
    have hforM : (edit :: edits).forM (validateEdit (before ++ old ++ after)) =
        edits.forM (validateEdit before) := by
      rw [forM_cons_eq, validateEdit, hv]
      refine forM_congr fun lower hl => ?_
      rw [append_assoc]
      exact validateByteRange_append (.inr (hstart ▸ hedit lower hl))
    rw [hforM, hfold]
    refine (ih hp _ _ (.inr fun lower hl => hstart ▸ hedit lower hl)).imp_right ?_
    rintro ⟨hok, out, hsub, hrest⟩
    refine ⟨hok, out ++ edit.replacement ++ after, hsub.cons hstart hstop, ?_⟩
    rw [hrest]
    simp

/-! ## The order of the ranges -/

/-- The neighbours of a sorted list are apart, so all its ranges are. -/
theorem apart_of_checkOverlaps
    (hs : edits.Pairwise fun higher lower => lower.byteStart ≤ higher.byteStart)
    (h : checkOverlaps edits = .ok ()) : Apart edits := by
  induction edits with
  | nil => exact .nil
  | cons higher edits ih =>
    obtain ⟨hhigher, hs⟩ := pairwise_cons.1 hs
    cases edits with
    | nil => exact pairwise_singleton _ _
    | cons lower edits =>
      rw [checkOverlaps] at h
      split_ifs at h with hover
      have hrest := ih hs h
      refine pairwise_cons.2 ⟨?_, hrest⟩
      intro other ho
      rcases mem_cons.1 ho with rfl | ho
      · exact Nat.not_lt.1 hover
      · exact ((pairwise_cons.1 hrest).1 other ho).trans (hhigher lower mem_cons_self)

theorem pairwise_sortEdits (edits : List ResolvedEdit) :
    (sortEdits edits).Pairwise fun higher lower => lower.byteStart ≤ higher.byteStart :=
  have : Std.Total fun a b : ResolvedEdit => b.byteStart ≤ a.byteStart :=
    ⟨fun _ _ => Nat.le_total _ _⟩
  have : IsTrans ResolvedEdit fun a b => b.byteStart ≤ a.byteStart :=
    ⟨fun _ _ _ hab hbc => Nat.le_trans hbc hab⟩
  pairwise_insertionSort _ edits

theorem buildBatchOutput_eq_foldlM (source : Text) (resolved : List ResolvedEdit)
    (h : checkOverlaps (sortEdits resolved) = .ok ()) :
    Apart (sortEdits resolved) ∧
      buildBatchOutput source (sortEdits resolved) =
        (sortEdits resolved).foldlM replaceEdit source ∧
      buildBatchOutput source (sortEdits resolved) ≠ .error .panic ∧
      ∀ out, buildBatchOutput source (sortEdits resolved) = .ok out →
        Substitutes source (sortEdits resolved) out := by
  have hp := apart_of_checkOverlaps (pairwise_sortEdits resolved) h
  refine ⟨hp, ?_⟩
  have hcases := hp.foldlM_replaceEdit source [] (.inl rfl)
  simp only [append_nil] at hcases
  rcases hcases with ⟨code, message, hv, hfold⟩ | ⟨hv, out, hsub, hfold⟩
  · have hbuild : buildBatchOutput source (sortEdits resolved) =
        .error (.refused code message) := by
      rw [buildBatchOutput, hv]
      rfl
    rw [hbuild, hfold]
    exact ⟨rfl, by simp, by simp⟩
  · have hbuild : buildBatchOutput source (sortEdits resolved) = .ok out := by
      obtain ⟨state, part, hpush, hslice, rfl⟩ := hsub.foldlM_pushEdit []
      rw [append_nil] at hpush hslice
      simp only [buildBatchOutput, Except.bind_eq_ok_iff]
      exact ⟨(), hv, state, hpush, part, hslice, rfl⟩
    rw [hbuild, hfold]
    exact ⟨rfl, by simp, fun out' hout => Except.ok.inj hout ▸ hsub⟩

theorem buildBatchOutput_eq_foldlM_touching :
    let edits : List ResolvedEdit := [⟨0, 1, ['b']⟩, ⟨1, 1, ['c']⟩]
    checkOverlaps (sortEdits edits) = .ok () ∧
      buildBatchOutput ['a'] (sortEdits edits) = (sortEdits edits).foldlM replaceEdit ['a'] :=
  ⟨by decide, (buildBatchOutput_eq_foldlM _ _ (by decide)).2.1⟩

/-! ## Requests -/

/-- An edit of a request; a field is absent when it is missing or not of its type. -/
inductive BatchEdit
  /-- The ranges a match edit finds in a text, or its refusal at an index of the request. -/
  | matched (find : Text → Except (ℕ → Failure) (List ResolvedEdit))
  | lines (lineStart lineEnd : Option ℕ) (content : Option Text)
  | other

def splitInclusive : Text → List Text
  | [] => []
  | c :: text =>
    if c = '\n' then [c] :: splitInclusive text
    else match splitInclusive text with
      | [] => [[c]]
      | line :: lines => (c :: line) :: lines

/-- The byte at which a line starts, or the end of the text. -/
def lineOffset (source : Text) (line : ℕ) : ℕ :=
  byteLength ((splitInclusive source).take line).flatten

def endsWithNewline (text : Text) : Bool := text.getLast? = some '\n'

def withNewline (text : Text) : Text := if endsWithNewline text then text else text ++ ['\n']

/-- The refusal of an edit, which names its index in the request. -/
def refuse {α : Type} (code message : String) : Except (ℕ → Failure) α :=
  .error fun index => .refused code s!"batch: edit[{index}] {message}"

def resolveLines (source : Text) (lineStart lineEnd : ℕ) (content : Text) :
    Except (ℕ → Failure) ResolvedEdit :=
  let total := (splitInclusive source).length
  if total < lineStart then
    refuse "batch_edit_failed"
      s!"line_start {lineStart + 1} out of range (file has {total} lines)"
  else if lineStart = total then
    let separated :=
      if source ≠ [] ∧ ¬ endsWithNewline source ∧ content.head? ≠ some '\n' then '\n' :: content
      else content
    .ok ⟨byteLength source, byteLength source, withNewline separated⟩
  else if lineEnd + 1 < lineStart then
    refuse "invalid_request" s!"line_start {lineStart + 1} > line_end {lineEnd + 1}"
  else if lineStart = lineEnd + 1 then
    .ok ⟨lineOffset source lineStart, lineOffset source lineStart, withNewline content⟩
  else
    let stop := lineOffset source (min lineEnd (total - 1) + 1)
    let trailing := (splitAt? stop source).any fun parts => endsWithNewline parts.1
    .ok ⟨lineOffset source lineStart, stop,
      if content ≠ [] ∧ trailing then withNewline content else content⟩

def positive (field : String) : Option ℕ → Except (ℕ → Failure) ℕ
  | none => refuse "invalid_request" s!"'{field}' must be a positive integer (1-based)"
  | some 0 => refuse "invalid_request" s!"'{field}' must be >= 1 (1-based)"
  | some (line + 1) => .ok line

def resolveEdit (source : Text) : BatchEdit → Except (ℕ → Failure) (List ResolvedEdit)
  | .matched find => find source
  | .lines lineStart lineEnd content => do
    let lineStart ← positive "line_start" lineStart
    let lineEnd ← positive "line_end" lineEnd
    let some content := content |
      refuse "invalid_request" "requires string 'content' (use an empty string to delete)"
    return [← resolveLines source lineStart lineEnd content]
  | .other =>
    refuse "invalid_request" "must have either 'match' or 'line_start'/'line_end'"

def resolveEdits (source : Text) : ℕ → List BatchEdit → Except Failure (List ResolvedEdit)
  | _, [] => .ok []
  | index, edit :: edits => do
    let found ← (resolveEdit source edit).mapError (· index)
    return found ++ (← resolveEdits source (index + 1) edits)

/-- The new content of the file. -/
def handleBatch (source : Text) (edits : List BatchEdit) : Except Failure Text :=
  if edits = [] then .error (.refused "invalid_request" "batch: 'edits' array must not be empty")
  else do
    let resolved ← resolveEdits source 0 edits
    checkOverlaps (sortEdits resolved)
    buildBatchOutput source (sortEdits resolved)

/-- The ranges an edit resolves to, none if it is refused. -/
def ranges (source : Text) (edit : BatchEdit) : List ResolvedEdit :=
  (resolveEdit source edit).toOption.getD []

theorem resolveEdits_eq_ok_iff {index : ℕ} {requests : List BatchEdit}
    {resolved : List ResolvedEdit} :
    resolveEdits source index requests = .ok resolved ↔
      (∀ edit ∈ requests, ∃ found, resolveEdit source edit = .ok found) ∧
        requests.flatMap (ranges source) = resolved := by
  induction requests generalizing index resolved with
  | nil => simp [resolveEdits]
  | cons edit requests ih =>
    rw [resolveEdits, forall_mem_cons, flatMap_cons, ranges]
    cases resolveEdit source edit with
    | error failure => simp [Except.mapError, Except.bind_eq_ok_iff]
    | ok found =>
      simp only [Except.bind_eq_ok_iff, ih]
      constructor
      · rintro ⟨_, hfound, _, ⟨hall, rfl⟩, hres⟩
        cases hfound
        exact ⟨⟨⟨found, rfl⟩, hall⟩, Except.ok.inj hres⟩
      · rintro ⟨⟨-, hall⟩, rfl⟩
        exact ⟨found, rfl, _, ⟨hall, rfl⟩, rfl⟩

theorem sortEdits_perm {resolved resolved' : List ResolvedEdit} (hp : resolved.Perm resolved')
    (hn : (resolved.map ResolvedEdit.byteStart).Nodup) :
    sortEdits resolved = sortEdits resolved' := by
  have hperm : (sortEdits resolved).Perm (sortEdits resolved') :=
    (perm_insertionSort _ _).trans (hp.trans (perm_insertionSort _ _).symm)
  refine hperm.eq_of_pairwise ?_ (pairwise_sortEdits _) (pairwise_sortEdits _)
  intro a b ha hb hab hba
  have ha := (perm_insertionSort _ _).mem_iff.1 ha
  have hb := hp.mem_iff.2 ((perm_insertionSort _ _).mem_iff.1 hb)
  exact inj_on_of_nodup_map hn ha hb (Nat.le_antisymm hba hab)

end Aft.Edit
