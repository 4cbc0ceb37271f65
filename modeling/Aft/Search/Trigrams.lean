import Aft.Lib.SortedMap

/-!
# Trigrams

The trigrams of a text, folded over ASCII case, and the masks that the search index stores with them: a
bloom mask of the characters that follow a trigram, and a mask of its positions. Masks are bytes, as
numbers whose bits are set one by one.
-/

namespace Aft.Search

open List

/-- Stands for the character after the end of a text. -/
def eofSentinel : UInt8 := 0

def normalizeChar (c : UInt8) : UInt8 := if 65 ≤ c ∧ c ≤ 90 then c + 32 else c

def packTrigram (a b c : UInt8) : ℕ := a.toNat <<< 16 ||| b.toNat <<< 8 ||| c.toNat

def maskForNextChar (nextChar : UInt8) : ℕ := 1 <<< (normalizeChar nextChar * 31 &&& 7).toNat

def maskForPosition (position : ℕ) : ℕ := 1 <<< (position % 8)

/-- A trigram of a text with the character after it and its position. -/
structure Occurrence where
  trigram : ℕ
  nextChar : UInt8
  position : ℕ
deriving DecidableEq, Repr

/-- The trigrams of a text that starts at a position. -/
def scanTrigramsFrom : ℕ → List UInt8 → List Occurrence
  | position, a :: b :: c :: rest =>
    ⟨packTrigram (normalizeChar a) (normalizeChar b) (normalizeChar c), rest.headD eofSentinel,
        position⟩ :: scanTrigramsFrom (position + 1) (b :: c :: rest)
  | _, _ => []

def scanTrigrams (content : List UInt8) : List Occurrence := scanTrigramsFrom 0 content

structure PostingFilter where
  nextMask : ℕ
  locMask : ℕ
deriving DecidableEq, Repr

def PostingFilter.default : PostingFilter := ⟨0, 0⟩

def mergeFilter (target filter : PostingFilter) : PostingFilter :=
  ⟨target.nextMask ||| filter.nextMask, target.locMask ||| filter.locMask⟩

def mergeEntry (filters : SortedMap ℕ PostingFilter) (trigram : ℕ) (filter : PostingFilter) :
    SortedMap ℕ PostingFilter :=
  filters.insert trigram (mergeFilter ((filters.find? trigram).getD .default) filter)

def Occurrence.filter (occurrence : Occurrence) (includeEofNextChar : Bool) : PostingFilter where
  nextMask := if includeEofNextChar ∨ occurrence.nextChar ≠ eofSentinel then
    maskForNextChar occurrence.nextChar else 0
  locMask := maskForPosition occurrence.position

def trigramFilterMap (content : List UInt8) (includeEofNextChar : Bool) :
    SortedMap ℕ PostingFilter :=
  (scanTrigrams content).foldl (fun filters occurrence =>
    mergeEntry filters occurrence.trigram (occurrence.filter includeEofNextChar)) .empty

/-! ## Masks -/

/-- Two masks have a bit in common. -/
def Meets (mask mask' : ℕ) : Prop := mask &&& mask' ≠ 0

instance (mask mask' : ℕ) : Decidable (Meets mask mask') := inferInstanceAs (Decidable (_ ≠ _))

theorem meets_or_left {a b mask : ℕ} : Meets (a ||| b) mask ↔ Meets a mask ∨ Meets b mask := by
  unfold Meets
  rw [Nat.and_or_distrib_right, ne_eq, Nat.or_eq_zero_iff]
  tauto

theorem not_meets_zero (mask : ℕ) : ¬ Meets 0 mask := by simp [Meets]

theorem Meets.comm {a b : ℕ} : Meets a b ↔ Meets b a := by
  rw [Meets, Nat.and_comm, Meets]

theorem meets_self {mask : ℕ} (h : mask ≠ 0) : Meets mask mask := by
  rwa [Meets, Nat.and_self]

theorem maskForNextChar_ne_zero (c : UInt8) : maskForNextChar c ≠ 0 := by
  simp [maskForNextChar]

/-! ## Maps of filters -/

/-- The filter of a trigram, which is empty for a trigram without an entry. -/
def filterOf (filters : SortedMap ℕ PostingFilter) (trigram : ℕ) : PostingFilter :=
  (filters.find? trigram).getD .default

section MergeAll

variable {α : Type*} (trigram : α → ℕ) (filter : α → PostingFilter)

def mergeAll (filters : SortedMap ℕ PostingFilter) (entries : List α) : SortedMap ℕ PostingFilter :=
  entries.foldl (fun filters entry => mergeEntry filters (trigram entry) (filter entry)) filters

/-- A merge has the property if one of the merged filters has it. -/
structure Joins (P : PostingFilter → Prop) : Prop where
  merge : ∀ left right, P (mergeFilter left right) ↔ P left ∨ P right
  default : P .default → ∀ filter, P filter

theorem joins_true : Joins fun _ => True := ⟨by simp, fun _ _ => trivial⟩

theorem joins_meets (mask : ℕ) : Joins (Meets ·.nextMask mask) :=
  ⟨fun _ _ => meets_or_left, fun h => absurd h (not_meets_zero mask)⟩

variable {trigram filter} {P : PostingFilter → Prop} {filters : SortedMap ℕ PostingFilter} {t : ℕ}

theorem Joins.mergeAll (h : Joins P) {entries : List α} :
    (∃ merged, (mergeAll trigram filter filters entries).find? t = some merged ∧ P merged) ↔
      (∃ entry ∈ entries, trigram entry = t ∧ P (filter entry)) ∨
        ∃ old, filters.find? t = some old ∧ P old := by
  induction entries generalizing filters with
  | nil => simp [Search.mergeAll]
  | cons entry entries ih =>
    rw [Search.mergeAll, foldl_cons, ← Search.mergeAll, ih, mergeEntry]
    simp only [mem_cons, exists_eq_or_imp]
    by_cases ht : t = trigram entry
    · subst ht
      cases filters.find? (trigram entry) with
      | none => simp [h.merge, or_iff_right_of_imp fun hd => h.default hd (filter entry), or_comm]
      | some old => simp [h.merge, or_comm, or_assoc]
    · simp [SortedMap.find?_insert_of_ne _ _ ht, Ne.symm ht]

theorem meets_filterOf {mask : ℕ} : Meets (filterOf filters t).nextMask mask ↔
    ∃ filter, filters.find? t = some filter ∧ Meets filter.nextMask mask := by
  unfold filterOf
  cases filters.find? t with
  | none => exact iff_of_false (not_meets_zero mask) (by simp)
  | some filter => simp

end MergeAll

/-! ## Occurrences in a longer text -/

/-- The trigram is found in a text, followed by the same character unless it ends its own text. -/
def Occurrence.FoundIn (occurrence : Occurrence) (found : List Occurrence) : Prop :=
  ∃ other ∈ found, other.trigram = occurrence.trigram ∧
    (occurrence.nextChar ≠ eofSentinel → other.nextChar = occurrence.nextChar)

theorem foundIn_append (suffix : List UInt8) (start position : ℕ) (content : List UInt8) :
    ∀ occurrence ∈ scanTrigramsFrom position content,
      occurrence.FoundIn (scanTrigramsFrom start (content ++ suffix)) := by
  fun_induction scanTrigramsFrom position content generalizing start with
  | case1 position a b c rest ih =>
    intro occurrence hmem
    rcases mem_cons.1 hmem with rfl | hmem
    · refine ⟨_, mem_cons_self, rfl, fun hn => ?_⟩
      cases rest with
      | nil => exact absurd rfl hn
      | cons d rest => rfl
    · obtain ⟨other, ho, hs⟩ := ih (start + 1) occurrence hmem
      exact ⟨other, mem_cons_of_mem _ ho, hs⟩
  | case2 => exact nofun

theorem scanTrigramsFrom_subset_cons (a : UInt8) (position : ℕ) (content : List UInt8) :
    scanTrigramsFrom (position + 1) content ⊆ scanTrigramsFrom position (a :: content) := by
  match content with
  | [] => exact nil_subset _
  | [b] => exact nil_subset _
  | b :: c :: rest =>
    exact subset_cons_self _ _

theorem foundIn_middle (before suffix : List UInt8) (start position : ℕ) (content : List UInt8) :
    ∀ occurrence ∈ scanTrigramsFrom position content,
      occurrence.FoundIn (scanTrigramsFrom start (before ++ content ++ suffix)) := by
  induction before generalizing start with
  | nil => exact foundIn_append suffix start position content
  | cons a before ih =>
    intro occurrence hmem
    obtain ⟨other, ho, hs⟩ := ih (start + 1) occurrence hmem
    exact ⟨other, scanTrigramsFrom_subset_cons a start _ ho, hs⟩

theorem foundIn_of_infix {run content : List UInt8} (h : run <:+: content) :
    ∀ occurrence ∈ scanTrigrams run, occurrence.FoundIn (scanTrigrams content) := by
  obtain ⟨before, after, rfl⟩ := h
  exact foundIn_middle before after 0 0 run

end Aft.Search
