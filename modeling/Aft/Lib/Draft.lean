import Mathlib

/-!
# Splices and drafts

`splice l i j xs` replaces the elements of `l` from position `i` up to `j` by `xs`. A draft says what
stands at each row of a list, counted from one, and what was put into each gap: gap `r` follows row
`r`, and gap zero comes first. In the flat list, filling a gap is a splice, and so is replacing rows
with nothing in the gaps between them.
-/

universe u v

variable {α : Type u} {β : Type v}

/-- Replace the elements from position `i` up to `j`. -/
def splice (l : List α) (i j : ℕ) (xs : List α) : List α := l.take i ++ xs ++ l.drop j

theorem length_splice {l : List α} {i j : ℕ} (hij : i ≤ j) (hj : j ≤ l.length) (xs : List α) :
    (splice l i j xs).length = l.length - (j - i) + xs.length := by
  simp only [splice, List.length_append, List.length_take, List.length_drop]
  omega

theorem map_splice (f : α → β) (l : List α) (i j : ℕ) (xs : List α) :
    (splice l i j xs).map f = splice (l.map f) i j (xs.map f) := by
  simp [splice]

theorem flatMap_zipIdx_eq_self {l : List α} {f : α × ℕ → List α} {k : ℕ}
    (h : ∀ x r, k ≤ r → r < k + l.length → f (x, r) = [x]) : (l.zipIdx k).flatMap f = l := by
  induction l generalizing k with
  | nil => rfl
  | cons x l ih =>
    rw [List.zipIdx_cons, List.flatMap_cons, h x k le_rfl (by simp),
      ih fun y r hr hlt => h y r (by omega) (by rw [List.length_cons]; omega)]
    rfl

/-- A traversal by position that keeps every element outside `[i, j)` is a splice. -/
theorem flatMap_zipIdx_eq_splice {l : List α} {f : α × ℕ → List α} {k i j : ℕ} (hij : i ≤ j)
    (h : ∀ x r, r < k + i ∨ k + j ≤ r → f (x, r) = [x]) :
    (l.zipIdx k).flatMap f =
      splice l i j ((((l.drop i).take (j - i)).zipIdx (k + i)).flatMap f) := by
  have hl : l = l.take i ++ ((l.drop i).take (j - i) ++ l.drop j) := by
    have hd : l.drop j = (l.drop i).drop (j - i) := by
      rw [List.drop_drop, Nat.add_sub_cancel' hij]
    rw [hd, List.take_append_drop, List.take_append_drop]
  have hh : ((l.take i).zipIdx k).flatMap f = l.take i := by
    refine flatMap_zipIdx_eq_self fun x r hr hlt => h x r (.inl ?_)
    rw [List.length_take] at hlt
    omega
  rcases le_or_gt i l.length with hi | hi
  · have hlen : (l.take i).length = i := List.length_take_of_le hi
    rcases le_or_gt j l.length with hj | hj
    · have hmid : ((l.drop i).take (j - i)).length = j - i := by
        rw [List.length_take, List.length_drop]
        omega
      have ht : ((l.drop j).zipIdx (k + i + (j - i))).flatMap f = l.drop j :=
        flatMap_zipIdx_eq_self fun x r hr _ => h x r (.inr (by omega))
      conv_lhs => rw [hl]
      rw [List.zipIdx_append, List.zipIdx_append, List.flatMap_append, List.flatMap_append, hlen,
        hmid, hh, ht, splice, List.append_assoc]
    · have ht : l.drop j = [] := List.drop_eq_nil_of_le hj.le
      conv_lhs => rw [hl]
      rw [ht, List.append_nil, List.zipIdx_append, List.flatMap_append, hlen, hh, splice, ht,
        List.append_nil]
  · have hta : l.take i = l := List.take_of_length_le hi.le
    have hmid : l.drop i = [] := List.drop_eq_nil_of_le hi.le
    have ht : l.drop j = [] := List.drop_eq_nil_of_le (hi.le.trans hij)
    rw [hta] at hh
    rw [hh, splice, hta, hmid, ht]
    simp

/-- Putting an element back before the new ones only inserts after it. -/
theorem splice_getElem_cons {l : List α} {i : ℕ} (hi : i < l.length) (xs : List α) :
    splice l i (i + 1) (l[i] :: xs) = splice l (i + 1) (i + 1) xs := by
  simp only [splice, List.take_succ_eq_append_getElem hi, List.append_assoc, List.cons_append,
    List.nil_append]

/-- Putting an element back after the new ones only inserts before it. -/
theorem splice_concat_getElem {l : List α} {i : ℕ} (hi : i < l.length) (xs : List α) :
    splice l i (i + 1) (xs ++ [l[i]]) = splice l i i xs := by
  rw [splice, splice]
  simp

theorem splice_middle (a b c xs : List α) :
    splice (a ++ b ++ c) a.length (a.length + b.length) xs = a ++ xs ++ c := by
  rw [splice, ← List.length_append, List.drop_left, List.append_assoc a b c, List.take_left]

theorem splice_zero_nil (l : List α) (i : ℕ) : splice l i i [] = l := by
  simp [splice]

theorem forall₂_iff_getElem? {R : α → β → Prop} {l : List α} {m : List β} :
    List.Forall₂ R l m ↔ l.length = m.length ∧
      ∀ (i : ℕ) (a : α) (b : β), l[i]? = some a → m[i]? = some b → R a b := by
  rw [List.forall₂_iff_get]
  refine and_congr_right fun _ => ⟨fun h i a b ha hb => ?_, fun h i ha hb => ?_⟩
  · obtain ⟨hi, rfl⟩ := List.getElem?_eq_some_iff.1 ha
    obtain ⟨hj, rfl⟩ := List.getElem?_eq_some_iff.1 hb
    exact h i hi hj
  · exact h i _ _ (List.getElem?_eq_getElem ha) (List.getElem?_eq_getElem hb)

/-! ## Drafts -/

structure Draft (α : Type u) where
  row : ℕ → List α
  gap : ℕ → List α

namespace Draft

open List

section

variable (d : Draft α)

/-- The `k` rows after row `r`, each with its gap. -/
def rest (r k : ℕ) : List α :=
  (List.range' (r + 1) k).flatMap fun i => d.row i ++ d.gap i

/-- The first `n` rows with their gaps. -/
def flatten (n : ℕ) : List α := d.gap 0 ++ d.rest 0 n

/-- What comes before a gap. -/
def upTo : ℕ → List α
  | 0 => []
  | r + 1 => d.flatten r ++ d.row (r + 1)

/-- Append to what is in a gap. -/
def insert (r : ℕ) (xs : List α) : Draft α :=
  { d with gap := fun i => if i = r then d.gap r ++ xs else d.gap i }

/-- Let the rows from `s` to `e` stand for other elements. -/
def replace (s e : ℕ) (xs : List α) : Draft α :=
  { d with row := fun i => if i = s then xs else if s < i ∧ i ≤ e then [] else d.row i }

theorem row_replace (s e i : ℕ) (xs : List α) : (d.replace s e xs).row i =
    if i = s then xs else if s < i ∧ i ≤ e then [] else d.row i :=
  rfl

theorem gap_insert (r i : ℕ) (xs : List α) :
    (d.insert r xs).gap i = if i = r then d.gap r ++ xs else d.gap i :=
  rfl

@[simp]
theorem flatten_zero : d.flatten 0 = d.gap 0 := by
  simp [flatten, rest]

theorem rest_add (r j k : ℕ) : d.rest r (j + k) = d.rest r j ++ d.rest (r + j) k := by
  rw [rest, rest, rest, ← flatMap_append, Nat.add_right_comm r j 1, range'_append_1]

theorem flatten_add (r k : ℕ) : d.flatten (r + k) = d.flatten r ++ d.rest r k := by
  rw [flatten, rest_add, ← append_assoc, Nat.zero_add]
  rfl

theorem flatten_succ (r : ℕ) :
    d.flatten (r + 1) = d.flatten r ++ d.row (r + 1) ++ d.gap (r + 1) := by
  rw [flatten_add]
  simp [rest]

theorem flatten_eq_upTo (r : ℕ) : d.flatten r = d.upTo r ++ d.gap r := by
  cases r with
  | zero => simp [upTo]
  | succ r => rw [flatten_succ, upTo]

end

variable {r n : ℕ}

theorem flatten_split (d : Draft α) (h : r ≤ n) :
    d.flatten n = d.upTo r ++ d.gap r ++ d.rest r (n - r) := by
  conv_lhs => rw [← Nat.add_sub_cancel' h]
  rw [flatten_add, flatten_eq_upTo]

variable {d : Draft α} {x : α}

theorem mem_rest {k : ℕ} (h : x ∈ d.rest r k) :
    ∃ i, r < i ∧ i ≤ r + k ∧ (x ∈ d.row i ∨ x ∈ d.gap i) := by
  obtain ⟨i, hi, hx⟩ := mem_flatMap.1 h
  have := mem_range'_1.1 hi
  exact ⟨i, by omega, by omega, mem_append.1 hx⟩

theorem mem_flatten (h : x ∈ d.flatten r) :
    (∃ i, 0 < i ∧ i ≤ r ∧ x ∈ d.row i) ∨ ∃ i, i ≤ r ∧ x ∈ d.gap i := by
  rcases mem_append.1 h with h | h
  · exact .inr ⟨0, Nat.zero_le r, h⟩
  · obtain ⟨i, hpos, hle, hx | hx⟩ := mem_rest h
    · exact .inl ⟨i, hpos, by omega, hx⟩
    · exact .inr ⟨i, by omega, hx⟩

theorem mem_upTo (h : x ∈ d.upTo r) :
    (∃ i, 0 < i ∧ i ≤ r ∧ x ∈ d.row i) ∨ ∃ i, i < r ∧ x ∈ d.gap i := by
  cases r with
  | zero => cases h
  | succ r =>
    rcases mem_append.1 h with h | h
    · rcases mem_flatten h with ⟨i, hpos, hi, hx⟩ | ⟨i, hi, hx⟩
      · exact .inl ⟨i, hpos, Nat.le_succ_of_le hi, hx⟩
      · exact .inr ⟨i, Nat.lt_succ_of_le hi, hx⟩
    · exact .inl ⟨r + 1, Nat.succ_pos r, le_rfl, h⟩

variable {d' : Draft α}

theorem rest_congr {k : ℕ} (hrow : ∀ i, r < i → d.row i = d'.row i)
    (hgap : ∀ i, r < i → d.gap i = d'.gap i) : d.rest r k = d'.rest r k := by
  refine flatMap_congr fun i hi => ?_
  have hlt : r < i := (mem_range'_1.1 hi).1
  rw [hrow i hlt, hgap i hlt]

theorem flatten_congr (hrow : ∀ i, i ≤ r → d.row i = d'.row i)
    (hgap : ∀ i, i ≤ r → d.gap i = d'.gap i) : d.flatten r = d'.flatten r := by
  rw [flatten, hgap 0 (Nat.zero_le r)]
  refine congrArg _ (flatMap_congr fun i hi => ?_)
  have hle : i ≤ r := by
    have := (mem_range'_1.1 hi).2
    omega
  rw [hrow i hle, hgap i hle]

theorem upTo_congr (hrow : ∀ i, i ≤ r → d.row i = d'.row i) (hgap : ∀ i, i < r → d.gap i = d'.gap i) :
    d.upTo r = d'.upTo r := by
  cases r with
  | zero => rfl
  | succ r =>
    rw [upTo, upTo, hrow (r + 1) le_rfl, flatten_congr (fun i hi => hrow i (Nat.le_succ_of_le hi))
      fun i hi => hgap i (Nat.lt_succ_of_le hi)]

variable {s : ℕ}

/-- Rows and gaps with nothing in them add nothing. -/
theorem upTo_eq_of_empty (h : r ≤ s) (hrow : ∀ i, r < i → i ≤ s → d.row i = [])
    (hgap : ∀ i, r ≤ i → i < s → d.gap i = []) : d.upTo s = d.upTo r := by
  induction s, h using Nat.le_induction with
  | base => rfl
  | succ s hle ih =>
    rw [upTo, hrow (s + 1) (by omega) le_rfl, append_nil, flatten_eq_upTo,
      hgap s hle (Nat.lt_succ_self s), append_nil]
    exact ih (fun i hi his => hrow i hi (Nat.le_succ_of_le his))
      fun i hi his => hgap i hi (Nat.lt_succ_of_lt his)

theorem rest_insert (d : Draft α) (r k : ℕ) (xs : List α) : (d.insert r xs).rest r k = d.rest r k :=
  rest_congr (fun _ _ => rfl) fun _ hi => if_neg (ne_of_gt hi)

theorem upTo_insert (d : Draft α) (r : ℕ) (xs : List α) : (d.insert r xs).upTo r = d.upTo r :=
  upTo_congr (fun _ _ => rfl) fun _ hi => if_neg (ne_of_lt hi)

theorem flatten_insert (d : Draft α) (h : r ≤ n) (xs : List α) :
    (d.insert r xs).flatten n =
      splice (d.flatten n) (d.flatten r).length (d.flatten r).length xs := by
  rw [flatten_eq_upTo d r]
  have hgap : (d.insert r xs).gap r = d.gap r ++ xs := if_pos rfl
  rw [flatten_split _ h, upTo_insert, rest_insert, hgap, flatten_split d h, splice, take_left,
    drop_left]
  simp

/-- Rows without anything in the gaps between them. -/
theorem flatten_rows {e : ℕ} (hs : 0 < s) (hse : s ≤ e) (hen : e ≤ n)
    (hgap : ∀ i, s ≤ i → i < e → d.gap i = []) :
    d.flatten n = d.flatten (s - 1) ++ (List.range' s (e + 1 - s)).flatMap d.row ++
      (d.gap e ++ d.rest e (n - e)) := by
  obtain ⟨k, rfl⟩ := Nat.exists_eq_add_of_le hse
  have hr : d.upTo (s + k) = d.flatten (s - 1) ++ (range' s (k + 1)).flatMap d.row := by
    induction k with
    | zero =>
      obtain ⟨r, rfl⟩ := Nat.exists_eq_succ_of_ne_zero hs.ne'
      simp [upTo]
    | succ k ih =>
      have hp := ih (by omega) (by omega) fun i hi hik => hgap i hi (by omega)
      have hc : range' s (k + 1 + 1) = range' s (k + 1) ++ [s + k + 1] := by
        rw [range'_concat, Nat.one_mul, Nat.add_assoc]
      rw [← Nat.add_assoc, upTo, flatten_eq_upTo, hgap (s + k) (by omega) (by omega), hp, hc]
      simp
  rw [flatten_split d hen, hr, append_assoc _ (d.gap _), show s + k + 1 - s = k + 1 by omega]

/-- Replacing rows splices, if nothing is in the gaps between them. -/
theorem flatten_replace {e : ℕ} (hs : 0 < s) (hse : s ≤ e) (hen : e ≤ n)
    (hgap : ∀ i, s ≤ i → i < e → d.gap i = []) (xs : List α) :
    (d.replace s e xs).flatten n = d.flatten (s - 1) ++ xs ++ (d.gap e ++ d.rest e (n - e)) := by
  have hb : (d.replace s e xs).flatten (s - 1) = d.flatten (s - 1) := by
    refine flatten_congr (fun i hi => ?_) fun _ _ => rfl
    rw [row_replace, if_neg (by omega), if_neg (by omega)]
  have haf : (d.replace s e xs).rest e (n - e) = d.rest e (n - e) := by
    refine rest_congr (fun i hi => ?_) fun _ _ => rfl
    rw [row_replace, if_neg (by omega), if_neg (by omega)]
  have hr : (range' s (e + 1 - s)).flatMap (d.replace s e xs).row = xs := by
    obtain ⟨k, hk⟩ : ∃ k, e + 1 - s = k + 1 := ⟨e - s, by omega⟩
    rw [hk, range'_succ, flatMap_cons]
    have hf : (d.replace s e xs).row s = xs := if_pos rfl
    have ho : (range' (s + 1) k).flatMap (d.replace s e xs).row = [] := by
      refine flatMap_eq_nil_iff.2 fun i hi => ?_
      have := mem_range'_1.1 hi
      rw [row_replace, if_neg (by omega), if_pos (by omega)]
    rw [hf, ho, append_nil]
  rw [flatten_rows (d := d.replace s e xs) hs hse hen hgap, hb, haf, hr]
  rfl

end Draft
