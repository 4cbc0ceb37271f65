import Mathlib

/-!
# Finite maps as strictly sorted association lists

`SortedMap κ α` is a list of entries whose keys strictly increase, with the order as a field.
`insert` and `erase` are described twice: by lookup (`find?_insert`, `find?_erase`), and as a
permutation of the entries (`insert_perm`, `perm_cons_erase`), from which sizes and sums over the
values follow. `overlayEntries` merges two entry lists in one pass, the first winning at a common
key.
-/

universe u v w

/-- A finite map from `κ` to `α`, as entries with strictly increasing keys. -/
structure SortedMap (κ : Type u) (α : Type v) [LinearOrder κ] where
  entries : List (κ × α)
  sorted : entries.Pairwise fun a b => a.1 < b.1

namespace SortedMap

open List

variable {κ : Type u} {α : Type v} [LinearOrder κ]

/-! ## Operations -/

variable {m m' : SortedMap κ α}

@[ext]
theorem ext_entries (h : m.entries = m'.entries) : m = m' := by
  cases m; cases m'; simp_all

instance [DecidableEq α] : DecidableEq (SortedMap κ α) := fun _ _ =>
  decidable_of_iff _ SortedMap.ext_entries_iff.symm

def empty : SortedMap κ α := ⟨[], List.Pairwise.nil⟩

def find? (m : SortedMap κ α) (k : κ) : Option α :=
  (m.entries.find? fun e => e.1 = k).map Prod.snd

/-- Put an entry at its place in a sorted list, replacing an entry with the same key. -/
def insertEntry (k : κ) (v : α) : List (κ × α) → List (κ × α)
  | [] => [(k, v)]
  | e :: rest =>
    if k < e.1 then (k, v) :: e :: rest
    else if k = e.1 then (k, v) :: rest
    else e :: insertEntry k v rest

variable {k : κ} {v : α} {e : κ × α} {l : List (κ × α)}

theorem mem_insertEntry (h : e ∈ insertEntry k v l) : e = (k, v) ∨ e ∈ l := by
  induction l with
  | nil => simpa [insertEntry] using h
  | cons d rest ih =>
    unfold insertEntry at h
    split_ifs at h <;> grind

theorem insertEntry_pairwise (k : κ) (v : α) (h : l.Pairwise fun a b => a.1 < b.1) :
    (insertEntry k v l).Pairwise fun a b => a.1 < b.1 := by
  induction l with
  | nil => simp [insertEntry]
  | cons d rest ih =>
    obtain ⟨hd, hr⟩ := pairwise_cons.1 h
    unfold insertEntry
    split_ifs with hlt heq
    · refine pairwise_cons.2 ⟨fun e he => ?_, h⟩
      rcases mem_cons.1 he with rfl | he
      · exact hlt
      · exact hlt.trans (hd e he)
    · exact pairwise_cons.2 ⟨fun e he => heq ▸ hd e he, hr⟩
    · refine pairwise_cons.2 ⟨fun e he => ?_, ih hr⟩
      rcases mem_insertEntry he with rfl | he
      · exact lt_of_le_of_ne (not_lt.1 hlt) (Ne.symm heq)
      · exact hd e he

def insert (m : SortedMap κ α) (k : κ) (v : α) : SortedMap κ α :=
  ⟨insertEntry k v m.entries, insertEntry_pairwise k v m.sorted⟩

def erase (m : SortedMap κ α) (k : κ) : SortedMap κ α :=
  ⟨m.entries.filter fun e => e.1 ≠ k, m.sorted.filter _⟩

/-- Keep the entries whose key satisfies `p`. -/
def filterKeys (m : SortedMap κ α) (p : κ → Bool) : SortedMap κ α :=
  ⟨m.entries.filter fun e => p e.1, m.sorted.filter _⟩

def mapValues {β : Type v} (m : SortedMap κ α) (f : α → β) : SortedMap κ β :=
  ⟨m.entries.map fun e => (e.1, f e.2), m.sorted.map _ fun _ _ h => h⟩

/-- Insert every entry of `m'` into `m`. -/
def extend (m m' : SortedMap κ α) : SortedMap κ α :=
  m'.entries.foldl (fun acc e => acc.insert e.1 e.2) m

def keys (m : SortedMap κ α) : List κ := m.entries.map Prod.fst

def values (m : SortedMap κ α) : List α := m.entries.map Prod.snd

def size (m : SortedMap κ α) : ℕ := m.entries.length

/-- The elements of a list under their positions, counted from one. -/
def ofList (l : List α) : SortedMap ℕ α :=
  ⟨(l.zipIdx 1).map Prod.swap, pairwise_map.2
    (pairwise_map.1 ((zipIdx_map_snd 1 l).symm ▸ pairwise_lt_range'))⟩

/-! ## Lookup -/

variable {w : α}

section

variable (m : SortedMap κ α)

theorem nodup_keys : m.keys.Nodup := by
  exact pairwise_map.2 (m.sorted.imp fun h => h.ne)

theorem eq_of_mem_of_mem (hv : (k, v) ∈ m.entries) (hw : (k, w) ∈ m.entries) : v = w :=
  congrArg Prod.snd (inj_on_of_nodup_map m.nodup_keys hv hw rfl)

theorem head_le {d : κ × α} (hd : m.entries.head? = some d) (he : e ∈ m.entries) : d.1 ≤ e.1 := by
  obtain ⟨rest, hr⟩ := head?_eq_some_iff.1 hd
  have hs := hr ▸ m.sorted
  rcases mem_cons.1 (hr ▸ he) with rfl | hmem
  · exact le_rfl
  · exact ((pairwise_cons.1 hs).1 e hmem).le

theorem le_getLast {d : κ × α} (hd : m.entries.getLast? = some d)
    (he : e ∈ m.entries) : e.1 ≤ d.1 := by
  obtain ⟨rest, hr⟩ := getLast?_eq_some_iff.1 hd
  have hs := hr ▸ m.sorted
  rcases mem_append.1 (hr ▸ he) with hmem | hmem
  · exact ((pairwise_append.1 hs).2.2 e hmem d mem_cons_self).le
  · exact (mem_singleton.1 hmem ▸ le_rfl)

end

theorem find?_eq_some_iff : m.find? k = some v ↔ (k, v) ∈ m.entries := by
  constructor
  · intro h
    obtain ⟨e, he, rfl⟩ := Option.map_eq_some_iff.1 h
    have hk : e.1 = k := by simpa using find?_some he
    exact hk ▸ mem_of_find?_eq_some he
  · intro h
    cases hf : m.entries.find? fun e => e.1 = k with
    | none => simpa using find?_eq_none.1 hf _ h
    | some e =>
      have hk : e.1 = k := by simpa using find?_some hf
      have he : (k, e.2) ∈ m.entries := hk ▸ mem_of_find?_eq_some hf
      simp [find?, hf, m.eq_of_mem_of_mem he h]

theorem find?_eq_none_iff : m.find? k = none ↔ ∀ e ∈ m.entries, e.1 ≠ k := by
  simp [find?]

theorem ext_find? (h : ∀ k, m.find? k = m'.find? k) : m = m' := by
  have hp : m.entries.Perm m'.entries := by
    refine (perm_ext_iff_of_nodup (List.Nodup.of_map _ m.nodup_keys)
      (List.Nodup.of_map _ m'.nodup_keys)).2 fun ⟨k, v⟩ => ?_
    rw [← find?_eq_some_iff, ← find?_eq_some_iff, h]
  exact ext_entries (hp.eq_of_pairwise (fun a b _ _ hab hba => absurd hba hab.asymm)
    m.sorted m'.sorted)

@[simp]
theorem find?_empty (k : κ) : (empty : SortedMap κ α).find? k = none := rfl

variable {β : Type v}

theorem find?_mapValues (m : SortedMap κ α) (f : α → β) (k : κ) :
    (m.mapValues f).find? k = (m.find? k).map f := by
  simp [find?, mapValues, Function.comp_def]

theorem mem_keys_iff : k ∈ m.keys ↔ (m.find? k).isSome := by
  rw [Option.isSome_iff_exists, keys, mem_map]
  constructor
  · rintro ⟨e, he, rfl⟩
    exact ⟨e.2, find?_eq_some_iff.2 he⟩
  · rintro ⟨v, hv⟩
    exact ⟨_, find?_eq_some_iff.1 hv, rfl⟩

theorem find?_ofList (l : List α) (k : ℕ) :
    (ofList l).find? k = if 0 < k then l[k - 1]? else none := by
  ext v
  rw [find?_eq_some_iff]
  simp only [ofList, mem_map, Prod.exists, Prod.swap_prod_mk, Prod.mk.injEq]
  constructor
  · rintro ⟨a, i, hmem, rfl, rfl⟩
    obtain ⟨hle, hget⟩ := mk_mem_zipIdx_iff_le_and_getElem?_sub.1 hmem
    rwa [if_pos (by omega)]
  · intro h
    split_ifs at h with hk
    exact ⟨v, k, mk_mem_zipIdx_iff_le_and_getElem?_sub.2 ⟨hk, h⟩, rfl, rfl⟩

theorem values_ofList (l : List α) : (ofList l).values = l := by
  rw [values, ofList, map_map]
  exact zipIdx_map_fst 1 l

theorem size_ofList (l : List α) : (ofList l).size = l.length := by
  simp [size, ofList]

theorem mem_erase : e ∈ (m.erase k).entries ↔ e ∈ m.entries ∧ e.1 ≠ k := by
  simp [erase]

theorem mem_filterKeys {p : κ → Bool} : e ∈ (m.filterKeys p).entries ↔ e ∈ m.entries ∧ p e.1 := by
  simp [filterKeys]

theorem mem_mapValues {f : α → β} {w : β} (h : (k, w) ∈ (m.mapValues f).entries) :
    ∃ v, (k, v) ∈ m.entries ∧ f v = w := by
  obtain ⟨e, he, heq⟩ := mem_map.1 h
  cases heq
  exact ⟨e.2, he, rfl⟩

theorem insertEntry_perm (k : κ) (v : α) (h : l.Pairwise fun a b => a.1 < b.1) :
    (insertEntry k v l).Perm ((k, v) :: l.filter fun e => e.1 ≠ k) := by
  induction l with
  | nil => simp [insertEntry]
  | cons d rest ih =>
    obtain ⟨hd, hr⟩ := pairwise_cons.1 h
    have hke : d.1 ≥ k → rest.filter (fun e => e.1 ≠ k) = rest := fun hk =>
      filter_eq_self.2 fun e he => by simpa using (lt_of_le_of_lt hk (hd e he)).ne'
    unfold insertEntry
    split_ifs with hlt heq
    · rw [filter_cons_of_pos (by simpa using hlt.ne'), hke hlt.le]
    · rw [filter_cons_of_neg (by simp [heq]), hke heq.le]
    · rw [filter_cons_of_pos (by simpa using Ne.symm heq)]
      exact ((ih hr).cons d).trans (List.Perm.swap _ _ _)

/-- Inserting adds one entry to the map without that key. -/
theorem insert_perm (m : SortedMap κ α) (k : κ) (v : α) :
    (m.insert k v).entries.Perm ((k, v) :: (m.erase k).entries) :=
  insertEntry_perm k v m.sorted

/-- A map with a value at `k` is that entry and the map without it. -/
theorem perm_cons_erase (h : m.find? k = some v) :
    m.entries.Perm ((k, v) :: (m.erase k).entries) := by
  have hmem := find?_eq_some_iff.1 h
  have hs : (m.insert k v).entries.Perm m.entries := by
    refine (perm_ext_iff_of_nodup (List.Nodup.of_map _ (m.insert k v).nodup_keys)
      (List.Nodup.of_map _ m.nodup_keys)).2 fun e => ?_
    rw [(m.insert_perm k v).mem_iff, mem_cons, mem_erase]
    constructor
    · rintro (rfl | ⟨he, -⟩)
      exacts [hmem, he]
    · intro he
      by_cases hk : e.1 = k
      · exact .inl (Prod.ext hk (m.eq_of_mem_of_mem (k := k) (hk ▸ he) hmem))
      · exact .inr ⟨he, hk⟩
  exact hs.symm.trans (m.insert_perm k v)

theorem mem_insert : e ∈ (m.insert k v).entries ↔ e = (k, v) ∨ e ∈ m.entries ∧ e.1 ≠ k := by
  rw [(m.insert_perm k v).mem_iff, mem_cons, mem_erase]

@[simp]
theorem find?_insert_self (m : SortedMap κ α) (k : κ) (v : α) : (m.insert k v).find? k = some v :=
  find?_eq_some_iff.2 (mem_insert.2 (.inl rfl))

theorem find?_insert_of_ne (m : SortedMap κ α) {k' : κ} (v : α) (h : k' ≠ k) :
    (m.insert k v).find? k' = m.find? k' := by
  refine Option.ext fun w => ?_
  rw [find?_eq_some_iff, find?_eq_some_iff, mem_insert]
  simp [h]

theorem find?_filterKeys (p : κ → Bool) (k : κ) :
    (m.filterKeys p).find? k = if p k then m.find? k else none := by
  refine Option.ext fun w => ?_
  rw [find?_eq_some_iff, mem_filterKeys]
  split_ifs with hk <;> simp [hk, find?_eq_some_iff]

/-- The entry at the next position is inserted unless its key is filtered out. -/
theorem filterKeys_ofList_concat (l : List α) (a : α) (p : ℕ → Bool) :
    (ofList (l ++ [a])).filterKeys p = if p (l.length + 1) then
      ((ofList l).filterKeys p).insert (l.length + 1) a else (ofList l).filterKeys p := by
  refine ext_find? fun k => ?_
  by_cases hk : k = l.length + 1
  · subst hk
    split_ifs with hp <;> simp [find?_filterKeys, find?_ofList, hp]
  · have hl : (ofList (l ++ [a])).find? k = (ofList l).find? k := by
      rw [find?_ofList, find?_ofList]
      split_ifs with h0
      · rw [getElem?_append]
        split_ifs with hlt
        · rfl
        · rw [getElem?_eq_none (by simp; omega), getElem?_eq_none (by omega)]
      · rfl
    split_ifs <;> simp [find?_insert_of_ne, find?_filterKeys, *]
@[simp]
theorem find?_erase_self (m : SortedMap κ α) (k : κ) : (m.erase k).find? k = none :=
  find?_eq_none_iff.2 fun _ he => (mem_erase.1 he).2

theorem find?_erase_of_ne (m : SortedMap κ α) {k' : κ} (h : k' ≠ k) :
    (m.erase k).find? k' = m.find? k' := by
  refine Option.ext fun w => ?_
  rw [find?_eq_some_iff, find?_eq_some_iff, mem_erase]
  simp [h]

theorem erase_eq_self (h : m.find? k = none) : m.erase k = m :=
  ext_entries (filter_eq_self.2 fun e he => by simpa using find?_eq_none_iff.1 h e he)

/-! ## Sizes and sums -/

theorem size_insert_of_none (v : α) (h : m.find? k = none) : (m.insert k v).size = m.size + 1 := by
  unfold size
  rw [(m.insert_perm k v).length_eq, length_cons, erase_eq_self h]

theorem size_erase_of_some (h : m.find? k = some w) : (m.erase k).size + 1 = m.size := by
  unfold size
  rw [(perm_cons_erase h).length_eq, length_cons]

theorem size_insert_of_some (v : α) (h : m.find? k = some w) : (m.insert k v).size = m.size := by
  rw [← size_erase_of_some h]
  unfold size
  rw [(m.insert_perm k v).length_eq, length_cons]

/-- The sum of `f` over the values. -/
def sumValues (m : SortedMap κ α) (f : α → ℕ) : ℕ := (m.values.map f).sum

theorem sumValues_insert (m : SortedMap κ α) (k : κ) (v : α) (f : α → ℕ) :
    (m.insert k v).sumValues f = f v + (m.erase k).sumValues f := by
  have h := (((m.insert_perm k v).map Prod.snd).map f).sum_eq
  simpa [sumValues, values] using h

theorem sumValues_of_find? (f : α → ℕ) (h : m.find? k = some v) :
    m.sumValues f = f v + (m.erase k).sumValues f := by
  have h := (((perm_cons_erase h).map Prod.snd).map f).sum_eq
  simpa [sumValues, values] using h

theorem sumValues_filterKeys_le (m : SortedMap κ α) (p : κ → Bool) (f : α → ℕ) :
    (m.filterKeys p).sumValues f ≤ m.sumValues f :=
  ((filter_sublist.map Prod.snd).map f).sum_le_sum fun _ _ => Nat.zero_le _

theorem sumValues_mapValues_le (m : SortedMap κ α) {g : α → α} {f : α → ℕ}
    (h : ∀ v, f (g v) ≤ f v) : (m.mapValues g).sumValues f ≤ m.sumValues f := by
  unfold sumValues values mapValues
  rw [map_map, map_map, map_map]
  exact sum_le_sum fun e _ => h e.2

/-! ## Merging -/

theorem mem_extend (h : e ∈ (m.extend m').entries) : e ∈ m.entries ∨ e ∈ m'.entries := by
  unfold extend at h
  generalize m'.entries = l at h ⊢
  induction l generalizing m with
  | nil => exact .inl h
  | cons d rest ih =>
    rcases ih h with hm | hr
    · rcases mem_insert.1 hm with rfl | ⟨hm, -⟩
      · exact .inr mem_cons_self
      · exact .inl hm
    · exact .inr (mem_cons_of_mem _ hr)

/-! ## Overlays -/

/-- Store a value at a key, or remove the entry of the key. -/
def put (m : SortedMap κ α) (k : κ) : Option α → SortedMap κ α
  | some v => m.insert k v
  | none => m.erase k

@[simp]
theorem find?_put_self (m : SortedMap κ α) (k : κ) (value : Option α) :
    (m.put k value).find? k = value := by
  cases value
  · exact m.find?_erase_self k
  · exact m.find?_insert_self k _

theorem find?_put_of_ne (m : SortedMap κ α) {k k' : κ} (value : Option α) (h : k' ≠ k) :
    (m.put k value).find? k' = m.find? k' := by
  cases value
  · exact m.find?_erase_of_ne h
  · exact m.find?_insert_of_ne _ h

/-- A loop whose steps change only the value at their own key, all by one function. -/
theorem find?_foldl {β : Type w} (key : β → κ) {rows : List β}
    {step : SortedMap κ α → β → SortedMap κ α} {f : Option α → Option α}
    (hf : ∀ value, f (f value) = f value) (hstep : ∀ row ∈ rows, ∀ m,
      (step m row).find? k = if k = key row then f (m.find? k) else m.find? k)
    (m : SortedMap κ α) :
    (rows.foldl step m).find? k = if k ∈ rows.map key then f (m.find? k) else m.find? k := by
  induction rows generalizing m with
  | nil => rfl
  | cons row rest ih =>
    rw [foldl_cons, ih fun row hrow => hstep row (mem_cons_of_mem _ hrow),
      hstep row mem_cons_self, map_cons]
    simp only [mem_cons, ite_or]
    split_ifs <;> simp [hf]

/-- A loop that puts `f k` at every key of a list. -/
theorem find?_foldl_put (f : κ → Option α) (keys : List κ) (m : SortedMap κ α) (k : κ) :
    (keys.foldl (fun acc key => acc.put key (f key)) m).find? k =
      if k ∈ keys then f k else m.find? k := by
  have hstep : ∀ key ∈ keys, ∀ m : SortedMap κ α, (m.put key (f key)).find? k =
      if k = id key then f k else m.find? k := by
    intro key _ m
    split_ifs with hk
    · rw [hk, id, find?_put_self]
    · exact find?_put_of_ne _ _ hk
  simpa using find?_foldl id (f := fun _ => f k) (fun _ => rfl) hstep m

/-- Merge two sorted entry lists; the first one wins at a common key. -/
def overlayEntries : List (κ × α) → List (κ × α) → List (κ × α)
  | [], below => below
  | above, [] => above
  | a :: above, b :: below =>
    if a.1 < b.1 then a :: overlayEntries above (b :: below)
    else if b.1 < a.1 then b :: overlayEntries (a :: above) below
    else a :: overlayEntries above below
termination_by above below => above.length + below.length

/-- An entry of the merged list is of the first list, or of the second at a key that the first
lacks. -/
theorem mem_overlayEntries {above below : List (κ × α)}
    (habo : above.Pairwise fun a b => a.1 < b.1) (hbe : below.Pairwise fun a b => a.1 < b.1)
    {e : κ × α} :
    e ∈ overlayEntries above below ↔ e ∈ above ∨ e ∈ below ∧ ∀ a ∈ above, a.1 ≠ e.1 := by
  fun_induction overlayEntries above below with
  | case1 | case2 => simp
  | case3 a above b below hlt ih =>
    have hb := (pairwise_cons.1 hbe).1
    grind
  | case4 a above b below hnlt hlt ih =>
    have ha := (pairwise_cons.1 habo).1
    grind
  | case5 a above b below hnlt hnlt' ih =>
    obtain ⟨hb, hbe⟩ := pairwise_cons.1 hbe
    grind

end SortedMap
