import Mathlib

/-!
# Entries of an association list

Where an entry that a lookup finds stands, and what erasing or replacing it leaves.
-/

namespace AList

open List

variable {α : Type*} {β : α → Type*} [DecidableEq α]

theorem kreplace_append_cons {a : α} {b c : β a} {before after : List (Sigma β)}
    (h : a ∉ before.keys) :
    List.kreplace a c (before ++ ⟨a, b⟩ :: after) = before ++ ⟨a, c⟩ :: after := by
  induction before with
  | nil => exact lookmap_cons_some _ _ (if_pos rfl)
  | cons entry before ih =>
    rw [keys_cons, mem_cons, not_or] at h
    have hs : kreplace a c (entry :: (before ++ ⟨a, b⟩ :: after)) =
        entry :: kreplace a c (before ++ ⟨a, b⟩ :: after) :=
      lookmap_cons_none _ _ (if_neg h.1)
    rw [cons_append, hs, ih h.2, cons_append]

/-- The entry of a key, in the list before and after it is erased or replaced. -/
theorem exists_entries_of_lookup {s : AList β} {a : α} {b : β a} (h : s.lookup a = some b) :
    ∃ before after, s.entries = before ++ ⟨a, b⟩ :: after ∧
      (s.erase a).entries = before ++ after ∧
      ∀ c : β a, (s.replace a c).entries = before ++ ⟨a, c⟩ :: after := by
  have hmem : a ∈ s.entries.keys := AList.mem_keys.1 (AList.lookup_isSome.1 (by rw [h]; rfl))
  obtain ⟨b', before, after, hbe, hen, hera⟩ := exists_of_kerase hmem
  have hb : b' = b := by
    have hl : ⟨a, b'⟩ ∈ s.entries := by rw [hen]; simp
    rw [AList.mem_lookup_iff.2 hl] at h
    exact Option.some.inj h
  subst hb
  refine ⟨before, after, hen, hera, fun c => ?_⟩
  change kreplace a c s.entries = _
  rw [hen, kreplace_append_cons hbe]

theorem replace_insert (a : α) (b c : β a) (s : AList β) :
    (s.insert a b).replace a c = s.insert a c := by
  have hen : (s.insert a b).entries = [] ++ ⟨a, b⟩ :: s.entries.kerase a := rfl
  apply AList.ext
  change kreplace a c (s.insert a b).entries = _
  rw [hen, kreplace_append_cons not_mem_nil]
  rfl

theorem erase_insert {a : α} (b : β a) {s : AList β} (h : a ∉ s) : (s.insert a b).erase a = s := by
  apply AList.ext
  have hh : kerase a (⟨a, b⟩ :: kerase a s.entries) = kerase a s.entries :=
    kerase_cons_eq rfl
  exact hh.trans (kerase_of_notMem_keys h)

end AList
