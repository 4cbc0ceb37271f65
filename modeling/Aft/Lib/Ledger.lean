import Mathlib

/-!
# Obligations over a log

A log lists entries, the newest first. Some entries open an obligation, which may depend on how
many entries stand before them, and some close every obligation before them.
-/

namespace Ledger

variable {α : Type} {opens : α → ℕ → Prop} {closes : α → Prop} {fresh log : List α}

/-- An entry opened an obligation that nothing closed since. -/
def Outstanding (opens : α → ℕ → Prop) (closes : α → Prop) : List α → Prop
  | [] => False
  | entry :: log => ¬ closes entry ∧ (opens entry log.length ∨ Outstanding opens closes log)

/-- Entries that open nothing carry over what was outstanding, and close none of it. -/
theorem Outstanding.of_append (ho : ∀ entry ∈ fresh, ∀ count ≥ log.length, ¬ opens entry count)
    (h : Outstanding opens closes (fresh ++ log)) :
    Outstanding opens closes log ∧ ∀ entry ∈ fresh, ¬ closes entry := by
  induction fresh with
  | nil => exact ⟨h, by simp⟩
  | cons entry fresh ih =>
    obtain ⟨hc, hop | hr⟩ := h
    · exact absurd hop (ho entry (by simp) _ (by simp))
    · obtain ⟨hlog, hf⟩ := ih (fun other hot => ho other (by simp [hot])) hr
      refine ⟨hlog, ?_⟩
      rintro other (_ | ⟨_, hot⟩)
      · exact hc
      · exact hf other hot

theorem exists_closes {entry : α} {later earlier : List α}
    (h : ¬ Outstanding opens closes (later ++ entry :: earlier))
    (ho : opens entry earlier.length) (hc : ¬ closes entry) : ∃ other ∈ later, closes other := by
  by_contra hn
  refine h ?_
  induction later with
  | nil => exact ⟨hc, .inl ho⟩
  | cons other later ih =>
    refine ⟨fun hcl => hn ⟨other, by simp, hcl⟩, .inr (ih ?_ ?_)⟩
    · exact fun hout => h ⟨fun hcl => hn ⟨other, by simp, hcl⟩, .inr hout⟩
    · rintro ⟨found, hf, hcl⟩
      exact hn ⟨found, by simp [hf], hcl⟩

/-- An entry of an extended log is one of the new entries or stands in the log. -/
theorem cons_suffix_append {entry : α} {earlier : List α} (h : entry :: earlier <:+ fresh ++ log) :
    (∃ newer older, fresh = newer ++ entry :: older ∧ earlier = older ++ log) ∨
      entry :: earlier <:+ log := by
  induction fresh with
  | nil => exact .inr h
  | cons other fresh ih =>
    rcases List.suffix_cons_iff.mp h with heq | h
    · cases heq
      exact .inl ⟨[], fresh, rfl, rfl⟩
    · refine (ih h).imp_left ?_
      rintro ⟨newer, older, rfl, hea⟩
      exact ⟨other :: newer, older, rfl, hea⟩

end Ledger
