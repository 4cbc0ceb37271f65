import Mathlib

/-!
# The order of decimal texts

Decimal texts without leading zeros, compared by length and then by their characters, are in the
order of the numbers.
-/

namespace Nat

open List

theorem digitChar_lt {d e : ℕ} (h : d < e) (he : e < 10) : d.digitChar < e.digitChar := by
  have hd : ∀ e < 10, ∀ d < e, digitChar d < digitChar e := by decide
  exact hd e he d h

/-- A comparison that the longer parts decide stays as it is with one more character at each end. -/
theorem shortlex_concat {s t : List Char} (h : Shortlex (· < ·) s t) (c d : Char) :
    Shortlex (· < ·) (s ++ [c]) (t ++ [d]) := by
  rcases shortlex_def.1 h with hl | ⟨hl, hlex⟩
  · exact .of_length_lt (by simpa using hl)
  · refine .of_lex (by simp [hl]) ?_
    clear h
    induction hlex with
    | nil => simp at hl
    | cons hlex ih => exact .cons (ih (by simpa using hl))
    | rel hr => exact .rel hr

theorem shortlex_toDigits {m n : ℕ} (h : m < n) :
    Shortlex (· < ·) (toDigits 10 m) (toDigits 10 n) := by
  induction n using Nat.strong_induction_on generalizing m with
  | h n ih =>
    by_cases hn : n < 10
    · rw [toDigits_of_lt_base hn, toDigits_of_lt_base (h.trans hn), shortlex_singleton_iff]
      exact digitChar_lt h hn
    rw [toDigits_of_base_le (by decide) (not_lt.1 hn)]
    by_cases hm : m < 10
    · rw [toDigits_of_lt_base hm]
      exact .of_length_lt (by simp [length_toDigits_pos])
    rw [toDigits_of_base_le (by decide) (not_lt.1 hm)]
    rcases (Nat.div_le_div_right h.le : m / 10 ≤ n / 10).lt_or_eq with hq | hq
    · exact shortlex_concat (ih _ (by omega) hq) _ _
    · rw [hq]
      exact .append_left ((shortlex_singleton_iff _ _).2 (digitChar_lt (by omega) (by omega))) _

theorem shortlex_toDigits_iff {m n : ℕ} :
    Shortlex (· < ·) (toDigits 10 m) (toDigits 10 n) ↔ m < n := by
  refine ⟨fun h => not_le.1 fun hle => ?_, shortlex_toDigits⟩
  rcases hle.lt_or_eq with hlt | rfl
  · exact Std.Asymm.asymm _ _ h (shortlex_toDigits hlt)
  · exact Std.Asymm.asymm _ _ h h

end Nat
