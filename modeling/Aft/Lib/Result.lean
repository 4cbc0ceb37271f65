import Mathlib

/-!
# Computations that may fail

Inversion of successful `Except` computations: a successful bind has a successful first part, and a
successful traversal of a list relates inputs and outputs element by element. Two computations agree
when they fail with the same error or give related results, and agreement goes through binds.
-/

universe u v

variable {ε : Type u} {α β σ : Type v}

theorem Except.bind_eq_ok_iff {x : Except ε α} {f : α → Except ε β} {b : β} :
    (x >>= f) = .ok b ↔ ∃ a, x = .ok a ∧ f a = .ok b := by
  cases x with
  | error | ok => simp [bind, Except.bind]

theorem Except.map_eq_ok_iff {x : Except ε α} {f : α → β} {b : β} :
    x.map f = .ok b ↔ ∃ a, x = .ok a ∧ f a = b := by
  cases x <;> simp [Except.map]

theorem List.mapM_eq_ok_iff {γ : Type*} {f : γ → Except ε β} {l : List γ} {r : List β} :
    l.mapM f = .ok r ↔ List.Forall₂ (fun x y => f x = .ok y) l r := by
  induction l generalizing r with
  | nil =>
    rw [List.forall₂_nil_left_iff]
    exact ⟨fun h => (Except.ok.inj h).symm, fun h => by rw [h]; rfl⟩
  | cons x l ih =>
    rw [List.mapM_cons, List.forall₂_cons_left_iff]
    simp only [Except.bind_eq_ok_iff, ih]
    constructor
    · rintro ⟨y, hy, ys, hys, hr⟩
      exact ⟨y, ys, hy, hys, (Except.ok.inj hr).symm⟩
    · rintro ⟨y, ys, hy, hys, rfl⟩
      exact ⟨y, hy, ys, hys, rfl⟩

theorem List.Forall₂.exists_of_mem_left {α β : Type*} {R : α → β → Prop} {l : List α} {m : List β}
    (h : List.Forall₂ R l m) {x : α} (hx : x ∈ l) : ∃ y ∈ m, R x y := by
  induction h with
  | nil => cases hx
  | @cons a b l m hab _ ih =>
    rcases List.mem_cons.1 hx with rfl | hx
    · exact ⟨b, List.mem_cons_self, hab⟩
    · obtain ⟨y, hy, hxy⟩ := ih hx
      exact ⟨y, List.mem_cons_of_mem _ hy, hxy⟩

theorem List.Forall₂.exists_of_mem_right {α β : Type*} {R : α → β → Prop} {l : List α} {m : List β}
    (h : List.Forall₂ R l m) {y : β} (hy : y ∈ m) : ∃ x ∈ l, R x y :=
  h.flip.exists_of_mem_left hy

theorem List.forM_cons_eq {γ : Type*} (f : γ → Except ε PUnit) (x : γ) (l : List γ) :
    (x :: l).forM f = f x >>= fun _ => l.forM f :=
  rfl

theorem List.forM_congr {γ : Type*} {f g : γ → Except ε PUnit} {l : List γ}
    (h : ∀ x ∈ l, f x = g x) : l.forM f = l.forM g := by
  induction l with
  | nil => rfl
  | cons x l ih =>
    rw [forM_cons_eq, forM_cons_eq, h x mem_cons_self, ih fun y hy => h y (mem_cons_of_mem _ hy)]

theorem List.forM_eq_ok_iff {γ : Type*} {f : γ → Except ε PUnit} {l : List γ} :
    l.forM f = .ok ⟨⟩ ↔ ∀ x ∈ l, f x = .ok ⟨⟩ := by
  induction l with
  | nil => exact ⟨fun _ _ hx => absurd hx List.not_mem_nil, fun _ => rfl⟩
  | cons x l ih =>
    rw [forM_cons_eq, Except.bind_eq_ok_iff, List.forall_mem_cons]
    constructor
    · rintro ⟨⟨⟩, hx, hl⟩
      exact ⟨hx, ih.1 hl⟩
    · rintro ⟨hx, hl⟩
      exact ⟨⟨⟩, hx, ih.2 hl⟩

/-- What every step of a successful loop preserves, the loop preserves. -/
theorem List.foldlM_ok_induction {γ : Type*} {step : σ → γ → Except ε σ} {P : List γ → σ → Prop}
    {l : List γ} {s t : σ} (hrun : l.foldlM step s = .ok t) (hs : P [] s)
    (hst : ∀ done x s s', P done s → step s x = .ok s' → P (done ++ [x]) s') : P l t := by
  suffices h : ∀ (done : List γ) (s : σ), l.foldlM step s = .ok t → P done s → P (done ++ l) t by
    simpa using h [] s hrun hs
  clear hrun hs
  induction l with
  | nil =>
    intro done s hrun hd
    rw [List.append_nil]
    exact Except.ok.inj hrun ▸ hd
  | cons x l ih =>
    intro done s hrun hd
    obtain ⟨s', hs', hr⟩ := Except.bind_eq_ok_iff.1 hrun
    simpa using ih (done ++ [x]) s' hr (hst done x s s' hd hs')

/-- Two computations that fail alike or give related results. -/
inductive Except.Agree (R : α → β → Prop) : Except ε α → Except ε β → Prop
  | error (e : ε) : Agree R (.error e) (.error e)
  | ok {a b} (h : R a b) : Agree R (.ok a) (.ok b)

namespace Except.Agree

variable {R : α → β → Prop} {S : γ → δ → Prop} {x : Except ε α} {y : Except ε β}

theorem of_eq {x y : Except ε α} (h : x = y) : Agree Eq x y := by
  subst h
  cases x with
  | error e => exact .error e
  | ok a => exact .ok rfl

theorem bind (h : Agree R x y) {f : α → Except ε γ} {g : β → Except ε δ}
    (hfg : ∀ a b, x = .ok a → R a b → Agree S (f a) (g b)) : Agree S (x >>= f) (y >>= g) := by
  cases h with
  | error e => exact .error e
  | ok hab => exact hfg _ _ rfl hab

/-- The same first step on both sides. -/
theorem bind_self (x : Except ε α) {f : α → Except ε γ} {g : α → Except ε δ}
    (hfg : ∀ a, x = .ok a → Agree S (f a) (g a)) : Agree S (x >>= f) (x >>= g) :=
  (of_eq rfl).bind fun a _ ha heq => heq ▸ hfg a ha

theorem map_eq (h : Agree R x y) {f : α → γ} {g : β → γ} (hfg : ∀ a b, R a b → f a = g b) :
    x.map f = y.map g := by
  cases h with
  | error e => rfl
  | ok hab => exact congrArg _ (hfg _ _ hab)

end Except.Agree
