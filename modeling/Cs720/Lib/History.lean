import Mathlib.Data.List.Basic

/-! # What has happened, as a list that grows at its end -/

namespace Cs720.Lib

section
variable {E : Type*}

/-- Something with `p` has happened, and nothing with `q` since. -/
def Since (p q : E → Prop) : List E → Prop
  | [] => False
  | e :: l => Since p q l ∨ p e ∧ ∀ x ∈ l, ¬ q x

instance decidableSince (p q : E → Prop) [DecidablePred p] [DecidablePred q] :
    (l : List E) → Decidable (Since p q l)
  | [] => inferInstanceAs (Decidable False)
  | e :: l =>
    have := decidableSince p q l
    inferInstanceAs (Decidable (Since p q l ∨ p e ∧ ∀ x ∈ l, ¬ q x))

/-- Each thing happened after a past with `f`. -/
def Each (f : List E → E → Prop) (l : List E) : Prop :=
  ∀ l₁ e l₂, l = l₁ ++ e :: l₂ → f l₁ e

variable {p q : E → Prop} {l : List E} {e : E}

theorem since_concat : Since p q (l ++ [e]) ↔ p e ∨ ¬ q e ∧ Since p q l := by
  induction l with
  | nil => simp [Since]
  | cons a l ih =>
    rw [List.cons_append, Since, ih, Since]
    simp only [List.mem_append, List.mem_singleton]
    constructor
    · rintro ((he | ⟨hq, hs⟩) | ⟨ha, hl⟩)
      · exact Or.inl he
      · exact Or.inr ⟨hq, Or.inl hs⟩
      · exact Or.inr ⟨hl e (Or.inr rfl), Or.inr ⟨ha, fun x hx => hl x (Or.inl hx)⟩⟩
    · rintro (he | ⟨hq, hs | ⟨ha, hl⟩⟩)
      · exact Or.inl (Or.inl he)
      · exact Or.inl (Or.inr ⟨hq, hs⟩)
      · refine Or.inr ⟨ha, ?_⟩
        rintro x (hx | rfl)
        · exact hl x hx
        · exact hq

/-- Something that is neither changes nothing. -/
theorem since_skip (hp : ¬ p e) (hq : ¬ q e) : Since p q (l ++ [e]) ↔ Since p q l := by
  rw [since_concat]
  simp [hp, hq]

theorem since_of_split {l' : List E} (hp : p e) (hq : ∀ x ∈ l', ¬ q x) :
    Since p q (l ++ e :: l') := by
  induction l with
  | nil => exact Or.inr ⟨hp, hq⟩
  | cons a l ih => exact Or.inl ih

/-- After something with `q` only what follows it counts. -/
theorem since_past {l' : List E} (hp : ¬ p e) (hq : q e) (h : Since p q (l ++ e :: l')) :
    Since p q l' := by
  induction l with
  | nil =>
    rcases h with h | ⟨he, -⟩
    · exact h
    · exact absurd he hp
  | cons a l ih =>
    rcases h with h | ⟨-, hall⟩
    · exact ih h
    · exact absurd hq (hall e (by simp))

theorem since_exists (h : Since p q l) : ∃ x ∈ l, p x := by
  induction l with
  | nil => exact h.elim
  | cons a l ih =>
    rcases h with h | ⟨ha, -⟩
    · obtain ⟨x, hx, hpx⟩ := ih h
      exact ⟨x, List.mem_cons_of_mem _ hx, hpx⟩
    · exact ⟨a, List.mem_cons_self, ha⟩

theorem each_nil {f : List E → E → Prop} : Each f [] := by
  intro l₁ e l₂ h
  simp at h

theorem each_concat {f : List E → E → Prop} : Each f (l ++ [e]) ↔ Each f l ∧ f l e := by
  constructor
  · intro h
    refine ⟨fun l₁ x l₂ hl => h l₁ x (l₂ ++ [e]) (by rw [hl]; simp), h l e [] rfl⟩
  · rintro ⟨hl, he⟩ l₁ x l₂ heq
    rcases List.eq_nil_or_concat l₂ with rfl | ⟨l₃, y, rfl⟩
    · obtain ⟨rfl, hx⟩ := List.append_inj' heq rfl
      cases hx
      exact he
    · have heq : l ++ [e] = (l₁ ++ x :: l₃) ++ [y] := by simpa using heq
      obtain ⟨rfl, -⟩ := List.append_inj' heq rfl
      exact hl l₁ x l₃ rfl

end

end Cs720.Lib
