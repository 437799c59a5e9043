import Cs720.Lib.Run

/-! # Two runs, side by side -/

namespace Cs720.Lib

section
variable {σ α β : Type}

/-- Two runs end in the same way: with one value, in states that `R` relates, or with one error. -/
def Alike (R : σ → σ → Prop) (x y : C (α × σ)) : Prop :=
  (∃ a s t, x = .ok (a, s) ∧ y = .ok (a, t) ∧ R s t) ∨ ∃ e, x = .error e ∧ y = .error e

/-- From states that `R` relates the programs end in the same way. -/
def Twin (R : σ → σ → Prop) (x y : StateT σ C α) : Prop := ∀ s t, R s t → Alike R (x s) (y t)

variable {R S : σ → σ → Prop} {s t : σ}

theorem alike_mono {x y : C (α × σ)} (h : Alike R x y) (hS : ∀ s t, R s t → S s t) :
    Alike S x y := by
  rcases h with ⟨a, s, t, hx, hy, h⟩ | h
  · exact Or.inl ⟨a, s, t, hx, hy, hS s t h⟩
  · exact Or.inr h

theorem alike_error (e : Stop) : Alike R (.error e : C (α × σ)) (.error e) := Or.inr ⟨e, rfl, rfl⟩

theorem alike_bind {x y : StateT σ C α} {f g : α → StateT σ C β} (hx : Alike R (x s) (y t))
    (hf : ∀ a s t, R s t → Alike S (f a s) (g a t)) : Alike S ((x >>= f) s) ((y >>= g) t) := by
  rw [run_bind, run_bind]
  rcases hx with ⟨a, s₁, t₁, hs, ht, h⟩ | ⟨e, hs, ht⟩
  · rw [hs, ht]
    exact hf a s₁ t₁ h
  · rw [hs, ht]
    exact alike_error e

theorem twin_pure (a : α) : Twin R (pure a) (pure a) :=
  fun s t h => Or.inl ⟨a, s, t, rfl, rfl, h⟩

theorem twin_bind {x y : StateT σ C α} {f g : α → StateT σ C β} (hx : Twin R x y)
    (hf : ∀ a, Twin R (f a) (g a)) : Twin R (x >>= f) (y >>= g) :=
  fun s t h => alike_bind (hx s t h) hf

theorem twin_ite {c : Prop} [Decidable c] {x y x' y' : StateT σ C α} (hx : Twin R x x')
    (hy : Twin R y y') : Twin R (if c then x else y) (if c then x' else y') := by
  split
  · exact hx
  · exact hy

/-- What the first run keeps can be added to the relation. -/
theorem twin_and {I : σ → Prop} {x y : StateT σ C α} (h : Twin R x y)
    (hI : ∀ s a s₁, I s → x s = .ok (a, s₁) → I s₁) : Twin (fun s t => R s t ∧ I s) x y := by
  rintro s t ⟨hR, hs⟩
  rcases h s t hR with ⟨a, s₁, t₁, hx, hy, h₁⟩ | he
  · exact Or.inl ⟨a, s₁, t₁, hx, hy, h₁, hI s a s₁ hs hx⟩
  · exact Or.inr he

end

end Cs720.Lib
