import Cs720.Lib.Loop

/-! # Running a program that has a state -/

namespace Cs720.Lib

section
variable {σ α β : Type} {s : σ}

@[simp] theorem run_pure (a : α) : (pure a : StateT σ C α) s = .ok (a, s) := rfl

@[simp] theorem run_bind (x : StateT σ C α) (g : α → StateT σ C β) :
    (x >>= g) s = x s >>= fun r => g r.1 r.2 := rfl

@[simp] theorem run_map (g : α → β) (x : StateT σ C α) :
    (g <$> x) s = x s >>= fun r => .ok (g r.1, r.2) := rfl

@[simp] theorem ok_bind (a : α) (g : α → C β) : ((.ok a : C α) >>= g) = g a := rfl

@[simp] theorem error_bind (e : Stop) (g : α → C β) : ((.error e : C α) >>= g) = .error e := rfl

@[simp] theorem run_get : (get : StateT σ C σ) s = .ok (s, s) := rfl

@[simp] theorem run_modify (g : σ → σ) : (modify g : StateT σ C Unit) s = .ok ((), g s) := rfl

@[simp] theorem run_ite (c : Prop) [Decidable c] (x y : StateT σ C α) :
    (if c then x else y) s = if c then x s else y s := by
  split <;> rfl

end

end Cs720.Lib
