import Mathlib.Logic.Relation
import Cs720.Lib.Interleave

/-! # What one thread gets done among others

`Gets step R G i Q n s`: from `s`, when the other threads make steps of `R` in between, the next `n`
steps of the thread `i` do not fail, they are steps of `G`, and then `Q` holds. Threads that rely on
no more than the others guarantee get all this done in every schedule (`all_get`).
-/

namespace Cs720.Lib

/-- Steps of `R` keep `P`. -/
def Stable {S : Type} (R : S → S → Prop) (P : S → Prop) : Prop := ∀ s s', R s s' → P s → P s'

section
variable {I S : Type} (step : I → S → C S) (R G : S → S → Prop) (i : I)

def Gets (Q : S → Prop) : Nat → S → Prop
  | 0, s => ∀ s', Relation.ReflTransGen R s s' → Q s'
  | n + 1, s => ∀ s', Relation.ReflTransGen R s s' →
      ∃ t, step i s' = .ok t ∧ G s' t ∧ Gets Q n t

variable {step R G i} {P Q Q' : S → Prop} {n k : Nat} {s s' : S}

theorem Stable.run (h : Stable R P) (hrun : Relation.ReflTransGen R s s') (hs : P s) : P s' := by
  induction hrun with
  | refl => exact hs
  | tail _ hstep ih => exact h _ _ hstep ih

/-! ## Rules -/

/-- The others do not get in the way. -/
theorem Gets.env (h : Gets step R G i Q n s) (hstep : R s s') : Gets step R G i Q n s' := by
  cases n with
  | zero => exact fun t ht => h t (.head hstep ht)
  | succ n => exact fun t ht => h t (.head hstep ht)

theorem gets_done (hQ : Stable R Q) (hs : Q s) : Gets step R G i Q 0 s :=
  fun _ hrun => hQ.run hrun hs

/-- The rule of consequence. -/
theorem Gets.mono (h : Gets step R G i Q n s) (hQ : ∀ s, Q s → Q' s) :
    Gets step R G i Q' n s := by
  induction n generalizing s with
  | zero => exact fun s' hrun => hQ s' (h s' hrun)
  | succ n ih =>
    intro s' hrun
    obtain ⟨t, ht, hG, h⟩ := h s' hrun
    exact ⟨t, ht, hG, ih h⟩

/-- The rule for one step. -/
theorem gets_step (hP : Stable R P) (hs : P s)
    (h : ∀ s, P s → ∃ t, step i s = .ok t ∧ G s t ∧ Gets step R G i Q n t) :
    Gets step R G i Q (n + 1) s :=
  fun s' hrun => h s' (hP.run hrun hs)

/-- The rule for a sequence. -/
theorem Gets.trans (h : Gets step R G i Q n s) (h' : ∀ s, Q s → Gets step R G i Q' k s) :
    Gets step R G i Q' (n + k) s := by
  induction n generalizing s with
  | zero =>
    rw [Nat.zero_add]
    exact h' s (h s .refl)
  | succ n ih =>
    rw [Nat.add_right_comm]
    intro s' hrun
    obtain ⟨t, ht, hG, h⟩ := h s' hrun
    exact ⟨t, ht, hG, ih h⟩

/-- The rule for a loop that has `n` turns to go, of `k` steps each. -/
theorem gets_loop {J : Nat → S → Prop} (h0 : Stable R (J 0))
    (h : ∀ n s, J (n + 1) s → Gets step R G i (J n) k s) (hs : J n s) :
    Gets step R G i (J 0) (n * k) s := by
  induction n generalizing s with
  | zero =>
    rw [Nat.zero_mul]
    exact gets_done h0 hs
  | succ n ih =>
    rw [Nat.add_one_mul, Nat.add_comm]
    exact (h n s hs).trans fun t ht => ih ht

/-- A thread that has ended has got it done. -/
theorem Gets.ended (h : Gets step R G i Q n s) (hs : step i s = .ok s) : Q s := by
  induction n with
  | zero => exact h s .refl
  | succ n ih =>
    obtain ⟨t, ht, -, h⟩ := h s .refl
    cases hs.symm.trans ht
    exact ih h

end

/-! ## All threads -/

section
variable {I S : Type} [DecidableEq I] {step : I → S → C S} {R G : I → S → S → Prop}
  {Q : I → S → Prop} {n : I → Nat} {s : S}

/-- The rule for threads in parallel. -/
theorem all_get (hG : ∀ i j s s', i ≠ j → G i s s' → R j s s')
    (hend : ∀ i s, Q i s → step i s = .ok s)
    (h : ∀ i, Gets step (R i) (G i) i (Q i) (n i) s) (is : List I) :
    ∃ t, playFrom step is s = .ok t ∧ Relation.ReflTransGen (fun s s' => ∃ i, G i s s') s t ∧
      ∀ i, Gets step (R i) (G i) i (Q i) (n i - is.count i) t := by
  induction is generalizing s n with
  | nil => exact ⟨s, rfl, .refl, h⟩
  | cons j is ih =>
    rcases hn : n j with _ | k
    · have hj := hend j s ((hn ▸ h j : Gets step (R j) (G j) j (Q j) 0 s) s .refl)
      obtain ⟨t, ht, hrun, hgets⟩ := ih h
      refine ⟨t, by rw [playFrom, hj]; exact ht, hrun, fun i => ?_⟩
      rcases eq_or_ne i j with rfl | hij
      · have hgets := hgets i
        rw [hn, Nat.zero_sub] at hgets ⊢
        exact hgets
      · rw [List.count_cons_of_ne hij.symm]
        exact hgets i
    · obtain ⟨s', hs', hGs, hj⟩ := (hn ▸ h j : Gets step (R j) (G j) j (Q j) (k + 1) s) s .refl
      obtain ⟨t, ht, hrun, hgets⟩ := ih (s := s') (n := Function.update n j k) fun i => by
        rcases eq_or_ne i j with rfl | hij
        · rw [Function.update_self]
          exact hj
        · rw [Function.update_of_ne hij]
          exact (h i).env (hG j i s s' hij.symm hGs)
      refine ⟨t, by rw [playFrom, hs']; exact ht, .head ⟨j, hGs⟩ hrun, fun i => ?_⟩
      have hgets := hgets i
      rcases eq_or_ne i j with rfl | hij
      · rw [Function.update_self] at hgets
        rw [hn, List.count_cons_self, Nat.add_sub_add_right]
        exact hgets
      · rw [Function.update_of_ne hij] at hgets
        rw [List.count_cons_of_ne hij.symm]
        exact hgets

end

end Cs720.Lib
