import Cs720.Lib.Loop

/-! # Schedules of a system with several threads

`step i s` is what the thread `i` does in the state `s`. A schedule is a list of threads. A thread
that has ended does nothing.
-/

namespace Cs720.Lib

section
variable {I S : Type} (step : I → S → C S)

def playFrom : List I → S → C S
  | [], s => .ok s
  | i :: is, s => step i s >>= playFrom is

/-- `P` holds of each step that the schedule makes. -/
def Along (P : I → S → Prop) : List I → S → Prop
  | [], _ => True
  | i :: is, s => P i s ∧ ∀ s', step i s = .ok s' → Along P is s'

/-- All threads have ended. -/
def Ended (s : S) : Prop := ∀ i, step i s = .ok s

variable {step}

/-- The invariant rule. -/
theorem playFrom_inv {P : S → Prop} (hstep : ∀ i s s', P s → step i s = .ok s' → P s')
    {is : List I} {s t : S} (hs : P s) (h : playFrom step is s = .ok t) : P t := by
  induction is generalizing s with
  | nil => cases h; exact hs
  | cons i is ih =>
    rw [playFrom, bind_ok] at h
    obtain ⟨s', hi, h⟩ := h
    exact ih (hstep i s s' hs hi) h

/-- The invariant rule, for steps that do not fail. -/
theorem playFrom_total {P : S → Prop} (hstep : ∀ i s, P s → ∃ s', step i s = .ok s' ∧ P s')
    {is : List I} {s : S} (hs : P s) : ∃ t, playFrom step is s = .ok t ∧ P t := by
  induction is generalizing s with
  | nil => exact ⟨s, rfl, hs⟩
  | cons i is ih =>
    obtain ⟨s', hi, hs'⟩ := hstep i s hs
    obtain ⟨t, ht, hP⟩ := ih hs'
    exact ⟨t, by rw [playFrom, hi]; exact ht, hP⟩

/-- The invariant rule, for a schedule whose steps have `P`, and which can stop with `e`. -/
theorem playFrom_stops {P : I → S → Prop} {J : S → Prop} {e : Stop}
    (hstep : ∀ i s, J s → P i s → step i s = .error e ∨ ∃ s', step i s = .ok s' ∧ J s')
    {is : List I} {s : S} (hs : J s) (h : Along step P is s) :
    playFrom step is s = .error e ∨ ∃ t, playFrom step is s = .ok t ∧ J t := by
  induction is generalizing s with
  | nil => exact Or.inr ⟨s, rfl, hs⟩
  | cons i is ih =>
    obtain ⟨hP, h⟩ := h
    rcases hstep i s hs hP with he | ⟨s', hi, hs'⟩
    · exact Or.inl (by rw [playFrom, he]; rfl)
    · rw [playFrom, hi]
      exact ih hs' (h s' hi)

/-- The invariant rule, for a schedule whose steps have `P`. -/
theorem playFrom_along {P : I → S → Prop} {J : S → Prop}
    (hstep : ∀ i s, J s → P i s → ∃ s', step i s = .ok s' ∧ J s') {is : List I} {s : S} (hs : J s)
    (h : Along step P is s) : ∃ t, playFrom step is s = .ok t ∧ J t := by
  induction is generalizing s with
  | nil => exact ⟨s, rfl, hs⟩
  | cons i is ih =>
    obtain ⟨hP, h⟩ := h
    obtain ⟨s', hi, hs'⟩ := hstep i s hs hP
    obtain ⟨t, ht, hJ⟩ := ih hs' (h s' hi)
    exact ⟨t, by rw [playFrom, hi]; exact ht, hJ⟩

/-- The invariant rule, for a schedule whose steps have `P`, up to its end. -/
theorem playFrom_keeps {P : I → S → Prop} {J : S → Prop}
    (hstep : ∀ i s s', J s → P i s → step i s = .ok s' → J s') {is : List I} {s t : S} (hs : J s)
    (h : Along step P is s) (ht : playFrom step is s = .ok t) : J t := by
  induction is generalizing s with
  | nil =>
    cases ht
    exact hs
  | cons i is ih =>
    rw [playFrom, bind_ok] at ht
    obtain ⟨s', hi, ht⟩ := ht
    exact ih (hstep i s s' hs h.1 hi) (h.2 s' hi) ht

theorem playFrom_ended {is : List I} {s t : S} (hs : Ended step s)
    (h : playFrom step is s = .ok t) : t = s := by
  refine playFrom_inv (P := fun u => u = s) ?_ rfl h
  rintro i _ s' rfl hi
  rw [hs i] at hi
  cases hi
  rfl

theorem playFrom_append {is js : List I} {s : S} :
    playFrom step (is ++ js) s = playFrom step is s >>= playFrom step js := by
  induction is generalizing s with
  | nil => rfl
  | cons i is ih =>
    rw [List.cons_append, playFrom, playFrom, bind_assoc]
    exact bind_congr fun s' => ih

theorem playFrom_trans {is js : List I} {s t u : S} (h : playFrom step is s = .ok t)
    (h' : playFrom step js t = .ok u) : playFrom step (is ++ js) s = .ok u := by
  rw [playFrom_append, h]
  exact h'

/-- A run that fails has come to a step that fails. -/
theorem playFrom_error {is : List I} {s : S} {e : Stop} (h : playFrom step is s = .error e) :
    ∃ js i t, playFrom step js s = .ok t ∧ step i t = .error e := by
  induction is generalizing s with
  | nil => cases h
  | cons i is ih =>
    rw [playFrom, bind_error] at h
    rcases h with h | ⟨s', hi, h⟩
    · exact ⟨[], i, s, rfl, h⟩
    · obtain ⟨js, j, t, hrun, hj⟩ := ih h
      exact ⟨i :: js, j, t, by rw [playFrom, hi]; exact hrun, hj⟩

/-- What is left of a schedule whose steps have `P`. -/
theorem along_rest {P : I → S → Prop} {is js : List I} {s t : S} (h : Along step P (is ++ js) s)
    (hs : playFrom step is s = .ok t) : Along step P js t := by
  induction is generalizing s with
  | nil =>
    cases hs
    exact h
  | cons i is ih =>
    rw [playFrom, bind_ok] at hs
    obtain ⟨s', hi, hs⟩ := hs
    exact ih (h.2 s' hi) hs

theorem along_and {P Q : I → S → Prop} {is : List I} {s : S} (hP : Along step P is s)
    (hQ : Along step Q is s) : Along step (fun i s => P i s ∧ Q i s) is s := by
  induction is generalizing s with
  | nil => trivial
  | cons i is ih => exact ⟨⟨hP.1, hQ.1⟩, fun s' hi => ih (hP.2 s' hi) (hQ.2 s' hi)⟩

theorem along_iff {P Q : I → S → Prop} {J : S → Prop}
    (hstep : ∀ i s s', J s → step i s = .ok s' → J s')
    (hiff : ∀ i s, J s → (P i s ↔ Q i s)) {is : List I} {s : S} (hs : J s) :
    Along step P is s ↔ Along step Q is s := by
  induction is generalizing s with
  | nil => exact Iff.rfl
  | cons i is ih =>
    unfold Along
    rw [hiff i s hs]
    refine and_congr_right fun _ => forall_congr' fun s' => ?_
    exact imp_congr_right fun hi => ih (hstep i s s' hs hi)

theorem along_imp {P Q : I → S → Prop} {J : S → Prop}
    (hstep : ∀ i s s', J s → P i s → step i s = .ok s' → J s')
    (himp : ∀ i s, J s → P i s → Q i s) {is : List I} {s : S} (hs : J s)
    (h : Along step P is s) : Along step Q is s := by
  induction is generalizing s with
  | nil => trivial
  | cons i is ih =>
    obtain ⟨hP, h⟩ := h
    refine ⟨himp i s hs hP, ?_⟩
    intro s' hi
    exact ih (hstep i s s' hs hP hi) (h s' hi)

/-! ## Steps that can be swapped -/

section
variable {P : S → Prop} (hstep : ∀ i s s', P s → step i s = .ok s' → P s')
  (hswap : ∀ i j s a b, i ≠ j → P s → step i s = .ok a → step j s = .ok b →
    ∃ t, step j a = .ok t ∧ step i b = .ok t)

include hstep hswap

/-- What is left of a schedule after a step of `i`. -/
theorem playFrom_residual {is : List I} {i : I} {s a t : S} (hs : P s) (ht : Ended step t)
    (hi : step i s = .ok a) (h : playFrom step is s = .ok t) :
    ∃ js, playFrom step js a = .ok t := by
  induction is generalizing s a with
  | nil =>
    have hst : s = t := by cases h; rfl
    rw [hst, ht i] at hi
    exact ⟨[], hi.symm ▸ rfl⟩
  | cons j is ih =>
    rw [playFrom, bind_ok] at h
    obtain ⟨b, hj, h⟩ := h
    by_cases hij : i = j
    · subst hij
      obtain rfl : b = a := by rw [hi] at hj; cases hj; rfl
      exact ⟨is, h⟩
    · obtain ⟨c, hja, hib⟩ := hswap i j s a b hij hs hi hj
      obtain ⟨js, hjs⟩ := ih (hstep j s b hs hj) hib h
      refine ⟨j :: js, ?_⟩
      rw [playFrom, hja]
      exact hjs

/-- All schedules to the end have the same end. -/
theorem playFrom_unique {is js : List I} {s t u : S} (hs : P s)
    (his : playFrom step is s = .ok t) (hjs : playFrom step js s = .ok u)
    (ht : Ended step t) (hu : Ended step u) : t = u := by
  induction is generalizing s js with
  | nil =>
    cases his
    exact (playFrom_ended ht hjs).symm
  | cons i is ih =>
    rw [playFrom, bind_ok] at his
    obtain ⟨a, hi, his⟩ := his
    obtain ⟨ks, hks⟩ := playFrom_residual hstep hswap hs hu hi hjs
    exact ih (hstep i s a hs hi) his hks

end

end

end Cs720.Lib
