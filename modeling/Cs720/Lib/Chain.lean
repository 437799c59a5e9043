import Mathlib.Logic.Function.Iterate
import Mathlib.Tactic.Common

/-! # Following a link until it is over

The chain from `w` is `w`, `next w`, `next (next w)`, … up to the first one that is `stop`.
-/

namespace Cs720.Lib

section
variable {α : Type*} (next : α → α) (stop : α → Prop)

/-- After at most `k` links. -/
def EndsIn (k : Nat) (w : α) : Prop := ∃ j ≤ k, stop (next^[j] w)

def Ends (w : α) : Prop := ∃ k, EndsIn next stop k w

/-- What the chain comes to has `p`. -/
def AllAlong (p : α → Prop) (w : α) : Prop :=
  ∀ k, (∀ j ≤ k, ¬ stop (next^[j] w)) → p (next^[k] w)

variable {next stop} {p : α → Prop} {k j : Nat} {w : α}

theorem endsIn_mono (hkj : k ≤ j) (h : EndsIn next stop k w) : EndsIn next stop j w := by
  obtain ⟨i, hi, h⟩ := h
  exact ⟨i, by omega, h⟩

theorem endsIn_zero (h : EndsIn next stop 0 w) : stop w := by
  obtain ⟨j, hj, h⟩ := h
  obtain rfl : j = 0 := by omega
  exact h

theorem endsIn_of_over (k : Nat) (h : stop w) : EndsIn next stop k w := ⟨0, by omega, h⟩

theorem endsIn_next (hw : ¬ stop w) (h : EndsIn next stop (k + 1) w) :
    EndsIn next stop k (next w) := by
  obtain ⟨j, hj, h⟩ := h
  cases j with
  | zero => exact absurd h hw
  | succ j => exact ⟨j, by omega, h⟩

theorem ends_of_next (h : Ends next stop (next w)) : Ends next stop w := by
  obtain ⟨k, j, hj, h⟩ := h
  exact ⟨j + 1, j + 1, Nat.le_refl _, h⟩

theorem ends_of_over (h : stop w) : Ends next stop w := ⟨0, endsIn_of_over 0 h⟩

/-- Finitely many chains that end have a common bound. -/
theorem ends_bound {β : Type*} (f : β → α) {l : List β} (h : ∀ b ∈ l, Ends next stop (f b)) :
    ∃ k, ∀ b ∈ l, EndsIn next stop k (f b) := by
  induction l with
  | nil => exact ⟨0, by simp⟩
  | cons b l ih =>
    obtain ⟨hb, hl⟩ := List.forall_mem_cons.mp h
    obtain ⟨k, hk⟩ := hb
    obtain ⟨j, hj⟩ := ih hl
    exact ⟨max k j, List.forall_mem_cons.mpr ⟨endsIn_mono (Nat.le_max_left k j) hk,
      fun c hc => endsIn_mono (Nat.le_max_right k j) (hj c hc)⟩⟩

theorem allAlong_of_over (h : stop w) : AllAlong next stop p w := by
  intro k hk
  exact absurd h (hk 0 (by omega))

theorem allAlong_next (hw : ¬ stop w) :
    AllAlong next stop p w ↔ p w ∧ AllAlong next stop p (next w) := by
  constructor
  · intro h
    refine ⟨h 0 fun j hj => ?_, fun k hk => h (k + 1) fun j hj => ?_⟩
    · obtain rfl : j = 0 := by omega
      exact hw
    · cases j with
      | zero => exact hw
      | succ j => exact hk j (by omega)
  · rintro ⟨hp, h⟩ k hk
    cases k with
    | zero => exact hp
    | succ k => exact h k fun j hj => hk (j + 1) (by omega)

end

end Cs720.Lib
