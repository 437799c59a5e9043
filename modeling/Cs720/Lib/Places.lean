import Mathlib.Data.List.Nodup
import Mathlib.Logic.Function.Basic
import Mathlib.Tactic.Common

/-! # Queues in which everything waits at one place

`loc x` is the place where `x` waits, if it waits, and `queue p` is the queue at the place `p`.
-/

namespace Cs720.Lib

section
variable {T P : Type*}

/-- The queues hold what `loc` says, each thing once. -/
structure Located (loc : T → Option P) (queue : P → List T) : Prop where
  mem : ∀ {x p}, x ∈ queue p ↔ loc x = some p
  nodup : ∀ p, (queue p).Nodup

variable {loc : T → Option P} {queue : P → List T}

theorem located_count [DecidableEq T] (h : Located loc queue) {x : T} {p : P}
    (hx : loc x = some p) : (queue p).count x = 1 :=
  List.count_eq_one_of_mem (h.nodup p) (h.mem.mpr hx)

variable [DecidableEq T] [DecidableEq P]

/-- Something that waits nowhere joins a queue. -/
theorem located_push (h : Located loc queue) {x : T} (hx : loc x = none) (p : P) :
    Located (Function.update loc x (some p)) (Function.update queue p (queue p ++ [x])) := by
  have hout : ∀ q, x ∉ queue q := by
    intro q hq
    rw [h.mem, hx] at hq
    contradiction
  refine ⟨?_, ?_⟩
  · intro y q
    by_cases hy : y = x
    · subst hy
      rw [Function.update_self]
      by_cases hq : q = p
      · subst hq
        simp
      · rw [Function.update_of_ne hq, Option.some_inj]
        exact ⟨fun h => absurd h (hout q), fun h => absurd h.symm hq⟩
    · rw [Function.update_of_ne hy, ← h.mem]
      by_cases hq : q = p
      · subst hq
        simp [hy]
      · rw [Function.update_of_ne hq]
  · intro q
    by_cases hq : q = p
    · subst hq
      rw [Function.update_self]
      exact List.nodup_append.mpr ⟨h.nodup q, List.nodup_singleton x, fun a ha b hb => by
        rw [List.mem_singleton.mp hb]
        rintro rfl
        exact hout q ha⟩
    · rw [Function.update_of_ne hq]
      exact h.nodup q

/-- The front of a queue leaves it. -/
theorem located_pop (h : Located loc queue) {x : T} {xs : List T} {p : P}
    (hq : queue p = x :: xs) :
    Located (Function.update loc x none) (Function.update queue p xs) := by
  have hnodup := h.nodup p
  rw [hq, List.nodup_cons] at hnodup
  have hx : loc x = some p := by
    rw [← h.mem, hq]
    simp
  refine ⟨?_, ?_⟩
  · intro y q
    by_cases hy : y = x
    · subst hy
      rw [Function.update_self]
      by_cases hqp : q = p
      · subst hqp
        simp [hnodup.1]
      · rw [Function.update_of_ne hqp, h.mem, hx, Option.some_inj]
        exact ⟨fun h => absurd h.symm hqp, fun h => by contradiction⟩
    · rw [Function.update_of_ne hy]
      by_cases hqp : q = p
      · subst hqp
        rw [Function.update_self, ← h.mem, hq]
        simp [hy]
      · rw [Function.update_of_ne hqp, h.mem]
  · intro q
    by_cases hqp : q = p
    · subst hqp
      rw [Function.update_self]
      exact hnodup.2
    · rw [Function.update_of_ne hqp]
      exact h.nodup q

end

end Cs720.Lib
