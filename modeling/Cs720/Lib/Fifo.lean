import Mathlib.Data.List.Basic

/-! # What goes through a queue

A queue that only grows at its end and only shrinks at its front.
-/

namespace Cs720.Lib

section
variable {α : Type*} {q q' q'' pushed popped popped' : List α} {p : α} {k : Nat}

/-- The queue `q` has come to `q'`, and `popped` has left it. -/
def Passes (q popped q' : List α) : Prop := ∃ pushed, q ++ pushed = popped ++ q'

theorem passes_refl : Passes q [] q := ⟨[], List.append_nil q⟩

theorem passes_push (h : q' = q ++ pushed) : Passes q [] q' := ⟨pushed, h.symm⟩

theorem passes_pop (h : q = p :: q') : Passes q [p] q' := ⟨[], by rw [h]; simp⟩

theorem Passes.trans (h : Passes q popped q') (h' : Passes q' popped' q'') :
    Passes q (popped ++ popped') q'' := by
  obtain ⟨pushed, h⟩ := h
  obtain ⟨pushed', h'⟩ := h'
  refine ⟨pushed ++ pushed', ?_⟩
  rw [← List.append_assoc, h, List.append_assoc, h', List.append_assoc]

/-- What is at the place `k` leaves after `k` others. -/
theorem Passes.served (h : Passes q popped q') (hp : q[k]? = some p) (hk : k < popped.length) :
    popped[k]? = some p := by
  obtain ⟨pushed, h⟩ := h
  obtain ⟨hlt, -⟩ := List.getElem?_eq_some_iff.mp hp
  have hleft : (popped ++ q')[k]? = popped[k]? := List.getElem?_append_left hk
  rw [← hleft, ← h, List.getElem?_append_left hlt, hp]

/-- Until then it moves up by one place with each that leaves. -/
theorem Passes.waits (h : Passes q popped q') (hp : q[k]? = some p) (hk : popped.length ≤ k) :
    q'[k - popped.length]? = some p := by
  obtain ⟨pushed, h⟩ := h
  obtain ⟨hlt, -⟩ := List.getElem?_eq_some_iff.mp hp
  rw [← List.getElem?_append_right hk, ← h, List.getElem?_append_left hlt, hp]

end

end Cs720.Lib
