import Mathlib.Data.Nat.Find
import Cs720.Lib.Interleave

/-! # Fair schedules

A schedule without an end is fair to some threads if each of them has a turn again and again. From a
state some step of a helpful thread makes a rank fall, and the steps of the others do not undo it.
-/

namespace Cs720.Lib

section
variable {I S : Type} {step : I → S → C S} {ps : I → Prop} {f : Nat → I}

/-- Each thread of `ps` has a turn after every other turn. -/
def Fair (ps : I → Prop) (f : Nat → I) : Prop := ∀ i, ps i → ∀ n, ∃ m ≥ n, f m = i

/-- The first `n` turns. -/
def turns (f : Nat → I) (n : Nat) : List I := (List.range n).map f

theorem turns_succ (n : Nat) : turns f (n + 1) = f 0 :: turns (fun k => f (k + 1)) n := by
  unfold turns
  rw [List.range_succ_eq_map, List.map_cons, List.map_map]
  rfl

theorem Fair.shift (h : Fair ps f) : Fair ps fun k => f (k + 1) := by
  intro i hi n
  obtain ⟨m, hm, hf⟩ := h i hi (n + 1)
  obtain ⟨k, rfl⟩ : ∃ k, m = k + 1 := ⟨m - 1, by omega⟩
  exact ⟨k, by omega, hf⟩

theorem playFrom_turns {n : Nat} {s t u : S} (ht : step (f 0) s = .ok t)
    (hu : playFrom step (turns (fun k => f (k + 1)) n) t = .ok u) :
    playFrom step (turns f (n + 1)) s = .ok u := by
  rw [turns_succ, playFrom, ht]
  exact hu

/-- The rule for what a fair schedule comes to. In a state with `R r h` the rank is `r` and `h` is
the helpful thread. -/
theorem fair_comes {R : Nat → I → S → Prop} {goal : S → Prop}
    (hin : ∀ r h s, R r h s → ps h)
    (hstep : ∀ r h s i, R r h s → ∃ t, step i s = .ok t ∧
      (goal t ∨ ∃ r' h', R r' h' t ∧ (r' < r ∨ r' = r ∧ h' = h ∧ i ≠ h)))
    (hf : Fair ps f) {r : Nat} {h : I} {s : S} (hs : R r h s) :
    ∃ n t, playFrom step (turns f n) s = .ok t ∧ goal t := by
  induction r using Nat.strong_induction_on generalizing f h s with
  | _ r ih =>
    -- The rank falls at the next turn of `h` at the latest.
    obtain ⟨m, -, hm⟩ := hf h (hin r h s hs) 0
    induction m generalizing f s with
    | zero =>
      obtain ⟨t, ht, hgoal | ⟨r', h', hR, hr | ⟨-, -, hne⟩⟩⟩ := hstep r h s (f 0) hs
      · exact ⟨1, t, playFrom_turns ht rfl, hgoal⟩
      · obtain ⟨n, u, hu, hgoal⟩ := ih r' hr hf.shift hR
        exact ⟨n + 1, u, playFrom_turns ht hu, hgoal⟩
      · exact absurd hm hne
    | succ m ihm =>
      obtain ⟨t, ht, hgoal | ⟨r', h', hR, hr | ⟨rfl, rfl, -⟩⟩⟩ := hstep r h s (f 0) hs
      · exact ⟨1, t, playFrom_turns ht rfl, hgoal⟩
      · obtain ⟨n, u, hu, hgoal⟩ := ih r' hr hf.shift hR
        exact ⟨n + 1, u, playFrom_turns ht hu, hgoal⟩
      · obtain ⟨n, u, hu, hgoal⟩ := ihm hf.shift hR hm
        exact ⟨n + 1, u, playFrom_turns ht hu, hgoal⟩

end

end Cs720.Lib
