import Cs720.Lib.Tortoise
import Cs720.Threads.Invariant

/-! # `detect_deadlock`

The loop is the race of the tortoise and the hare along the observers.
-/

namespace Cs720.Threads

open Cs720.Lib

def orNull (p : Ptr) : Option Ptr := if p = 0 then none else some p

@[simp] theorem orNull_zero : orNull 0 = none := rfl

theorem orNull_ne {p : Ptr} (hp : p ≠ 0) : orNull p = some p := if_neg hp

/-- The thread that waits for `p` to terminate. -/
def State.link (s : State) (p : Ptr) : Option Ptr :=
  if s.live p = true then orNull (s.tcb p).observer else none

theorem link_eq {s : State} {p q : Ptr} :
    s.link p = some q ↔ s.live p = true ∧ (s.tcb p).observer = q ∧ q ≠ 0 := by
  unfold State.link orNull
  by_cases hl : s.live p = true
  · by_cases ho : (s.tcb p).observer = 0
    · simp [hl, ho]
      exact fun h => h.symm
    · simp only [hl, ho, if_true, if_false, Option.some_inj, true_and]
      constructor
      · rintro rfl
        exact ⟨rfl, ho⟩
      · exact fun h => h.1
  · simp [hl]

section
variable {s : State} {T : Table} {p : Ptr}

theorem look_live (hp : s.live p = true) : look s p = .ok (s.tcb p) := by
  unfold look
  rw [if_pos hp]

theorem link_live (hp : s.live p = true) : s.link p = orNull (s.tcb p).observer := if_pos hp

/-- A pointer that can be followed: NULL, or to a TCB. -/
def Sound (s : State) (p : Ptr) : Prop := p = 0 ∨ s.live p = true

/-- One round of the loop is one round of the race. -/
theorem detectStep_race (h : TableOk s T)
    (hobs : ∀ {p}, s.live p = true → Sound s (s.tcb p).observer) {a b : Ptr} (ha : s.live a = true)
    (hb : s.live b = true) :
    (detectStep s (a, b) = .ok (.done false) ∧
      raceStep s.link (some a, some b) = .ok (.done false)) ∨
    (detectStep s (a, b) = .ok (.done true) ∧
      raceStep s.link (some a, some b) = .ok (.done true)) ∨
    ∃ c d, Sound s c ∧ Sound s d ∧ detectStep s (a, b) = .ok (.next (c, d)) ∧
      raceStep s.link (some a, some b) = .ok (.next (orNull c, orNull d)) := by
  have ha0 := h.ne_zero ha
  have hb0 := h.ne_zero hb
  by_cases hf : (s.tcb b).observer = 0
  · left
    simp [detectStep, raceStep, look_live, hb, hf, ha0, hb0, link_live]
  have hahead : s.live (s.tcb b).observer = true := (hobs hb).resolve_left hf
  have hlb : s.link b = some (s.tcb b).observer := by rw [link_live hb, orNull_ne hf]
  have hla : s.link a = orNull (s.tcb a).observer := link_live ha
  have hlo : s.link (s.tcb b).observer = orNull (s.tcb (s.tcb b).observer).observer :=
    link_live hahead
  have hrace : raceStep s.link (some a, some b) =
      if orNull (s.tcb a).observer ≠ none ∧
        orNull (s.tcb a).observer = orNull (s.tcb (s.tcb b).observer).observer then .ok (.done true)
      else .ok (.next (orNull (s.tcb a).observer, orNull (s.tcb (s.tcb b).observer).observer)) := by
    simp only [raceStep, hlb, hla, hlo]
  by_cases hboth : (s.tcb a).observer ≠ 0 ∧ (s.tcb (s.tcb b).observer).observer ≠ 0
  · have hca := (hobs ha).resolve_left hboth.1
    have hcb := (hobs hahead).resolve_left hboth.2
    rw [orNull_ne hboth.1, orNull_ne hboth.2] at hrace
    by_cases htid : (s.tcb (s.tcb a).observer).tid =
        (s.tcb (s.tcb (s.tcb b).observer).observer).tid
    · right; left
      refine ⟨by simp [detectStep, look_live, ha, hb, ha0, hb0, hf, hahead, hboth, hca, hcb, htid], ?_⟩
      rw [hrace, if_pos ⟨by simp, congrArg some (tid_inj h hca hcb htid)⟩]
    · right; right
      refine ⟨_, _, Or.inr hca, Or.inr hcb,
        by simp [detectStep, look_live, ha, hb, ha0, hb0, hf, hahead, hboth, hca, hcb, htid], ?_⟩
      rw [hrace, orNull_ne hboth.1, orNull_ne hboth.2, if_neg]
      exact fun heq => htid (by rw [Option.some.inj heq.2])
  · right; right
    refine ⟨_, _, hobs ha, hobs hahead, ?_, ?_⟩
    · simp only [detectStep, look_live, ha, hb, ha0, hb0, hf, hahead, hboth, or_self, if_false,
        ok_bind]
    · rw [hrace, if_neg]
      rintro ⟨hsome, heq⟩
      by_cases hao : (s.tcb a).observer = 0
      · exact hsome (by rw [hao]; rfl)
      · have hoo : (s.tcb (s.tcb b).observer).observer = 0 := not_not.mp fun hne => hboth ⟨hao, hne⟩
        rw [orNull_ne hao, hoo, orNull_zero] at heq
        simp at heq

theorem detect_race (h : TableOk s T)
    (hobs : ∀ {p}, s.live p = true → Sound s (s.tcb p).observer) (n : Nat) {a b : Ptr}
    (ha : Sound s a) (hb : Sound s b) :
    loop (detectStep s) n (a, b) = loop (raceStep s.link) n (orNull a, orNull b) := by
  induction n generalizing a b with
  | zero => rfl
  | succ n ih =>
    rcases ha with rfl | ha
    · simp [loop, detectStep, raceStep]
    rcases hb with rfl | hb
    · simp [loop, detectStep, raceStep_ended]
    rw [orNull_ne (h.ne_zero ha), orNull_ne (h.ne_zero hb)]
    rcases detectStep_race h hobs ha hb with ⟨hd, hr⟩ | ⟨hd, hr⟩ | ⟨c, d, hc, hd', hd, hr⟩
    · simp only [loop, hd, hr]
    · simp only [loop, hd, hr]
    · simp only [loop, hd, hr]
      exact ih hc hd'

/-- The race only stops without a value when the budget is spent. -/
theorem race_budget {α : Type} [DecidableEq α] {f : α → Option α} {n : Nat}
    {x : Option α × Option α} {e : Stop} (h : loop (raceStep f) n x = .error e) : e = .budget := by
  induction n generalizing x with
  | zero =>
    rw [loop, Except.error.injEq] at h
    exact h.symm
  | succ n ih =>
    rw [loop] at h
    unfold raceStep at h
    split at h
    · rename_i he
      split at he
      · split at he
        · contradiction
        · split at he <;> contradiction
      · contradiction
    · exact ih h
    · contradiction

/-- `detect_deadlock` is exact, and it ends. -/
theorem run_detect (h : TableOk s T)
    (hobs : ∀ {p}, s.live p = true → Sound s (s.tcb p).observer)
    (hc : s.live s.current_thread = true) (n : Nat) :
    (∃ r, detect_deadlock n s = .ok (r, s) ∧ (r = true ↔ Endless s.link s.current_thread)) ∨
    (n ≤ T.head.length ∧ detect_deadlock n s = .error .budget) := by
  have hS : ∀ k y, walk s.link k s.current_thread = some y →
      y ∈ (T.head.map Handle.tcb).toFinset := by
    intro k y hy
    have hlive : s.live y = true := by
      cases k with
      | zero =>
        rw [walk, Option.some_inj] at hy
        rw [← hy]
        exact hc
      | succ k =>
        rw [walk, Option.bind_eq_some_iff] at hy
        obtain ⟨z, -, hz⟩ := hy
        obtain ⟨hzl, rfl, hne⟩ := link_eq.mp hz
        exact (hobs hzl).resolve_left hne
    obtain ⟨a, ha, rfl⟩ := h.listed hlive
    exact List.mem_toFinset.mpr (List.mem_map_of_mem ha)
  have hcard : (T.head.map Handle.tcb).toFinset.card ≤ T.head.length :=
    (List.toFinset_card_le _).trans (by rw [List.length_map])
  have hrun : ∀ k, loop (detectStep s) k (s.current_thread, s.current_thread) =
      loop (raceStep s.link) k (some s.current_thread, some s.current_thread) := by
    intro k
    rw [detect_race h hobs k (Or.inr hc) (Or.inr hc), orNull_ne (h.ne_zero hc)]
  rcases hl : loop (raceStep s.link) n (some s.current_thread, some s.current_thread) with e | r
  · right
    obtain rfl := race_budget hl
    refine ⟨?_, by simp [detect_deadlock, hrun, hl]⟩
    by_contra hn
    obtain ⟨r, hr, -⟩ := race_spec hS (n := n) (by omega)
    rw [hl] at hr
    contradiction
  · left
    refine ⟨r, by simp [detect_deadlock, hrun, hl], ?_⟩
    obtain ⟨r', hr, hiff⟩ := race_spec hS (n := n + T.head.length + 1) (by omega)
    rw [loop_mono (by omega) hl, Except.ok.injEq] at hr
    rw [hr]
    exact hiff

end

end Cs720.Threads
