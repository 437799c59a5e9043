import Cs720.Lib.Places

/-! # A cooperative scheduler

One thread is current. Every other thread is on the ready queue, or waits in one queue, or is done.
The operations move one thread at a time.
-/

namespace Cs720.Lib

inductive Mode where
  | working
  | waiting
  | done
  deriving DecidableEq

inductive Place (W : Type) where
  | ready
  | wait (w : W)
  deriving DecidableEq

@[ext]
structure Scheduler (T W : Type) where
  current : T
  live : T → Prop
  mode : T → Mode
  queue : Place W → List T

namespace Scheduler

section
variable {T W : Type} {v : Scheduler T W} {loc : T → Option (Place W)} {x : T} {xs : List T} {w : W}

/-- The thread `x` waits where its mode says. -/
def Placed (v : Scheduler T W) (loc : T → Option (Place W)) (x : T) : Prop :=
  match v.mode x with
  | .working => loc x = some .ready ∨ loc x = none ∧ x = v.current
  | .waiting => ∃ w, loc x = some (.wait w)
  | .done => loc x = none

structure Ok (v : Scheduler T W) (loc : T → Option (Place W)) : Prop where
  located : Located loc v.queue
  live_of_loc : ∀ {x p}, loc x = some p → v.live x
  current_live : v.live v.current
  current_off : loc v.current ≠ some .ready
  placed : ∀ {x}, v.live x → v.Placed loc x

/-! ## What the invariant says -/

theorem live_of_mem (h : Ok v loc) {p : Place W} (hx : x ∈ v.queue p) : v.live x :=
  h.live_of_loc (h.located.mem.mp hx)

theorem mode_of_ready (h : Ok v loc) (hx : x ∈ v.queue .ready) : v.mode x = .working := by
  have hp := h.placed (live_of_mem h hx)
  rw [h.located.mem] at hx
  unfold Placed at hp
  split at hp
  · assumption
  · simp [hx] at hp
  · simp [hx] at hp

theorem mode_of_wait (h : Ok v loc) (hx : x ∈ v.queue (.wait w)) : v.mode x = .waiting := by
  have hp := h.placed (live_of_mem h hx)
  rw [h.located.mem] at hx
  unfold Placed at hp
  split at hp
  · simp [hx] at hp
  · assumption
  · simp [hx] at hp

theorem current_notMem_ready (h : Ok v loc) : v.current ∉ v.queue .ready := by
  rw [h.located.mem]
  exact h.current_off

theorem current_loc (h : Ok v loc) (hm : v.mode v.current ≠ .waiting) : loc v.current = none := by
  have hp := h.placed h.current_live
  unfold Placed at hp
  split at hp
  · exact (hp.resolve_left h.current_off).1
  · contradiction
  · exact hp

/-- A thread that can work, and is not current, is ready once. -/
theorem ready_count [DecidableEq T] (h : Ok v loc) (hlive : v.live x) (hm : v.mode x = .working)
    (hx : x ≠ v.current) : (v.queue .ready).count x = 1 := by
  have hp := h.placed hlive
  simp only [Placed, hm] at hp
  exact located_count h.located (hp.resolve_right fun hc => hx hc.2)

/-- A waiting thread waits in one queue, once. -/
theorem wait_place [DecidableEq T] (h : Ok v loc) (hlive : v.live x) (hm : v.mode x = .waiting) :
    ∃ w, (v.queue (.wait w)).count x = 1 ∧ ∀ u, x ∈ v.queue (.wait u) → u = w := by
  have hp := h.placed hlive
  simp only [Placed, hm] at hp
  obtain ⟨w, hw⟩ := hp
  refine ⟨w, located_count h.located hw, fun u hx => ?_⟩
  rw [h.located.mem, hw, Option.some.injEq, Place.wait.injEq] at hx
  exact hx.symm

/-- With no thread ready and the current one not working, no thread works. -/
theorem nobody_works (h : Ok v loc) (hq : v.queue .ready = []) (hc : v.mode v.current ≠ .working)
    (hlive : v.live x) : v.mode x ≠ .working := by
  intro hm
  have hp := h.placed hlive
  simp only [Placed, hm] at hp
  rcases hp with hr | ⟨-, rfl⟩
  · rw [← h.located.mem, hq] at hr
    simp at hr
  · exact hc hm

/-- A thread that is done can go. -/
def remove (v : Scheduler T W) (x : T) : Scheduler T W :=
  { v with live := fun y => y ≠ x ∧ v.live y }

theorem remove_ok (h : Ok v loc) (hx : v.mode x = .done) (hxc : x ≠ v.current) :
    Ok (v.remove x) loc := by
  refine ⟨h.located, ?_, ⟨hxc.symm, h.current_live⟩, h.current_off, fun hy => h.placed hy.2⟩
  intro y p hy
  have hlive := h.live_of_loc hy
  refine ⟨?_, hlive⟩
  rintro rfl
  have hp := h.placed hlive
  simp only [Placed, hx] at hp
  simp [hp] at hy

end

section
variable {T W : Type} {v : Scheduler T W} {loc : T → Option (Place W)} {x : T} {xs : List T} {w : W}
variable [DecidableEq T]

/-! ## Operations -/

/-- The current thread is done. -/
def retire (v : Scheduler T W) : Scheduler T W :=
  { v with mode := Function.update v.mode v.current .done }

theorem placed_other {u : Scheduler T W} {p : Option (Place W)} {y : T} (hp : v.Placed loc y)
    (hyx : y ≠ x) (hc : u.current = v.current) (hm : u.mode y = v.mode y) :
    u.Placed (Function.update loc x p) y := by
  unfold Placed
  rw [Function.update_of_ne hyx, hc, hm]
  exact hp

theorem live_update {u : Scheduler T W} (h : Ok v loc) {p : Option (Place W)}
    (hx : u.live x) (hu : ∀ {y}, v.live y → u.live y) {y : T} {q : Place W}
    (hy : Function.update loc x p y = some q) : u.live y := by
  by_cases hyx : y = x
  · rw [hyx]
    exact hx
  · rw [Function.update_of_ne hyx] at hy
    exact hu (h.live_of_loc hy)

theorem retire_ok (h : Ok v loc) (hm : v.mode v.current ≠ .waiting) : Ok v.retire loc := by
  refine ⟨h.located, h.live_of_loc, h.current_live, h.current_off, ?_⟩
  intro y hy
  by_cases hyc : y = v.current
  · simp [Placed, retire, hyc, current_loc h hm]
  · have hp := h.placed hy
    simpa [Placed, retire, Function.update_of_ne hyc] using hp

variable [DecidableEq W]

/-- The current thread begins to wait. -/
def block (v : Scheduler T W) (w : W) : Scheduler T W :=
  { v with
    mode := Function.update v.mode v.current .waiting
    queue := Function.update v.queue (.wait w) (v.queue (.wait w) ++ [v.current]) }

/-- `x` stops waiting, and the queue at `w` is `xs` without it. -/
def wake (v : Scheduler T W) (w : W) (x : T) (xs : List T) : Scheduler T W :=
  { v with
    mode := Function.update v.mode x .working
    queue := Function.update (Function.update v.queue (.wait w) xs) .ready (v.queue .ready ++ [x]) }

/-- `x` goes from the front of one queue to the back of another. -/
def move (v : Scheduler T W) (w : W) (x : T) (xs : List T) (u : W) : Scheduler T W :=
  { v with
    queue := Function.update (Function.update v.queue (.wait w) xs) (.wait u)
      (v.queue (.wait u) ++ [x]) }

/-- A new thread. -/
def spawn (v : Scheduler T W) (x : T) : Scheduler T W :=
  { v with
    live := fun y => y = x ∨ v.live y
    mode := Function.update v.mode x .working
    queue := Function.update v.queue .ready (v.queue .ready ++ [x]) }

/-- The thread at the front of the ready queue becomes current; the old one goes to the back if it
can work. -/
def switch (v : Scheduler T W) (x : T) (xs : List T) : Scheduler T W :=
  { v with
    current := x
    queue := Function.update v.queue .ready
      (if v.mode v.current = .working then xs ++ [v.current] else xs) }

theorem block_ok (h : Ok v loc) (hm : v.mode v.current ≠ .waiting) (w : W) :
    Ok (v.block w) (Function.update loc v.current (some (.wait w))) := by
  have hc := current_loc h hm
  refine ⟨located_push h.located hc _, live_update h h.current_live id, h.current_live, ?_, ?_⟩
  · simp [block]
  · intro y hy
    by_cases hyc : y = v.current
    · simp [Placed, block, hyc]
    · exact placed_other (h.placed hy) hyc rfl (Function.update_of_ne hyc _ _)

theorem wake_ok (h : Ok v loc) (hq : v.queue (.wait w) = x :: xs) (hx : x ≠ v.current) :
    Ok (v.wake w x xs) (Function.update loc x (some .ready)) := by
  have hlive : v.live x := live_of_mem h (p := .wait w) (by simp [hq])
  have hloc := located_push (located_pop h.located hq) (Function.update_self x none loc) .ready
  rw [Function.update_idem, Function.update_of_ne (by simp)] at hloc
  refine ⟨hloc, live_update h hlive id, h.current_live, ?_, ?_⟩
  · simp only [wake]
    rw [Function.update_of_ne hx.symm]
    exact h.current_off
  · intro y hy
    by_cases hyx : y = x
    · simp [Placed, wake, hyx]
    · exact placed_other (h.placed hy) hyx rfl (Function.update_of_ne hyx _ _)

theorem move_ok (h : Ok v loc) (hq : v.queue (.wait w) = x :: xs) {u : W} (hu : u ≠ w) :
    Ok (v.move w x xs u) (Function.update loc x (some (.wait u))) := by
  have hmem : x ∈ v.queue (.wait w) := by simp [hq]
  have hwait := mode_of_wait h hmem
  have hloc := located_push (located_pop h.located hq) (Function.update_self x none loc) (.wait u)
  rw [Function.update_idem, Function.update_of_ne (by simp [hu])] at hloc
  refine ⟨hloc, live_update h (live_of_mem h hmem) id, h.current_live, ?_, ?_⟩
  · simp only [move]
    by_cases hxc : v.current = x
    · simp [hxc]
    · rw [Function.update_of_ne hxc]
      exact h.current_off
  · intro y hy
    by_cases hyx : y = x
    · simp [Placed, move, hyx, hwait]
    · exact placed_other (h.placed hy) hyx rfl rfl

theorem spawn_ok (h : Ok v loc) (hx : ¬ v.live x) :
    Ok (v.spawn x) (Function.update loc x (some .ready)) := by
  have hnone : loc x = none := by
    rcases hl : loc x with _ | p
    · rfl
    · exact absurd (h.live_of_loc hl) hx
  have hxc : v.current ≠ x := fun hc => hx (hc ▸ h.current_live)
  refine ⟨located_push h.located hnone _, live_update h (Or.inl rfl) Or.inr, Or.inr h.current_live,
    ?_, ?_⟩
  · simp only [spawn]
    rw [Function.update_of_ne hxc]
    exact h.current_off
  · intro y hy
    by_cases hyx : y = x
    · simp [Placed, spawn, hyx]
    · exact placed_other (h.placed (hy.resolve_left hyx)) hyx rfl (Function.update_of_ne hyx _ _)

theorem switch_ok (h : Ok v loc) (hq : v.queue .ready = x :: xs) : ∃ l, Ok (v.switch x xs) l := by
  have hx : x ∈ v.queue .ready := by simp [hq]
  have hworks := mode_of_ready h hx
  have hxlive := live_of_mem h hx
  have hxc : v.current ≠ x := by
    rintro rfl
    exact current_notMem_ready h hx
  have hpop := located_pop h.located hq
  by_cases hm : v.mode v.current = .working
  · have hc := current_loc h (by simp [hm])
    have hpush := located_push hpop (by rw [Function.update_of_ne hxc]; exact hc) .ready
    rw [Function.update_self, Function.update_idem] at hpush
    refine ⟨Function.update (Function.update loc x none) v.current (some .ready), ?_⟩
    simp only [switch, if_pos hm]
    refine ⟨hpush, ?_, hxlive, ?_, ?_⟩
    · intro y p hy
      by_cases hyc : y = v.current
      · rw [hyc]
        exact h.current_live
      · rw [Function.update_of_ne hyc] at hy
        exact live_update h hxlive id hy
    · simp [Function.update_of_ne hxc.symm]
    · intro y hy
      by_cases hyc : y = v.current
      · simp [Placed, hyc, hm]
      by_cases hyx : y = x
      · simp [Placed, hyx, hworks, Function.update_of_ne hxc.symm]
      · have hp := h.placed hy
        simpa [Placed, hyc, hyx, Function.update_of_ne] using hp
  · refine ⟨Function.update loc x none, ?_⟩
    simp only [switch, if_neg hm]
    refine ⟨hpop, live_update h hxlive id, hxlive, by simp, ?_⟩
    intro y hy
    by_cases hyx : y = x
    · simp [Placed, hyx, hworks]
    have hp := h.placed hy
    by_cases hyc : y = v.current
    · -- The old thread does not work, so what it is does not depend on who is current.
      revert hp hm
      subst hyc
      rcases hmode : v.mode v.current with _ | _ | _ <;> simp [Placed, hmode, hyx]
    · simpa [Placed, hyc, hyx, Function.update_of_ne] using hp

end

end Scheduler

end Cs720.Lib
