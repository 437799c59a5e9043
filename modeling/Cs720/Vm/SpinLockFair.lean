import Cs720.Lib.Fair
import Cs720.Vm.SpinLock

/-! # The spin lock under a fair schedule

While a core does not wait, it is helpful. When all wait, the lock is free, and each is.
-/

namespace Cs720.Vm

open Cs720.Lib

section
variable {fpu : Fpu} {p n i k : Nat} {added : Nat → Nat} {w : Watch} {b : Bool}

/-- The cores that have not stopped. -/
def Alive (p : Nat) (w : Watch) (i : Nat) : Prop := i < p ∧ (w.1.core i).status = 1

/-- How many instructions the cores have left, if they never wait. -/
def allLeft (p n : Nat) (added : Nat → Nat) (w : Watch) : Nat :=
  ∑ i ∈ Finset.range p, (w.1.core i).left n (added i) (w.2 i)

/-- The core `h` does not wait, or no core does anything else. -/
def Helpful (p : Nat) (w : Watch) (h : Nat) : Prop :=
  Alive p w h ∧ ((w.1.core h).waits (w.2 h) = none ∨
    ∀ i, Alive p w i → (w.1.core i).waits (w.2 i) ≠ none)

/-- A state of a run with its rank and a helpful core. -/
def Ranked (p n r h : Nat) (s : Sys) : Prop :=
  ∃ added inside, Inv p n added (s, inside) ∧ Helpful p (s, inside) h ∧
    r = 6 * allLeft p n added (s, inside) + ((s.core h).waits (inside h)).getD 0

/-- All cores have stopped. -/
def AllStopped (p n : Nat) (s : Sys) : Prop :=
  ∃ added inside, Inv p n added (s, inside) ∧ ∀ i < p, (s.core i).status ≠ 1

theorem Inv.running_iff (h : Inv p n added w) (hp : p ≤ 16) : w.1.Running i ↔ Alive p w i := by
  have hprocs : w.1.vm.numProcessors.toNat = p := by
    rw [h.procs]
    bv_omega
  unfold Sys.Running Alive
  rw [hprocs]

theorem helpful_of_alive {j : Nat} (hj : Alive p w j) : ∃ h, Helpful p w h := by
  by_cases hall : ∀ i, Alive p w i → (w.1.core i).waits (w.2 i) ≠ none
  · exact ⟨j, hj, Or.inr hall⟩
  · push Not at hall
    obtain ⟨i, hi, hwaits⟩ := hall
    exact ⟨i, hi, Or.inl hwaits⟩

theorem waits_le {inside : Bool} {c : Core} : (c.waits inside).getD 0 ≤ 5 := by
  unfold Core.waits waitsAt
  split
  · split
    · split <;> decide
    all_goals decide
  · decide

theorem ranked_or_stopped {added : Nat → Nat} {s : Sys} {inside : Nat → Bool}
    (h : Inv p n added (s, inside)) : AllStopped p n s ∨
      ∃ r h, Ranked p n r h s ∧ r ≤ 6 * allLeft p n added (s, inside) + 5 := by
  by_cases hall : ∀ i < p, (s.core i).status ≠ 1
  · exact Or.inl ⟨added, inside, h, hall⟩
  · push Not at hall
    obtain ⟨j, hj⟩ := hall
    obtain ⟨i, hi⟩ := helpful_of_alive (w := (s, inside)) hj
    exact Or.inr ⟨_, i, ⟨added, inside, h, hi, rfl⟩, Nat.add_le_add_left waits_le _⟩

theorem At.inside {count : Word} {c : Core} (h : At n i count c true k) :
    c.status = 1 ∧ c.waits true = none := by
  cases h with
  | loop₃ on | add on | add₁ on | add₂ on | add₃ on | add₄ on | add₅ on =>
    exact ⟨on.1, on.waits⟩

/-- When the helpful core waits, the lock is free. -/
theorem Inv.free (h : Inv p n added w) {j : Nat} (hj : Helpful p w j)
    (hwaits : (w.1.core j).waits (w.2 j) ≠ none) : w.1.vm.memory LOCK = -1 := by
  rcases h.guard with ⟨hfree, -⟩ | ⟨k, hk, -, hone⟩
  · exact hfree
  · have hin : w.2 k = true := (hone k).mpr rfl
    have hplace := h.place k hk
    rw [hin] at hplace
    obtain ⟨hstatus, hnone⟩ := hplace.inside
    rcases hj.2 with hj | hall
    · exact absurd hj hwaits
    · exact absurd (hin ▸ hnone) (hall k ⟨hk, hstatus⟩)

theorem left_update {core : Nat → Core} {added : Nat → Nat} {inside : Nat → Bool} {c : Core} :
    (fun j => (Function.update core i c j).left n (Function.update added i k j)
      (Function.update inside i b j)) =
      Function.update (fun j => (core j).left n (added j) (inside j)) i (c.left n k b) := by
  funext j
  rcases eq_or_ne j i with rfl | hj
  · simp only [Function.update_self]
  · simp only [Function.update_of_ne hj]

/-- The step of a core, for what all have left. -/
theorem allLeft_update (added : Nat → Nat) (vm : VM) (c : Core) (hip : i < p) :
    allLeft p n (Function.update added i k)
        (⟨vm, Function.update w.1.core i c⟩, Function.update w.2 i b) +
      (w.1.core i).left n (added i) (w.2 i) = allLeft p n added w + c.left n k b := by
  have hmem := Finset.mem_range.mpr hip
  unfold allLeft
  dsimp only
  rw [left_update, Finset.sum_update_of_mem hmem, Finset.sdiff_singleton_eq_erase,
    ← Finset.add_sum_erase _ _ hmem]
  omega

theorem status_of_waits {c : Core} {x : Nat} (h : c.waits b = some x) : c.status = 1 := by
  by_contra hne
  unfold Core.waits at h
  rw [if_neg hne] at h
  cases h

/-- A core that waits on leaves the helpful core helpful. -/
theorem Helpful.waits_on {vm : VM} {c : Core} {h x y : Nat} (hh : Helpful p w h)
    (hx : (w.1.core i).waits (w.2 i) = some x) (hy : c.waits b = some y) :
    Helpful p (⟨vm, Function.update w.1.core i c⟩, Function.update w.2 i b) h := by
  have halive (j : Nat) : Alive p (⟨vm, Function.update w.1.core i c⟩, Function.update w.2 i b) j ↔
      Alive p w j := by
    unfold Alive
    dsimp only
    rcases eq_or_ne j i with rfl | hj
    · rw [Function.update_self, status_of_waits hx, status_of_waits hy]
    · rw [Function.update_of_ne hj]
  refine ⟨(halive h).mpr hh.1, ?_⟩
  dsimp only
  rcases hh.2 with hnone | hall
  · have hne : h ≠ i := by
      rintro rfl
      cases hx.symm.trans hnone
    rw [Function.update_of_ne hne, Function.update_of_ne hne]
    exact Or.inl hnone
  · refine Or.inr fun j hj => ?_
    rcases eq_or_ne j i with rfl | hne
    · rw [Function.update_self, Function.update_self, hy]
      exact Option.some_ne_none y
    · rw [Function.update_of_ne hne, Function.update_of_ne hne]
      exact hall j ((halive j).mp hj)

theorem watch_ok {w' : Watch} (h : watch fpu i w = .ok w') : step fpu i w.1 = .ok w'.1 := by
  unfold watch at h
  rw [bind_ok] at h
  obtain ⟨s, hs, h⟩ := h
  cases h
  exact hs

variable (fpu) in
theorem ranked_step {r h : Nat} {s : Sys} (hR : Ranked p n r h s) (hp : p ≤ 16) (hn : n < 2 ^ 19)
    (hn₁ : 1 ≤ n) (i : Nat) : ∃ t, step fpu i s = .ok t ∧ (AllStopped p n t ∨
      ∃ r' h', Ranked p n r' h' t ∧ (r' < r ∨ r' = r ∧ h' = h ∧ i ≠ h)) := by
  obtain ⟨added, inside, hinv, hhelp, rfl⟩ := hR
  have hrun (j : Nat) : s.Running j ↔ Alive p (s, inside) j := hinv.running_iff hp
  by_cases hi : s.Running i
  · have hip : i < p := ((hrun i).mp hi).1
    obtain ⟨k, c, memory, b, hw, hinv', hnear⟩ := core_moves fpu hinv hp hn hn₁ hi hip
    have hsum := allLeft_update (n := n) (k := k) (b := b) (w := (s, inside)) added
      { s.vm with memory } c hip
    refine ⟨⟨{ s.vm with memory }, Function.update s.core i c⟩, watch_ok hw, ?_⟩
    rcases hnear with hlt | ⟨heq, x, y, hx, hy, hcase⟩
    · -- The core is nearer to its end, and any core can be the next helpful one.
      rcases ranked_or_stopped hinv' with hstop | ⟨r', h', hR, hle⟩
      · exact Or.inl hstop
      · exact Or.inr ⟨r', h', hR, Or.inl (by dsimp only at *; omega)⟩
    · -- The core waits on, and the helpful core stays.
      have hstay : Ranked p n (6 * allLeft p n added (s, inside) +
          ((Function.update s.core i c h).waits (Function.update inside i b h)).getD 0) h
          ⟨{ s.vm with memory }, Function.update s.core i c⟩ :=
        ⟨_, _, hinv', hhelp.waits_on hx hy, by dsimp only at *; omega⟩
      refine Or.inr ⟨_, h, hstay, ?_⟩
      rcases eq_or_ne i h with rfl | hne
      · have hfree : s.vm.memory LOCK = -1 :=
          hinv.free hhelp (by rw [hx]; exact Option.some_ne_none x)
        rw [Function.update_self, Function.update_self, hx, hy]
        exact Or.inl (Nat.add_lt_add_left (hcase.resolve_right (not_not_intro hfree)) _)
      · rw [Function.update_of_ne hne.symm, Function.update_of_ne hne.symm]
        exact Or.inr ⟨rfl, rfl, hne⟩
  · refine ⟨s, step_idle hi, Or.inr ⟨_, h, ⟨added, inside, hinv, hhelp, rfl⟩,
      Or.inr ⟨rfl, rfl, ?_⟩⟩⟩
    rintro rfl
    exact hi ((hrun i).mpr hhelp.1)

theorem At.stopped {count : Word} {c : Core} (h : At n i count c b k) (hstop : c.status ≠ 1) :
    c.status = VMX20_NORMAL_TERMINATION := by
  cases h with
  | halted status => exact status
  | main on | main₁ on | main₂ on | main₃ on | loop on | loop₁ on | loop₂ on | loop₃ on | loop₄ on
  | add on | add₁ on | add₂ on | add₃ on | add₄ on | add₅ on | add₆ on | last on =>
    exact absurd on.1 hstop

theorem AllStopped.total {s : Sys} (h : AllStopped p n s) (hp : p ≤ 16) (hn : n < 2 ^ 19) :
    (∀ i < p, (s.core i).status = VMX20_NORMAL_TERMINATION) ∧
      (s.vm.memory COUNT).toNat = p * n ∧ s.vm.memory LOCK = -1 := by
  obtain ⟨added, inside, hinv, hstop⟩ := h
  exact ⟨fun i hi => (hinv.place i hi).stopped (hstop i hi), hinv.total hp hn hstop⟩

end

/-- From 1 to 16 cores run the program with the loop count `n`, in any order in which no core is
left out for ever. Then all cores come to their `halt`, and `count` has all their turns. -/
theorem spin_lock_ends {p n : Nat} (hp : 1 ≤ p ∧ p ≤ 16) (hn : 1 ≤ n ∧ n < 2 ^ 19)
    (junk : Nat → Word) (block : VM) (initialSP : Nat → Word) (fpu : Fpu) (f : Nat → Nat)
    (hf : Fair (· < p) f) :
    ∃ vm s₀ k s,
      loadExecutableFile junk (initVm block) (some (counterFile n)) = .ok ⟨1, none, vm⟩ ∧
      getAddress vm countName = .ok (some COUNT) ∧
      execute vm (BitVec.ofNat 32 p) initialSP = some s₀ ∧
      play fpu (turns f k) s₀ = .ok s ∧
      (∀ i < p, (s.core i).status = VMX20_NORMAL_TERMINATION) ∧
      (s.vm.memory COUNT).toNat = p * n ∧ s.vm.memory LOCK = -1 := by
  generalize hs₀ : Sys.mk { (initVm block).withCounter n with numProcessors := BitVec.ofNat 32 p }
    (startCore ((initVm block).withCounter n) initialSP) = s₀
  have hstart : Inv p n (fun _ => 0) (s₀, fun _ => false) := by
    rw [← hs₀]
    exact inv_start rfl
  obtain ⟨k, s, hrun, hstop⟩ : ∃ k s, play fpu (turns f k) s₀ = .ok s ∧ AllStopped p n s := by
    rcases ranked_or_stopped hstart with hstop | ⟨r, h, hR, -⟩
    · exact ⟨0, s₀, rfl, hstop⟩
    · exact fair_comes (R := Ranked p n) (fun _ _ _ ⟨_, _, _, hh, _⟩ => hh.1.1)
        (fun _ _ _ i hR => ranked_step fpu hR hp.2 hn.2 hn.1 i) hf hR
  refine ⟨_, s₀, k, s, load_counter, rfl, ?_, hrun, hstop.total hp.2 hn.2⟩
  unfold execute
  rw [if_neg (by unfold VMX20_MAX_PROCESSORS; bv_omega)]
  exact congrArg some hs₀

/-- Two cores in turn. -/
theorem spin_lock_ends_two : ∃ vm s₀ k s,
    loadExecutableFile (fun _ => 0) (initVm blank) (some (counterFile 10000)) = .ok ⟨1, none, vm⟩ ∧
    execute vm 2 (fun _ => 100) = some s₀ ∧ play noFpu (turns (· % 2) k) s₀ = .ok s ∧
    (s.vm.memory COUNT).toNat = 20000 := by
  have hfair : Fair (· < 2) (· % 2) := by
    intro i hi n
    refine ⟨2 * n + i, by omega, ?_⟩
    exact (Nat.mul_add_mod 2 n i).trans (Nat.mod_eq_of_lt hi)
  obtain ⟨vm, s₀, k, s, hload, -, hexecute, hrun, -, hcount, -⟩ := spin_lock_ends (p := 2)
    (n := 10000) ⟨by decide, by decide⟩ ⟨by decide, by decide⟩ (fun _ => 0) blank (fun _ => 100)
    noFpu (· % 2) hfair
  exact ⟨vm, s₀, k, s, hload, hexecute, hrun, hcount⟩

end Cs720.Vm
