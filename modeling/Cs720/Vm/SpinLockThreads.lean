import Cs720.Vm.Atomic
import Cs720.Vm.Effects
import Cs720.Vm.SpinLock

/-! # The counter under a spin lock, one access at a time

The program of `test/test_counter_lock.asm` writes only `count` and `lock`, which no core executes.
-/

namespace Cs720.Vm

open Cs720.Lib

section
variable {fpu : Fpu} {n i k : Nat} {a count : Word} {c : Core} {b : Bool} {ins : Instr} {m : Machine}

theorem At.on (h : At n i count c b k) (hc : c.status = 1) :
    ∃ pc < 17, c.On (BitVec.ofNat 32 (pc + 2)) := by
  cases h with
  | main on => exact ⟨0, by decide, on⟩
  | main₁ on => exact ⟨1, by decide, on⟩
  | main₂ on => exact ⟨2, by decide, on⟩
  | main₃ on => exact ⟨3, by decide, on⟩
  | loop on => exact ⟨4, by decide, on⟩
  | loop₁ on => exact ⟨5, by decide, on⟩
  | loop₂ on => exact ⟨6, by decide, on⟩
  | loop₃ on => exact ⟨7, by decide, on⟩
  | loop₄ on => exact ⟨8, by decide, on⟩
  | add on => exact ⟨9, by decide, on⟩
  | add₁ on => exact ⟨10, by decide, on⟩
  | add₂ on => exact ⟨11, by decide, on⟩
  | add₃ on => exact ⟨12, by decide, on⟩
  | add₄ on => exact ⟨13, by decide, on⟩
  | add₅ on => exact ⟨14, by decide, on⟩
  | add₆ on => exact ⟨15, by decide, on⟩
  | last on => exact ⟨16, by decide, on⟩
  | halted status => cases status.symm.trans hc

theorem counter_stores (hk : k < 17) (hins : (counterInstrs n)[k]? = some ins)
    (ha : a ∈ ins.stores m) : a = COUNT ∨ a = LOCK := by
  have hlist : ins.stores m ⊆ [COUNT, LOCK] := by
    interval_cases k <;> cases hins <;> simp [Instr.stores]
  simpa using hlist ha

end

section
variable {fpu : Fpu} {p n i : Nat} {s s' : Sys} {added : Nat → Nat} {w : Watch}

theorem Inv.on (h : Inv p n added w) (hi : w.1.Running i) :
    ∃ pc < 17, (w.1.core i).On (BitVec.ofNat 32 (pc + 2)) := by
  have hip : i < p := by
    have hlt := hi.1
    rw [h.procs] at hlt
    bv_omega
  exact (h.place i hip).on hi.2

theorem Inv.noRace (h : Inv p n added w) (hn : n < 2 ^ 19) : Locked.NoRace fpu w.1 := by
  intro i j _ hi hw
  obtain ⟨hj, ins, hins, hstores⟩ := footprint_writes hw
  obtain ⟨pc, hpc, hon⟩ := h.on hj
  rw [h.instr hn hpc hon] at hins
  obtain ⟨pc', hpc', hon'⟩ := h.on hi
  have hpci : w.1.pc i = BitVec.ofNat 32 (pc' + 2) := hon'.2
  rw [hpci] at hstores
  rcases counter_stores hpc hins hstores with ha | ha
  · unfold COUNT at ha
    bv_omega
  · unfold LOCK at ha
    bv_omega

/-- The invariant, with some cores inside. -/
def Counts (p n : Nat) (s : Sys) : Prop := ∃ added inside, Inv p n added (s, inside)

theorem counts_step (hp : p ≤ 16) (hn : n < 2 ^ 19) (hn₁ : 1 ≤ n) (h : Counts p n s) :
    ∃ s', step fpu i s = .ok s' ∧ Counts p n s' := by
  obtain ⟨added, inside, h⟩ := h
  obtain ⟨added', w', hw, h'⟩ : Good fpu p n i _ := watch_step h hp hn hn₁
  unfold watch at hw
  obtain ⟨s', hs, hw⟩ := bind_ok.mp hw
  cases hw
  exact ⟨s', hs, added', _, h'⟩

variable (fpu) in
theorem counts_run (hp : p ≤ 16) (hn : n < 2 ^ 19) (hn₁ : 1 ≤ n) (h : Counts p n s)
    (js : List Nat) : ∃ s', play fpu js s = .ok s' ∧ Counts p n s' :=
  playFrom_total (fun _ _ h => counts_step hp hn hn₁ h) h

variable (fpu) in
theorem counts_noRace (hp : p ≤ 16) (hn : n < 2 ^ 19) (hn₁ : 1 ≤ n) (h : Counts p n s)
    (js : List Nat) (s' : Sys) (hs : play fpu js s = .ok s') : Locked.NoRace fpu s' := by
  obtain ⟨u, hu, added, inside, hinv⟩ := counts_run fpu hp hn hn₁ h js
  cases hu.symm.trans hs
  exact hinv.noRace hn

theorem counts_stopped (hp : p ≤ 16) (hn : n < 2 ^ 19) (h : Counts p n s)
    (hstop : ∀ i < p, (s.core i).status ≠ 1) :
    (s.vm.memory COUNT).toNat = p * n ∧ s.vm.memory LOCK = -1 := by
  obtain ⟨added, inside, h⟩ := h
  exact h.total hp hn hstop

end

/-! ## The threads -/

/-- The system that `execute` starts. -/
def counterStart (vm : VM) (p n : Nat) (initialSP : Nat → Word) : Sys where
  vm := { vm.withCounter n with numProcessors := BitVec.ofNat 32 p }
  core := startCore (vm.withCounter n) initialSP

section
variable {vm : VM} {p n : Nat} {initialSP : Nat → Word}

theorem execute_counter (hp : p ≤ 16) : execute (vm.withCounter n) (BitVec.ofNat 32 p) initialSP =
    some (counterStart vm p n initialSP) :=
  if_neg (by unfold VMX20_MAX_PROCESSORS; bv_omega)

theorem counts_start (block : VM) (p n : Nat) (initialSP : Nat → Word) :
    Counts p n (counterStart (initVm block) p n initialSP) := ⟨_, _, inv_start rfl⟩

end

namespace Locked

/-- From 1 to 16 threads run the program with the loop count `n`, with their accesses in any order.
When all have stopped, `count` has all their turns. -/
theorem spin_lock_threads {p n : Nat} (hp : 1 ≤ p ∧ p ≤ 16) (hn : 1 ≤ n ∧ n < 2 ^ 19)
    (junk : Nat → Word) (block : VM) (initialSP : Nat → Word) (fpu : Fpu) (is : List Nat) :
    ∃ vm s₀ t,
      loadExecutableFile junk (initVm block) (some (counterFile n)) = .ok ⟨1, none, vm⟩ ∧
      getAddress vm countName = .ok (some COUNT) ∧
      execute vm (BitVec.ofNat 32 p) initialSP = some s₀ ∧
      play s₀.vm fpu is (begin s₀) = .ok t ∧
      ((∀ i < p, (t.own i).status ≠ 1) → (t.mem COUNT).toNat = p * n ∧ t.mem LOCK = -1) := by
  have hstart := counts_start block p n initialSP
  generalize hs₀ : counterStart (initVm block) p n initialSP = s₀ at hstart
  have hcounts := counts_run fpu hp.2 hn.2 hn.1 hstart
  have hrace := counts_noRace fpu hp.2 hn.2 hn.1 hstart
  obtain ⟨t, ht⟩ : ∃ t, play s₀.vm fpu is (begin s₀) = .ok t := by
    cases hrun : play s₀.vm fpu is (begin s₀) with
    | ok t => exact ⟨t, rfl⟩
    | error e =>
      obtain ⟨js, hjs⟩ := (instructions_fail hrace e).mp ⟨is, hrun⟩
      obtain ⟨u, hu, -⟩ := hcounts js
      cases hu.symm.trans hjs
  refine ⟨_, s₀, t, load_counter, rfl, ?_, ht, fun hstop => ?_⟩
  · rw [execute_counter hp.2, hs₀]
  · have hprocs : s₀.vm.numProcessors.toNat = p := by
      rw [← hs₀]
      change (BitVec.ofNat 32 p).toNat = p
      bv_omega
    have hrest : t.AtRest := by
      refine atRest_of_ended (fun _ _ _ => sect_code) ht fun i => if_neg ?_
      rintro ⟨hi, hstatus⟩
      exact hstop i (hprocs ▸ hi) hstatus
    obtain ⟨js, s', hs', rfl⟩ := (instructions_atomic hrace t hrest).mp ⟨is, ht⟩
    obtain ⟨u, hu, hu'⟩ := hcounts js
    cases hu.symm.trans hs'
    exact counts_stopped hp.2 hn.2 hu' hstop

/-- Two threads, two turns each. -/
theorem spin_lock_threads_two : ∃ vm s₀ t,
    loadExecutableFile (fun _ => 0) (initVm blank) (some (counterFile 2)) = .ok ⟨1, none, vm⟩ ∧
    getAddress vm countName = .ok (some COUNT) ∧ execute vm 2 (fun _ => 100) = some s₀ ∧
    play s₀.vm noFpu [0, 1, 0] (begin s₀) = .ok t ∧
    ((∀ i < 2, (t.own i).status ≠ 1) → (t.mem COUNT).toNat = 4 ∧ t.mem LOCK = -1) :=
  spin_lock_threads ⟨by decide, by decide⟩ ⟨by decide, by decide⟩ _ _ _ _ _

/-- Two cores, with the program of the counter. -/
theorem threads_refine_cores_counter : ∃ vm s₀,
    loadExecutableFile (fun _ => 0) (initVm blank) (some (counterFile 2)) = .ok ⟨1, none, vm⟩ ∧
    execute vm 2 (fun _ => 100) = some s₀ ∧
    (∀ t : Midway Nat Word Word Core, t.AtRest → ((∃ is, play s₀.vm noFpu is (begin s₀) = .ok t) ↔
      ∃ js s', Vm.play noFpu js s₀ = .ok s' ∧ t = begin s')) ∧
    ∀ e, (∃ is, play s₀.vm noFpu is (begin s₀) = .error e) ↔
      ∃ js, Vm.play noFpu js s₀ = .error e :=
  ⟨_, _, load_counter, execute_counter (p := 2) (by decide), threads_refine_cores noFpu _
    (counts_noRace noFpu (by decide) (by decide) (by decide) (counts_start blank 2 2 fun _ => 100))⟩

/-- The first core holds `memLock` for its exchange, and the second has asked for it. -/
theorem lock_discipline_counter : ∃ vm s₀ t,
    loadExecutableFile (fun _ => 0) (initVm blank) (some (counterFile 2)) = .ok ⟨1, none, vm⟩ ∧
    execute vm 2 (fun _ => 100) = some s₀ ∧
    play s₀.vm noFpu (List.replicate 22 0 ++ List.replicate 22 1) (begin s₀) = .ok t ∧
    t.holder = some 0 ∧
    (∀ i p, t.call i = some p → (∀ a v k, p = .store a v k → t.holder = some i) ∧
      ((∃ core, p = .ret core) ∨ (∃ e, p = .fail e) → t.holder ≠ some i)) ∧
    Finishes (code s₀.vm noFpu) t := by
  have hrun : ∃ t, play (counterStart (initVm blank) 2 2 fun _ => 100).vm noFpu
      (List.replicate 22 0 ++ List.replicate 22 1)
      (begin (counterStart (initVm blank) 2 2 fun _ => 100)) = .ok t ∧ t.holder = some 0 :=
    ⟨_, rfl, rfl⟩
  obtain ⟨t, ht, hholder⟩ := hrun
  exact ⟨_, _, t, load_counter, execute_counter (p := 2) (by decide), ht, hholder,
    lock_discipline noFpu _ _ t ht⟩

end Locked

end Cs720.Vm
