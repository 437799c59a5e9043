import Cs720.Vm.Load
import Cs720.Vm.Stack

/-! # Where instructions are fetched

Nothing checks a PC. It stays in memory for as long as the instructions lead there.
-/

namespace Cs720.Vm

open Cs720.Lib

/-- The instruction neither stops the core nor faults. -/
def Instr.GoesOn (vm : VM) (core : Core) : Instr → Prop
  | .ldind _ d s => 0 ≤ (core.reg s).toInt + d.toInt ∧ (core.reg s).toInt + d.toInt < MEM_SIZE
  | .stind _ d s => 0 ≤ s.toNat + d.toInt ∧ s.toNat + d.toInt < MEM_SIZE
  | .divf _ s => isZero (core.reg s) = false
  | .divi r s => core.reg s ≠ 0 ∧ ¬ (core.reg r = BitVec.intMin 32 ∧ core.reg s = -1)
  | .call a => ¬ Rejects vm.progEnd core.stack (core.reg SP) (.call a)
  | .ret word => ¬ Rejects vm.progEnd core.stack (core.reg SP) (.ret word)
  | .push r => ¬ Rejects vm.progEnd core.stack (core.reg SP) (.push r)
  | .halt | .pop _ | .nop | .invalid => False
  | _ => True

/-- The address of the next instruction, if the instruction goes on. -/
def Instr.target (vm : VM) (core : Core) (tPC : Word) : Instr → Word
  | .call a | .jmp a => a
  | .ret _ => peek vm.memory (core.reg SP + 2) tPC
  | .blt r s a => if (core.reg r).slt (core.reg s) then a else tPC
  | .bgt r s a => if (core.reg s).slt (core.reg r) then a else tPC
  | .beq r s a => if core.reg r = core.reg s then a else tPC
  | _ => tPC

section
variable {fpu : Fpu} {tPC : Word} {ins : Instr} {m m' : Machine} {next : Next}

variable (fpu tPC) in
theorem exec_goesOn (h : ins.GoesOn m.vm m.core) : ∃ m',
    ins.exec fpu tPC m = .ok (⟨ins.target m.vm m.core tPC, none⟩, m') ∧
      m'.core.status = m.core.status := by
  cases ins with
  | halt | pop | nop | invalid => exact h.elim
  | call a => exact ⟨_, exec_call h, rfl⟩
  | ret word => exact ⟨_, exec_ret h, rfl⟩
  | push r => exact ⟨_, exec_push h, rfl⟩
  | ldind r d s =>
    simp only [Instr.exec, run_bind, run_reg, ok_bind, run_ite]
    exact ⟨_, (if_pos h).trans rfl, rfl⟩
  | stind r d s =>
    simp only [Instr.exec, run_ite]
    exact ⟨_, (if_pos h).trans rfl, rfl⟩
  | divf r s =>
    simp only [Instr.exec, run_bind, run_reg, ok_bind, run_ite]
    exact ⟨_, (if_neg (by rw [h]; exact Bool.false_ne_true)).trans rfl, rfl⟩
  | divi r s =>
    simp only [Instr.exec, run_bind, run_reg, ok_bind, run_ite]
    exact ⟨_, (if_neg h.1).trans ((if_neg h.2).trans rfl), rfl⟩
  | cmpxchg r s a =>
    simp only [Instr.exec, run_bind, run_reg, run_getWord, ok_bind, run_ite]
    split <;> exact ⟨_, rfl, rfl⟩
  | _ => exact ⟨_, rfl, rfl⟩

theorem exec_fetches {a : Word} (hx : ins.exec fpu tPC m = .ok (next, m')) :
    .fetch a ∈ m'.log ↔ .fetch a ∈ m.log := by
  cases ins with
  | divi =>
    simp only [Instr.exec, run_bind, run_reg, ok_bind, run_ite, run_fault] at hx
    split at hx
    · cases hx
      rfl
    split at hx
    · cases hx
    · cases hx
      rfl
  | ldind | divf | cmpxchg | call | ret | push | pop =>
    simp only [Instr.exec, run_bind, run_reg, run_stack, run_progEnd, run_getWord, ok_bind,
      run_ite] at hx
    split at hx <;> cases hx <;> simp
  | stind =>
    simp only [Instr.exec, run_ite] at hx
    split at hx <;> cases hx <;> simp
  | _ =>
    cases hx
    simp

theorem exec_stops (h : ¬ ins.GoesOn m.vm m.core) (hx : ins.exec fpu tPC m = .ok (next, m')) :
    ∃ termCode, next.termCode = some termCode ∧ termCode ≠ 1 := by
  cases ins with
  | halt | nop | invalid =>
    cases hx
    exact ⟨_, rfl, by decide⟩
  | call | ret | push =>
    rw [exec_rejects (not_not.mp h)] at hx
    cases hx
    exact ⟨_, rfl, by decide⟩
  | pop r =>
    by_cases hrej : Rejects m.vm.progEnd m.core.stack (m.core.reg SP) (.pop r)
    · rw [exec_rejects hrej] at hx
      cases hx
      exact ⟨_, rfl, by decide⟩
    · rw [exec_pop hrej] at hx
      cases hx
      exact ⟨_, rfl, by decide⟩
  | ldind r d s =>
    simp only [Instr.exec, run_bind, run_reg, ok_bind, run_ite] at hx
    cases (if_neg h).symm.trans hx
    exact ⟨_, rfl, by decide⟩
  | stind r d s =>
    simp only [Instr.exec, run_ite] at hx
    cases (if_neg h).symm.trans hx
    exact ⟨_, rfl, by decide⟩
  | divf r s =>
    simp only [Instr.exec, run_bind, run_reg, ok_bind, run_ite] at hx
    cases (if_pos (Bool.not_eq_false _ ▸ h)).symm.trans hx
    exact ⟨_, rfl, by decide⟩
  | divi r s =>
    simp only [Instr.exec, run_bind, run_reg, ok_bind, run_ite] at hx
    split at hx
    · cases hx
      exact ⟨_, rfl, by decide⟩
    · rename_i hzero
      split at hx
      · cases hx
      · rename_i hover
        exact (h ⟨hzero, hover⟩).elim
  | _ => exact (h trivial).elim

end

/-! ## One step -/

/-- Each core that has not stopped has its PC in memory. -/
def Sys.InMemory (s : Sys) : Prop := ∀ i, s.Running i → (s.pc i).toNat < MEM_SIZE

/-- The next instruction of the core `i` stops the core, or leads to an address in memory. -/
def Stays (i : Nat) (s : Sys) : Prop :=
  ∀ ins, s.Running i → s.instr i = some ins → ins.GoesOn s.vm (s.core i) →
    (ins.target s.vm (s.core i) (s.pc i + 1)).toNat < MEM_SIZE

/-- The next step of the core `i` fetches from memory. If it takes the PC out of memory, the core
has stopped with `VMX20_ADDRESS_OUT_OF_RANGE`, or its instruction has stopped it. -/
def FetchSafe (fpu : Fpu) (i : Nat) (s : Sys) : Prop :=
  (∀ a, Access.fetch a ∈ footprint fpu i s → a.toNat < MEM_SIZE) ∧
    ∀ s' ins, step fpu i s = .ok s' → s.Running i → s.instr i = some ins →
      MEM_SIZE ≤ (s'.pc i).toNat →
      (s'.core i).status = VMX20_ADDRESS_OUT_OF_RANGE ∨ ¬ ins.GoesOn s.vm (s.core i)

section
variable {fpu : Fpu} {s s' : Sys} {i : Nat} {ins : Instr}

theorem Sys.InMemory.instr (h : s.InMemory) (hr : s.Running i) : ∃ ins, s.instr i = some ins := by
  have hlt := h i hr
  unfold Sys.instr VM.getWord
  rw [if_neg (by omega)]
  exact ⟨_, rfl⟩

theorem step_goesOn (hr : s.Running i) (hi : s.instr i = some ins)
    (hg : ins.GoesOn s.vm (s.core i)) (hs : step fpu i s = .ok s') :
    s'.pc i = ins.target s.vm (s.core i) (s.pc i + 1) ∧ (s'.core i).status = 1 := by
  obtain ⟨m, hm, hstatus⟩ := exec_goesOn fpu (s.pc i + 1) (m := s.fetched i) hg
  rw [step_instr hr hi hm] at hs
  cases hs
  unfold Sys.pc
  rw [Sys.after_core, Function.update_self]
  exact ⟨Function.update_self PC _ m.core.reg, hstatus.trans hr.2⟩

theorem step_stops (hr : s.Running i) (hi : s.instr i = some ins)
    (hg : ¬ ins.GoesOn s.vm (s.core i)) (hs : step fpu i s = .ok s') : ¬ s'.Running i := by
  rintro ⟨-, hstatus⟩
  cases hx : ins.exec fpu (s.pc i + 1) (s.fetched i) with
  | error e =>
    rw [(step_instr_error hr hi hx).1] at hs
    cases hs
  | ok r =>
    obtain ⟨⟨tPC, code⟩, m⟩ := r
    obtain ⟨c, rfl, hc⟩ := exec_stops (m := s.fetched i) hg hx
    rw [step_instr hr hi hx] at hs
    cases hs
    rw [Sys.after_core, Function.update_self] at hstatus
    exact hc hstatus

/-- A step fetches the word at its PC only. -/
theorem footprint_fetch {a : Word} (h : .fetch a ∈ footprint fpu i s) :
    s.Running i ∧ a = s.pc i := by
  by_cases hr : s.Running i
  · refine ⟨hr, ?_⟩
    cases hi : s.instr i with
    | none =>
      rw [(step_no_instr hr hi).2] at h
      simpa using h
    | some ins =>
      cases hx : ins.exec fpu (s.pc i + 1) (s.fetched i) with
      | error e =>
        rw [(step_instr_error hr hi hx).2] at h
        simpa using h
      | ok r =>
        rw [footprint_instr hr hi hx, exec_fetches hx] at h
        simpa [Sys.fetched, Sys.machine] using h
  · unfold footprint at h
    rw [if_neg hr] at h
    cases h

variable (fpu) in
/-- An instruction that leads out of memory is not stopped, and the next fetch is outside. -/
theorem step_leaves (hr : s.Running i) (hi : s.instr i = some ins)
    (hg : ins.GoesOn s.vm (s.core i))
    (hout : MEM_SIZE ≤ (ins.target s.vm (s.core i) (s.pc i + 1)).toNat) :
    ∃ s', step fpu i s = .ok s' ∧ step fpu i s' = .error .fault ∧
      footprint fpu i s' = [.fetch (ins.target s.vm (s.core i) (s.pc i + 1))] ∧
      ¬ FetchSafe fpu i s := by
  obtain ⟨s', hs⟩ : ∃ s', step fpu i s = .ok s' := by
    obtain ⟨m, hm, -⟩ := exec_goesOn fpu (s.pc i + 1) (m := s.fetched i) hg
    exact ⟨_, step_instr hr hi hm⟩
  obtain ⟨hpc, hstatus⟩ := step_goesOn hr hi hg hs
  refine ⟨s', hs, ?_⟩
  rw [← hpc] at hout ⊢
  have hr' : s'.Running i := by
    refine ⟨?_, hstatus⟩
    rw [(step_keeps hs).1]
    exact hr.1
  have hno : s'.instr i = none := by
    unfold Sys.instr VM.getWord
    rw [if_pos hout]
    rfl
  refine ⟨(step_no_instr hr' hno).1, (step_no_instr hr' hno).2, ?_⟩
  intro hsafe
  rcases hsafe.2 _ ins hs hr hi hout with hcode | hstop
  · rw [hstatus] at hcode
    cases hcode
  · exact hstop hg

theorem fetchSafe_iff (h : s.InMemory) : FetchSafe fpu i s ↔ Stays i s := by
  constructor
  · intro hsafe ins hr hi hg
    by_contra hout
    obtain ⟨s', -, -, -, hnot⟩ := step_leaves fpu hr hi hg (by omega)
    exact hnot hsafe
  · intro hstay
    refine ⟨?_, ?_⟩
    · intro a ha
      obtain ⟨hr, rfl⟩ := footprint_fetch ha
      exact h i hr
    · intro s' ins hs hr hi hout
      refine Or.inr fun hg => ?_
      have hpc := (step_goesOn hr hi hg hs).1
      have hin := hstay ins hr hi hg
      rw [hpc] at hout
      omega

theorem stays_step (h : s.InMemory) (hstay : Stays i s) (hs : step fpu i s = .ok s') :
    s'.InMemory := by
  intro j hj
  by_cases hr : s.Running i
  · obtain ⟨ins, hi⟩ := h.instr hr
    by_cases hji : j = i
    · subst hji
      by_cases hg : ins.GoesOn s.vm (s.core j)
      · rw [(step_goesOn hr hi hg hs).1]
        exact hstay ins hr hi hg
      · exact absurd hj (step_stops hr hi hg hs)
    · have hcore : s'.core j = s.core j := step_other hji hs
      have hvm := (step_keeps hs).1
      unfold Sys.Running at hj
      unfold Sys.pc
      rw [hcore] at hj ⊢
      exact h j ⟨by rw [hvm] at hj; exact hj.1, hj.2⟩
  · rw [step_idle hr] at hs
    cases hs
    exact h j hj

end

/-! ## Runs -/

theorem inMemory_execute {vm : VM} {n : Word} {initialSP : Nat → Word} {s : Sys}
    (h : execute vm n initialSP = some s) :
    s.InMemory ↔ n = 0 ∨ vm.entryPoint.toNat < MEM_SIZE := by
  unfold execute at h
  split at h
  · cases h
  cases h
  unfold Sys.InMemory Sys.Running Sys.pc startCore
  simp only [Function.update_self]
  constructor
  · intro h
    by_cases hn : n = 0
    · exact Or.inl hn
    · exact Or.inr (h 0 ⟨by bv_omega, trivial⟩)
  · rintro (rfl | h) i ⟨hi, -⟩
    · exact absurd hi (Nat.not_lt_zero i)
    · exact h

/-- A run fetches from memory only, and stops the cores that leave it, if and only if the entry
point is in memory and each instruction that does not stop its core leads to an address in memory.
-/
theorem fetch_safe {fpu : Fpu} {vm : VM} {n : Word} {initialSP : Nat → Word} {s : Sys}
    (h : execute vm n initialSP = some s) (is : List Nat) :
    (n = 0 ∨ vm.entryPoint.toNat < MEM_SIZE) ∧ Along (step fpu) Stays is s ↔
      s.InMemory ∧ Along (step fpu) (FetchSafe fpu) is s := by
  rw [← inMemory_execute h]
  refine and_congr_right fun hs => ?_
  constructor
  · refine along_imp (J := Sys.InMemory) ?_ ?_ hs
    · intro i s s' h hstay hstep
      exact stays_step h hstay hstep
    · intro i s h hstay
      exact (fetchSafe_iff h).mpr hstay
  · refine along_imp (J := Sys.InMemory) ?_ ?_ hs
    · intro i s s' h hsafe hstep
      exact stays_step h ((fetchSafe_iff h).mp hsafe) hstep
    · intro i s h hsafe
      exact (fetchSafe_iff h).mp hsafe

/-- A jump to the halt at the address 1. -/
theorem fetch_safe_jump : ∃ s, execute (blank.withExecutable 0 [0x00000014, 0]) 1 (fun _ => 100) =
    some s ∧ s.InMemory ∧ Along (step noFpu) (FetchSafe noFpu) [0, 0] s := by
  refine ⟨_, execute_oneCore, (fetch_safe execute_oneCore [0, 0]).mp ⟨Or.inr (by decide), ?_, ?_⟩⟩
  · rintro ins - hi -
    obtain rfl : Instr.jmp 1 = ins := Option.some.inj hi
    decide
  intro s₁ h₁
  cases h₁
  refine ⟨?_, fun _ _ => trivial⟩
  rintro ins - hi hg
  obtain rfl : Instr.halt = ins := Option.some.inj hi
  exact hg.elim

/-- A jump out of memory. -/
theorem fetch_outside : ∃ vm s s',
    loadExecutableFile (fun _ => 0) (initVm blank) (some (executable 0 [0x7ffff014])) =
      .ok ⟨1, none, vm⟩ ∧ execute vm 1 (fun _ => 100) = some s ∧ step noFpu 0 s = .ok s' ∧
    step noFpu 0 s' = .error .fault ∧ footprint noFpu 0 s' = [.fetch 0x80000] ∧
    ¬ FetchSafe noFpu 0 s := by
  have hi : (oneCore ((initVm blank).withExecutable 0 [0x7ffff014]) 100).instr 0 =
      some (.jmp 0x80000) := rfl
  obtain ⟨s', hs⟩ := step_leaves noFpu ⟨by decide, rfl⟩ hi trivial (by decide)
  exact ⟨_, _, s', load_executable (by decide), execute_oneCore, hs⟩

end Cs720.Vm
