import Cs720.Vm.System

/-! # `call`, `ret`, `push` and `pop` -/

namespace Cs720.Vm

open Cs720.Lib

namespace Machine
variable (m : Machine)

def called (tPC : Word) : Machine :=
  let sp := m.core.reg SP
  (((((((m.note (.write (sp - 1))).put (sp - 1) tPC).note (.write (sp - 2))).put (sp - 2)
    (m.core.reg FP)).note (.write (sp - 3))).put (sp - 3) 0).setReg FP (sp - 2)).setReg SP (sp - 3)

/-- After `ret`; `word` is returned if there is no word at SP. -/
def returned (word : Word) : Machine :=
  let sp := m.core.reg SP
  let fp := peek m.vm.memory (sp + 1) (m.core.reg FP)
  ((((((m.note (.read sp)).note (.read (sp + 1))).note (.read (sp + 2))).note (.write (fp - 1))).put
    (fp - 1) (peek m.vm.memory sp word)).setReg FP fp).setReg SP (sp + 3)

def pushed (r : Reg) : Machine :=
  let sp := m.core.reg SP
  ((m.note (.write (sp - 1))).put (sp - 1) (if r = SP then sp - 1 else m.core.reg r)).setReg SP (sp - 1)

def popped (r : Reg) : Machine :=
  let sp := m.core.reg SP
  let m' := (m.note (.read sp)).setReg r (peek m.vm.memory sp (m.core.reg r))
  m'.setReg SP (m'.core.reg SP + 1)
end Machine

/-- The check of SP that the instruction makes fails. -/
def Rejects (progEnd stack sp : Word) : Instr → Prop
  | .call _ => sp > stack ∨ sp - 3 < progEnd
  | .ret _ => sp + 3 > stack ∨ sp < progEnd
  | .push _ | .pop _ => sp > stack ∨ sp < progEnd
  | _ => False

section
variable {fpu : Fpu} {tPC a word : Word} {r : Reg} {m : Machine}

theorem exec_call (h : ¬ Rejects m.vm.progEnd m.core.stack (m.core.reg SP) (.call a)) :
    (Instr.call a).exec fpu tPC m = .ok (⟨a, none⟩, m.called tPC) := by
  simp only [Instr.exec, run_bind, run_reg, run_stack, run_progEnd, ok_bind, run_ite]
  refine (if_neg h).trans ?_
  simp
  rfl

theorem exec_ret (h : ¬ Rejects m.vm.progEnd m.core.stack (m.core.reg SP) (.ret word)) :
    (Instr.ret word).exec fpu tPC m =
      .ok (⟨peek m.vm.memory (m.core.reg SP + 2) tPC, none⟩, m.returned word) := by
  simp only [Instr.exec, run_bind, run_reg, run_stack, run_progEnd, ok_bind, run_ite]
  refine (if_neg h).trans ?_
  simp
  rfl

theorem exec_push (h : ¬ Rejects m.vm.progEnd m.core.stack (m.core.reg SP) (.push r)) :
    (Instr.push r).exec fpu tPC m = .ok (⟨tPC, none⟩, m.pushed r) := by
  simp only [Instr.exec, run_bind, run_reg, run_stack, run_progEnd, ok_bind, run_ite]
  refine (if_neg h).trans ?_
  simp [Machine.pushed, Function.update_apply]

theorem exec_pop (h : ¬ Rejects m.vm.progEnd m.core.stack (m.core.reg SP) (.pop r)) :
    (Instr.pop r).exec fpu tPC m = .ok (⟨tPC, some VMX20_ILLEGAL_INSTRUCTION⟩, m.popped r) := by
  simp only [Instr.exec, run_bind, run_reg, run_stack, run_progEnd, ok_bind, run_ite]
  refine (if_neg h).trans ?_
  simp
  rfl

theorem exec_rejects {i : Instr} (h : Rejects m.vm.progEnd m.core.stack (m.core.reg SP) i) :
    i.exec fpu tPC m = .ok (⟨tPC, some VMX20_ADDRESS_OUT_OF_RANGE⟩, m) := by
  cases i with
  | call | ret | push | pop =>
    simp only [Instr.exec, run_bind, run_reg, run_stack, run_progEnd, ok_bind, run_ite]
    exact if_pos h
  | _ => exact h.elim
end

/-! ## Steps -/

def Sys.Rejects (s : Sys) (i : Nat) (ins : Instr) : Prop :=
  Vm.Rejects s.vm.progEnd (s.core i).stack ((s.core i).reg SP) ins

section
variable {fpu : Fpu} {s : Sys} {i : Nat} {a word sp fp : Word} {r : Reg}

variable (fpu) in
theorem step_call (hr : s.Running i) (hi : s.instr i = some (.call a))
    (h : ¬ s.Rejects i (.call a)) (hsp : (s.core i).reg SP = sp) (hfp : (s.core i).reg FP = fp) :
    ∃ s', step fpu i s = .ok s' ∧
      s'.vm.memory = poke (poke (poke s.vm.memory (sp - 1) (s.pc i + 1)) (sp - 2) fp) (sp - 3) 0 ∧
      s'.core = Function.update s.core i { s.core i with
        reg := Function.update (Function.update (Function.update (s.core i).reg FP (sp - 2)) SP
          (sp - 3)) PC a } := by
  subst hsp hfp
  exact ⟨_, step_instr hr hi (exec_call h), rfl, rfl⟩

variable (fpu) in
theorem step_ret (hr : s.Running i) (hi : s.instr i = some (.ret word))
    (h : ¬ s.Rejects i (.ret word)) (hsp : (s.core i).reg SP = sp)
    (hfp : peek s.vm.memory (sp + 1) ((s.core i).reg FP) = fp) :
    ∃ s', step fpu i s = .ok s' ∧
      s'.vm.memory = poke s.vm.memory (fp - 1) (peek s.vm.memory sp word) ∧
      s'.core = Function.update s.core i { s.core i with
        reg := Function.update (Function.update (Function.update (s.core i).reg FP fp) SP (sp + 3)) PC
          (peek s.vm.memory (sp + 2) (s.pc i + 1)) } := by
  subst hsp hfp
  exact ⟨_, step_instr hr hi (exec_ret h), rfl, rfl⟩

variable (fpu) in
theorem step_push (hr : s.Running i) (hi : s.instr i = some (.push r))
    (h : ¬ s.Rejects i (.push r)) (hsp : (s.core i).reg SP = sp) :
    ∃ s', step fpu i s = .ok s' ∧
      s'.vm.memory = poke s.vm.memory (sp - 1) (if r = SP then sp - 1 else (s.core i).reg r) ∧
      s'.core = Function.update s.core i { s.core i with
        reg := Function.update (Function.update (s.core i).reg SP (sp - 1)) PC (s.pc i + 1) } := by
  subst hsp
  exact ⟨_, step_instr hr hi (exec_push h), rfl, rfl⟩

end

end Cs720.Vm
