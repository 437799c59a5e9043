import Mathlib.Tactic.Simps.Basic
import Cs720.Vm.Code

/-! # Running an instruction, and what its writes change -/

namespace Cs720.Vm

open Cs720.Lib

/-- What a read of `addr` gives, if a read that fails gives `out`. -/
def peek (memory : Word → Word) (addr out : Word) : Word :=
  if addr.toNat < MEM_SIZE then memory addr else out

/-- The memory after a write to `addr`, which fails if there is no such word. -/
def poke (memory : Word → Word) (addr word : Word) : Word → Word :=
  if addr.toNat < MEM_SIZE then Function.update memory addr word else memory

section
variable {memory : Word → Word} {addr addr' word out : Word}

theorem peek_of_lt (h : addr.toNat < MEM_SIZE) : peek memory addr out = memory addr := if_pos h

theorem poke_of_lt (h : addr.toNat < MEM_SIZE) :
    poke memory addr word = Function.update memory addr word := if_pos h

theorem poke_self (h : addr.toNat < MEM_SIZE) : poke memory addr word addr = word := by
  unfold poke
  rw [if_pos h, Function.update_self]

theorem poke_ne (h : addr' ≠ addr) : poke memory addr word addr' = memory addr' := by
  unfold poke
  split
  · exact Function.update_of_ne h _ _
  · rfl

theorem poke_of_ge (h : MEM_SIZE ≤ addr.toNat) : poke memory addr word = memory :=
  if_neg (by omega)

end

namespace Machine

variable (m : Machine)

@[simps -fullyApplied]
def note (a : Access) : Machine := { m with log := m.log ++ [a] }

@[simps -fullyApplied]
def setReg (r : Reg) (v : Word) : Machine :=
  { m with core := { m.core with reg := Function.update m.core.reg r v } }

@[simps -fullyApplied]
def setStatus (termCode : Int) : Machine := { m with core := { m.core with status := termCode } }

@[simps -fullyApplied]
def put (addr word : Word) : Machine :=
  { m with vm := { m.vm with memory := poke m.vm.memory addr word } }

variable (a : Access) (r s : Reg) (addr u v w : Word)

@[simp] theorem note_setReg : (m.setReg r v).note a = (m.note a).setReg r v := rfl

@[simp] theorem put_setReg : (m.setReg r v).put addr w = (m.put addr w).setReg r v := rfl

@[simp] theorem setReg_setReg : (m.setReg r v).setReg r w = m.setReg r w := by
  simp [setReg]

theorem setReg_between (h : r ≠ s) :
    ((m.setReg r u).setReg s v).setReg r w = (m.setReg s v).setReg r w := by
  simp [setReg, Function.update_comm h]

end Machine

section
variable {m : Machine} {r : Reg} {addr word out : Word}

@[simp] theorem run_fault {α : Type} : (fault : M α) m = .error .fault := rfl

@[simp] theorem run_access (a : Access) : access a m = .ok ((), m.note a) := rfl

@[simp] theorem run_reg : reg r m = .ok (m.core.reg r, m) := rfl

@[simp] theorem run_setReg : setReg r word m = .ok ((), m.setReg r word) := rfl

@[simp] theorem run_setStatus (c : Int) : setStatus c m = .ok ((), m.setStatus c) := rfl

@[simp] theorem run_stack : stack m = .ok (m.core.stack, m) := rfl

@[simp] theorem run_pid : pid m = .ok (m.core.pid, m) := rfl

@[simp] theorem run_progEnd : progEnd m = .ok (m.vm.progEnd, m) := rfl

@[simp] theorem run_numProcessors : numProcessors m = .ok (m.vm.numProcessors, m) := rfl

theorem run_fetch (h : addr.toNat < MEM_SIZE) :
    fetch addr m = .ok (m.vm.memory addr, m.note (.fetch addr)) := by
  simp [fetch, h]

theorem run_fetch_fault (h : MEM_SIZE ≤ addr.toNat) : fetch addr m = .error .fault := by
  simp [fetch, h]

@[simp] theorem run_getWord :
    getWord addr out m = .ok (peek m.vm.memory addr out, m.note (.read addr)) := by
  have h : (m.vm.getWord addr).getD out = peek m.vm.memory addr out := by
    unfold VM.getWord peek
    by_cases ha : addr.toNat < MEM_SIZE
    · rw [if_neg (by omega), if_pos ha, Option.getD_some]
    · rw [if_pos (by omega), if_neg ha, Option.getD_none]
  rw [← h]
  rfl

@[simp] theorem run_putWord :
    putWord addr word m = .ok ((), (m.note (.write addr)).put addr word) := by
  have h : (m.vm.putWord addr word).getD m.vm =
      { m.vm with memory := poke m.vm.memory addr word } := by
    unfold VM.putWord poke
    by_cases ha : addr.toNat < MEM_SIZE
    · rw [if_neg (by omega), if_pos ha, Option.getD_some]
    · rw [if_pos (by omega), if_neg ha, Option.getD_none]
  simp [putWord, Machine.put, h]

end

end Cs720.Vm
