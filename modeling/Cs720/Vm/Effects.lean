import Cs720.Vm.Commute
import Cs720.Vm.DataAccess
import Cs720.Vm.Stack

/-! # What one instruction can change

An instruction that stops its core on a division by zero or an address out of range changes nothing
but the PC and the status.
-/

namespace Cs720.Vm

open Cs720.Lib

/-- The FP after `ret`. -/
def Machine.restoredFP (m : Machine) : Word :=
  peek m.vm.memory (m.core.reg SP + 1) (m.core.reg FP)

/-- The words that the instruction can change in `m`. -/
def Instr.stores (m : Machine) : Instr → List Word
  | store _ a | cmpxchg _ _ a => [a]
  | stind _ d s => [m.core.reg s + d]
  | call _ => [m.core.reg SP - 1, m.core.reg SP - 2, m.core.reg SP - 3]
  | push _ => [m.core.reg SP - 1]
  | ret _ => [m.restoredFP - 1]
  | _ => []

/-- The registers that the instruction can change, the PC apart. -/
def Instr.sets : Instr → List Reg
  | load r _ | ldimm r _ | ldaddr r _ | ldind r _ _ | addf r _ | subf r _ | divf r _ | mulf r _
  | addi r _ | subi r _ | divi r _ | muli r _ | cmpxchg r _ _ | getpid r | getpn r => [r]
  | call _ | ret _ => [FP, SP]
  | push _ => [SP]
  | pop r => [r, SP]
  | _ => []

/-- An error that has a check of its own. -/
def Checked (termCode : Int) : Prop :=
  termCode = VMX20_DIVIDE_BY_ZERO ∨ termCode = VMX20_ADDRESS_OUT_OF_RANGE

/-! ## Machines that differ at these words and registers -/

/-- `m'` differs from `m` only at the words `as` and in the registers `rs`. -/
structure Within (as : List Word) (rs : List Reg) (m m' : Machine) : Prop where
  memory : ∀ a, m'.vm.memory a ≠ m.vm.memory a → a ∈ as ∧ a.toNat < MEM_SIZE
  reg : ∀ r, r ∉ rs → m'.core.reg r = m.core.reg r

section
variable {as : List Word} {rs : List Reg} {m m' : Machine}

theorem within_refl : Within as rs m m := ⟨fun _ h => absurd rfl h, fun _ _ => rfl⟩

theorem Within.note (a : Access) (h : Within as rs m m') : Within as rs m (m'.note a) := ⟨h.1, h.2⟩

theorem Within.setReg (h : Within as rs m m') {r : Reg} (hr : r ∈ rs) (v : Word) :
    Within as rs m (m'.setReg r v) := by
  refine ⟨h.1, fun q hq => ?_⟩
  have hqr : q ≠ r := by
    rintro rfl
    exact hq hr
  rw [Machine.setReg_core_reg, Function.update_of_ne hqr, h.2 q hq]

theorem Within.put (h : Within as rs m m') {a : Word} (ha : a ∈ as) (w : Word) :
    Within as rs m (m'.put a w) := by
  refine ⟨fun b hb => ?_, h.2⟩
  rw [Machine.put_vm_memory] at hb
  by_cases hba : b = a
  · subst hba
    refine ⟨ha, ?_⟩
    by_contra hge
    rw [poke_of_ge (Nat.not_lt.mp hge)] at hb
    exact hge (h.1 b hb).2
  · rw [poke_ne hba] at hb
    exact h.1 b hb
end

/-! ## Instructions -/

/-- The end of an instruction from `m`: all that it has changed is in its lists, and nothing has
changed if it stops the core with an error that it has checked. -/
structure Ends (i : Instr) (m : Machine) (next : Next) (m' : Machine) : Prop where
  within : Within (i.stores m) i.sets m m'
  checked : ∀ c, next.termCode = some c → Checked c → m' = m

section
variable {fpu : Fpu} {tPC : Word} {i : Instr} {m m' : Machine} {next : Next}

theorem ends_same : Ends i m next m := ⟨within_refl, fun _ _ _ => rfl⟩

theorem ends_goesOn (h : Within (i.stores m) i.sets m m') : Ends i m ⟨tPC, none⟩ m' :=
  ⟨h, fun _ hc => nomatch hc⟩

/-- The end of an instruction that sets one register. -/
theorem ends_setReg {r : Reg} (hr : r ∈ i.sets) (v : Word) :
    Ends i m ⟨tPC, none⟩ (m.setReg r v) := ends_goesOn (within_refl.setReg hr v)

theorem ends_op {f : Word → Word → Word} {r s : Reg} (hr : r ∈ i.sets)
    (h : Instr.exec.op tPC f r s m = .ok (next, m')) : Ends i m next m' := by
  cases h
  exact ends_setReg hr _

/-- The end of an instruction that is rejected, or else does one thing. -/
theorem ends_or_rejects {m₁ : Machine} {next₁ : Next} (h : i.exec fpu tPC m = .ok (next, m'))
    (hex : ¬ Rejects m.vm.progEnd m.core.stack (m.core.reg SP) i →
      i.exec fpu tPC m = .ok (next₁, m₁)) (hends : Ends i m next₁ m₁) : Ends i m next m' := by
  by_cases hrej : Rejects m.vm.progEnd m.core.stack (m.core.reg SP) i
  · rw [exec_rejects hrej] at h
    cases h
    exact ends_same
  · rw [hex hrej] at h
    cases h
    exact hends

theorem exec_ends (h : i.exec fpu tPC m = .ok (next, m')) : Ends i m next m' := by
  cases i with
  | halt | nop | invalid | jmp | blt | bgt | beq =>
    cases h
    exact ends_same
  | load r a =>
    rw [exec_load] at h
    cases h
    exact ends_goesOn ((within_refl.note _).setReg (List.mem_singleton_self r) _)
  | store r a =>
    rw [exec_store] at h
    cases h
    exact ends_goesOn ((within_refl.note _).put (List.mem_singleton_self a) _)
  | ldimm r | ldaddr r | getpid r | getpn r =>
    cases h
    exact ends_setReg (List.mem_singleton_self r) _
  | addf r s | subf r s | mulf r s | addi r s | subi r s | muli r s =>
    exact ends_op (List.mem_singleton_self r) h
  | ldind r d s =>
    by_cases hz : InMemory ((m.core.reg s).toInt + d.toInt)
    · rw [exec_ldind hz] at h
      cases h
      exact ends_goesOn ((within_refl.note _).setReg (List.mem_singleton_self r) _)
    · rw [exec_ldind_stop hz] at h
      cases h
      exact ends_same
  | stind r d s =>
    by_cases hz : InMemory (s.toNat + d.toInt)
    · rw [exec_stind hz] at h
      cases h
      exact ends_goesOn ((within_refl.note _).put (List.mem_singleton_self _) _)
    · rw [exec_stind_stop hz] at h
      cases h
      exact ends_same
  | divf r s =>
    simp only [Instr.exec, run_bind, run_reg, ok_bind, run_ite] at h
    split at h
    · cases h
      exact ends_same
    · exact ends_op (List.mem_singleton_self r) h
  | divi r s =>
    simp only [Instr.exec, run_bind, run_reg, ok_bind, run_ite, run_fault] at h
    split at h
    · cases h
      exact ends_same
    · split at h
      · cases h
      · exact ends_op (List.mem_singleton_self r) h
  | cmpxchg r s a =>
    by_cases heq : m.core.reg r = peek m.vm.memory a 0
    · rw [exec_exchange heq] at h
      cases h
      exact ends_goesOn (((within_refl.note _).note _).put (List.mem_singleton_self a) _)
    · rw [exec_compare heq] at h
      cases h
      exact ends_goesOn (((within_refl.note _).note _).setReg (List.mem_singleton_self r) _)
  | call a =>
    refine ends_or_rejects h exec_call (ends_goesOn ?_)
    have hstores : ∀ d ∈ [1, 2, 3], m.core.reg SP - d ∈ (Instr.call a).stores m := by
      intro d hd
      exact List.mem_map_of_mem (f := fun d => m.core.reg SP - d) hd
    have h₁ : Within ((Instr.call a).stores m) (Instr.call a).sets m
        ((m.note (.write (m.core.reg SP - 1))).put (m.core.reg SP - 1) tPC) :=
      (within_refl.note _).put (hstores 1 (by simp)) _
    have h₂ := (h₁.note (.write (m.core.reg SP - 2))).put (hstores 2 (by simp)) (m.core.reg FP)
    have h₃ := (h₂.note (.write (m.core.reg SP - 3))).put (hstores 3 (by simp)) 0
    exact (h₃.setReg (List.mem_cons_self ..) _).setReg (by simp [Instr.sets]) _
  | ret word =>
    refine ends_or_rejects h exec_ret (ends_goesOn ?_)
    have hstores : m.restoredFP - 1 ∈ (Instr.ret word).stores m := List.mem_singleton_self _
    have h₁ : Within ((Instr.ret word).stores m) (Instr.ret word).sets m
        (((m.note (.read (m.core.reg SP))).note (.read (m.core.reg SP + 1))).note
          (.read (m.core.reg SP + 2))) := ((within_refl.note _).note _).note _
    have h₂ := (h₁.note (.write (m.restoredFP - 1))).put hstores (peek m.vm.memory (m.core.reg SP) word)
    exact (h₂.setReg (List.mem_cons_self ..) _).setReg (by simp [Instr.sets]) _
  | push r =>
    refine ends_or_rejects h exec_push (ends_goesOn ?_)
    exact ((within_refl.note _).put (List.mem_singleton_self _) _).setReg (List.mem_singleton_self SP) _
  | pop r =>
    refine ends_or_rejects h exec_pop ⟨?_, ?_⟩
    · have h₁ : Within ((Instr.pop r).stores m) (Instr.pop r).sets m
          (m.note (.read (m.core.reg SP))) := within_refl.note _
      exact (h₁.setReg (List.mem_cons_self ..) _).setReg (by simp [Instr.sets]) _
    · rintro c hc (rfl | rfl) <;> cases hc

end

section
variable {fpu : Fpu} {s : Sys} {i : Nat} {ins : Instr} {tPC a : Word} {m m' : Machine} {next : Next}

/-- An instruction writes only words of its list. -/
theorem exec_writes (h : ins.exec fpu tPC m = .ok (next, m')) (ha : .write a ∈ m'.log) :
    .write a ∈ m.log ∨ a ∈ ins.stores m := by
  cases ins with
  | store r b =>
    rw [exec_store] at h
    cases h
    simpa [Instr.stores] using ha
  | stind r d t =>
    by_cases hz : InMemory (t.toNat + d.toInt)
    · rw [exec_stind hz] at h
      cases h
      simpa [Instr.stores] using ha
    · rw [exec_stind_stop hz] at h
      cases h
      exact .inl ha
  | cmpxchg r t b =>
    by_cases heq : m.core.reg r = peek m.vm.memory b 0
    · rw [exec_exchange heq] at h
      cases h
      simpa [Instr.stores] using ha
    · rw [exec_compare heq] at h
      cases h
      exact .inl (by simpa using ha)
  | call | ret | push =>
    simp only [Instr.exec, run_bind, run_reg, run_stack, run_progEnd, run_getWord, ok_bind,
      run_ite] at h
    split at h
    · cases h
      exact .inl ha
    · cases h
      simpa [Instr.stores, Machine.restoredFP, or_assoc] using ha
  | divi =>
    simp only [Instr.exec, run_bind, run_reg, ok_bind, run_ite, run_fault] at h
    split at h
    · cases h
      exact .inl ha
    split at h
    · cases h
    · cases h
      exact .inl ha
  | ldind | divf | pop =>
    simp only [Instr.exec, run_bind, run_reg, run_stack, run_progEnd, run_getWord, ok_bind,
      run_ite] at h
    split at h <;> cases h <;> exact .inl (by simpa using ha)
  | _ =>
    cases h
    exact .inl (by simpa using ha)

theorem footprint_writes (ha : Wrote (footprint fpu i s) a) :
    s.Running i ∧ ∃ ins, s.instr i = some ins ∧ a ∈ ins.stores (s.fetched i) := by
  obtain ⟨ha, -⟩ := ha
  by_cases hr : s.Running i
  swap
  · rw [footprint, if_neg hr] at ha
    cases ha
  refine ⟨hr, ?_⟩
  cases hi : s.instr i with
  | none =>
    obtain ⟨-, hfoot⟩ : _ ∧ footprint fpu i s = _ := step_no_instr hr hi
    rw [hfoot, List.mem_singleton] at ha
    cases ha
  | some ins =>
    refine ⟨ins, rfl, ?_⟩
    cases hx : ins.exec fpu (s.pc i + 1) (s.fetched i) with
    | error e =>
      rw [(step_instr_error hr hi hx).2, List.mem_singleton] at ha
      cases ha
    | ok r =>
      rw [footprint_instr hr hi hx] at ha
      refine (exec_writes hx ha).resolve_left fun hf => ?_
      cases List.mem_singleton.mp hf

end

/-! ## `executeInstruction` -/

/-- What `executeInstruction` can change, if the instruction of the core `i` is `ins` and the core
comes to `m`. -/
structure Effect (s : Sys) (i : Nat) (ins : Instr) (goesOn : Bool) (m : Machine) : Prop where
  checked : goesOn = false → Checked m.core.status →
    m.vm.memory = s.vm.memory ∧ ∀ r, r ≠ PC → m.core.reg r = (s.core i).reg r
  memory : ∀ a, m.vm.memory a ≠ s.vm.memory a →
    a ∈ ins.stores (s.machine i) ∧ a.toNat < MEM_SIZE
  reg : ∀ r, r ≠ PC → r ∉ ins.sets → m.core.reg r = (s.core i).reg r
  /-- `restoredFP` is what its name says. -/
  restored : ∀ word, ins = .ret word → goesOn = true → m.core.reg FP = (s.machine i).restoredFP
  vm : m.vm = { s.vm with memory := m.vm.memory }
  core : m.core.stack = (s.core i).stack ∧ m.core.pid = (s.core i).pid
  other : ∀ j, j ≠ i → (s.after i m).core j = s.core j

/-- The quotient of the host does not fit. -/
def Instr.Traps (m : Machine) : Instr → Prop
  | divi r s => m.core.reg r = BitVec.intMin 32 ∧ m.core.reg s = -1
  | _ => False

section
variable {fpu : Fpu} {s : Sys} {i : Nat} {ins : Instr} {next : Next} {m : Machine} {e : Stop}

theorem exec_traps {tPC : Word} (h : ins.exec fpu tPC m = .error e) : ins.Traps m ∧ e = .fault := by
  have he := (exec_error m.vm.memory ins h).1
  cases ins with
  | divi r s =>
    simp only [Instr.exec, run_bind, run_reg, ok_bind, run_ite, run_fault] at h
    split at h
    · cases h
    · split at h
      · exact ⟨‹_›, he⟩
      · cases h
  | ldind | stind | divf | cmpxchg | call | ret | push | pop =>
    simp only [Instr.exec, run_bind, run_reg, run_stack, run_progEnd, run_getWord, ok_bind, run_ite]
      at h
    split at h <;> cases h
  | _ => cases h

theorem finish_restored {tPC word : Word}
    (h : (Instr.ret word).exec fpu tPC m = .ok (next, m')) (hgo : next.termCode = none) :
    (m'.finish next).core.reg FP = m.restoredFP := by
  rw [Machine.finish_reg (by decide)]
  by_cases hrej : Rejects m.vm.progEnd m.core.stack (m.core.reg SP) (.ret word)
  · rw [exec_rejects hrej] at h
    cases h
    cases hgo
  · rw [exec_ret hrej] at h
    cases h
    rfl

theorem effect_of_exec (hx : ins.exec fpu (s.pc i + 1) (s.fetched i) = .ok (next, m)) :
    Effect s i ins next.termCode.isNone (m.finish next) := by
  obtain ⟨hwithin, hchecked⟩ := exec_ends hx
  obtain ⟨l, hframe, -⟩ := local_exec ins _ _ _ hx
  have hvm : (m.finish next).vm = m.vm := by
    obtain ⟨tPC, _ | c⟩ := next <;> rfl
  refine ⟨fun hgo hc => ?_, fun a ha => ?_, fun r hr hset => ?_, ?_, ?_, ?_, fun j hj => ?_⟩
  · obtain ⟨tPC, _ | c⟩ := next
    · cases hgo
    · rw [hvm, hchecked c rfl hc]
      exact ⟨rfl, fun r hr => Machine.finish_reg hr⟩
  · rw [hvm] at ha
    exact hwithin.memory a ha
  · rw [Machine.finish_reg hr]
    exact hwithin.reg r hset
  · rintro word rfl hgo
    exact finish_restored (m := s.fetched i) hx (Option.isNone_iff_eq_none.mp hgo)
  · rw [hvm]
    exact hframe.vm
  · have hstack : m.core.stack = (s.core i).stack := by
      rw [hframe.core]
      rfl
    have hpid : m.core.pid = (s.core i).pid := by
      rw [hframe.core]
      rfl
    obtain ⟨tPC, _ | c⟩ := next <;> exact ⟨hstack, hpid⟩
  · rw [Sys.after_core, Function.update_of_ne hj]

/-- Whatever the instruction, the core traps on a division, or nothing else has changed. -/
theorem executeInstruction_effect (fpu : Fpu) (s : Sys) (i : Nat) (hpc : (s.pc i).toNat < MEM_SIZE) :
    ∃ ins, s.instr i = some ins ∧
      (ins.Traps (s.machine i) ∧
          executeInstruction fpu (s.pc i) (s.machine i) = .error .fault ∨
        ∃ goesOn m, executeInstruction fpu (s.pc i) (s.machine i) = .ok (goesOn, m) ∧
          Effect s i ins goesOn m) := by
  have hi : s.instr i = some (decode (s.vm.memory (s.pc i)) (s.pc i)) := by
    unfold Sys.instr VM.getWord
    rw [if_neg (Nat.not_le.mpr hpc), Option.map_some]
  refine ⟨_, hi, ?_⟩
  rw [execute_instr hi]
  cases hx : (decode (s.vm.memory (s.pc i)) (s.pc i)).exec fpu (s.pc i + 1) (s.fetched i) with
  | error e =>
    obtain ⟨htraps, rfl⟩ := exec_traps hx
    exact Or.inl ⟨htraps, run_instr_error hx⟩
  | ok r => exact Or.inr ⟨_, _, run_instr hx, effect_of_exec hx⟩

/-- A `call` of the next instruction. -/
theorem executeInstruction_effect_call :
    ∃ goesOn m, executeInstruction noFpu 0 ((oneCore (blank.withExecutable 0 [0xf]) 100).machine 0) =
      .ok (goesOn, m) ∧ Effect (oneCore (blank.withExecutable 0 [0xf]) 100) 0 (.call 1) goesOn m := by
  obtain ⟨ins, hi, h⟩ := executeInstruction_effect noFpu (oneCore (blank.withExecutable 0 [0xf]) 100) 0
    (by decide)
  have hcall : ins = .call 1 := Option.some.inj (hi.symm.trans rfl)
  subst hcall
  rcases h with ⟨htraps, -⟩ | h
  · exact htraps.elim
  · exact h

end

end Cs720.Vm
