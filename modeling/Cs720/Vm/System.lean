import Cs720.Lib.Interleave
import Cs720.Vm.Local

/-! # The cores of a VM (`execute`, `fetchDecodeExecute`)

Each thread runs one core, and a step is one call of `executeInstruction`.
-/

namespace Cs720.Vm

open Cs720.Lib

structure Sys where
  vm : VM
  core : Nat → Core

/-- The core `i` when its thread has entered the loop. -/
def startCore (vm : VM) (initialSP : Nat → Word) (i : Nat) : Core where
  reg := Function.update (Function.update vm.reg SP (initialSP i)) PC vm.entryPoint
  stack := initialSP i
  status := 1
  pid := BitVec.ofNat 32 i

/-- All threads have started, or `execute` has returned 0. -/
def execute (vm : VM) (numProcessors : Word) (initialSP : Nat → Word) : Option Sys :=
  if numProcessors.toNat > VMX20_MAX_PROCESSORS then none
  else some { vm := { vm with numProcessors }, core := startCore vm initialSP }

/-- One core, at the start. -/
def oneCore (vm : VM) (initialSP : Word) : Sys where
  vm := { vm with numProcessors := 1 }
  core := startCore vm fun _ => initialSP

theorem execute_oneCore {vm : VM} {initialSP : Word} :
    execute vm 1 (fun _ => initialSP) = some (oneCore vm initialSP) := rfl

namespace Sys

variable (s : Sys) (i : Nat)

/-- The thread of the core is in its loop. -/
def Running : Prop := i < s.vm.numProcessors.toNat ∧ (s.core i).status = 1

instance : Decidable (s.Running i) := inferInstanceAs (Decidable (_ ∧ _))

/-- The address of the next instruction. -/
def pc : Word := (s.core i).reg PC

def machine : Machine := ⟨s.vm, s.core i, []⟩

/-- The system when the core `i` has come to `m`. -/
@[simps -fullyApplied]
def after (m : Machine) : Sys := { vm := m.vm, core := Function.update s.core i m.core }

end Sys

def step (fpu : Fpu) (i : Nat) (s : Sys) : C Sys :=
  if s.Running i then do
    let (_, m) ← executeInstruction fpu (s.pc i) (s.machine i)
    return s.after i m
  else return s

/-- A host that gives 0 for each operation. -/
def noFpu : Fpu := ⟨fun _ _ => 0, fun _ _ => 0, fun _ _ => 0, fun _ _ => 0⟩

abbrev play (fpu : Fpu) : List Nat → Sys → C Sys := playFrom (step fpu)

/-- The accesses of the next step of the core `i`. A step that faults has fetched its instruction
and nothing else. -/
def footprint (fpu : Fpu) (i : Nat) (s : Sys) : List Access :=
  if s.Running i then
    match executeInstruction fpu (s.pc i) (s.machine i) with
    | .ok (_, m) => m.log
    | .error _ => [.fetch (s.pc i)]
  else []

/-- The accesses in a schedule, up to a step that faults, with the core that makes them. -/
def accesses (fpu : Fpu) : List Nat → Sys → List (Nat × Access)
  | [], _ => []
  | i :: is, s =>
    (footprint fpu i s).map (fun a => (i, a)) ++
      match step fpu i s with
      | .ok s' => accesses fpu is s'
      | .error _ => []

section
variable {fpu : Fpu} {s s' : Sys} {i j : Nat}

theorem step_idle (h : ¬ s.Running i) : step fpu i s = .ok s := if_neg h

theorem step_running (h : s.Running i) : step fpu i s =
    (executeInstruction fpu (s.pc i) (s.machine i) >>= fun r => .ok (s.after i r.2)) := if_pos h

/-- What a step can change. -/
structure Stepped (fpu : Fpu) (i : Nat) (s : Sys) (m : Machine) : Prop where
  run : ∃ b, executeInstruction fpu (s.pc i) (s.machine i) = .ok (b, m)
  footprint : footprint fpu i s = m.log
  frame : Frame (s.machine i) m m.log

theorem step_cases (h : step fpu i s = .ok s') : s' = s ∧ ¬ s.Running i ∨
    s.Running i ∧ ∃ m, Stepped fpu i s m ∧ s' = s.after i m := by
  by_cases hi : s.Running i
  · rw [step_running hi, bind_ok] at h
    obtain ⟨⟨b, m⟩, hm, hs'⟩ := h
    cases hs'
    obtain ⟨l, hl, -⟩ := local_executeInstruction _ _ _ hm
    have hlog : m.log = l := hl.log
    refine Or.inr ⟨hi, m, ⟨⟨b, hm⟩, ?_, hlog ▸ hl⟩, rfl⟩
    unfold footprint
    rw [if_pos hi, hm]
  · rw [step_idle hi] at h
    cases h
    exact Or.inl ⟨rfl, hi⟩

/-- A step changes nothing but memory, registers and statuses. -/
theorem step_keeps (h : step fpu i s = .ok s') :
    s'.vm = { s.vm with memory := s'.vm.memory } ∧
      ∀ j, s'.core j = { s.core j with reg := (s'.core j).reg, status := (s'.core j).status } := by
  rcases step_cases h with ⟨rfl, -⟩ | ⟨-, m, hm, rfl⟩
  · exact ⟨rfl, fun _ => rfl⟩
  · refine ⟨hm.frame.vm, ?_⟩
    intro j
    rw [Sys.after_core]
    by_cases hj : j = i
    · rw [hj, Function.update_self]
      exact hm.frame.core
    · rw [Function.update_of_ne hj]

theorem step_other (hj : j ≠ i) (h : step fpu i s = .ok s') : s'.core j = s.core j := by
  rcases step_cases h with ⟨rfl, -⟩ | ⟨-, m, -, rfl⟩
  · rfl
  · rw [Sys.after_core, Function.update_of_ne hj]

end

/-! ## The instruction of a step -/

/-- The machine at the end of an instruction. -/
def Machine.finish (m : Machine) (next : Next) : Machine :=
  match next.termCode with
  | some termCode => (m.setStatus termCode).setReg PC next.tPC
  | none => m.setReg PC next.tPC

theorem Machine.finish_reg {m : Machine} {next : Next} {r : Reg} (hr : r ≠ PC) :
    (m.finish next).core.reg r = m.core.reg r := by
  obtain ⟨tPC, _ | c⟩ := next <;> exact Function.update_of_ne hr _ _

/-- The next instruction of the core `i`, if its PC is in memory. -/
def Sys.instr (s : Sys) (i : Nat) : Option Instr :=
  (s.vm.getWord (s.pc i)).map fun word => decode word (s.pc i)

/-- The machine of the core `i` with its instruction fetched. -/
def Sys.fetched (s : Sys) (i : Nat) : Machine := (s.machine i).note (.fetch (s.pc i))

section
variable {fpu : Fpu} {s s' : Sys} {i : Nat} {ins : Instr} {next : Next} {m : Machine} {e : Stop}

theorem execute_instr (hi : s.instr i = some ins) :
    executeInstruction fpu (s.pc i) (s.machine i) = ins.step fpu (s.pc i) (s.machine i) := by
  obtain ⟨word, hword, rfl⟩ := Option.map_eq_some_iff.mp hi
  exact executeInstruction_eq fpu rfl hword

theorem run_step {m m' : Machine} {pc : Word}
    (hx : ins.exec fpu (pc + 1) (m.note (.fetch pc)) = .ok (next, m')) :
    ins.step fpu pc m = .ok (next.termCode.isNone, m'.finish next) := by
  unfold Instr.step
  rw [run_bind, run_access, ok_bind, run_bind]
  dsimp only
  rw [hx, ok_bind]
  obtain ⟨tPC, _ | c⟩ := next <;> rfl

theorem run_instr (hx : ins.exec fpu (s.pc i + 1) (s.fetched i) = .ok (next, m)) :
    ins.step fpu (s.pc i) (s.machine i) = .ok (next.termCode.isNone, m.finish next) :=
  run_step hx

theorem run_instr_error (hx : ins.exec fpu (s.pc i + 1) (s.fetched i) = .error e) :
    ins.step fpu (s.pc i) (s.machine i) = .error e := by
  unfold Instr.step
  rw [run_bind, run_access, ok_bind, run_bind]
  dsimp only
  rw [show ins.exec fpu (s.pc i + 1) ((s.machine i).note (.fetch (s.pc i))) = _ from hx, error_bind]

/-- What a step does, from what its instruction does. -/
theorem step_instr (hr : s.Running i) (hi : s.instr i = some ins)
    (hx : ins.exec fpu (s.pc i + 1) (s.fetched i) = .ok (next, m)) :
    step fpu i s = .ok (s.after i (m.finish next)) := by
  rw [step_running hr, execute_instr hi, run_instr hx, ok_bind]

theorem footprint_instr (hr : s.Running i) (hi : s.instr i = some ins)
    (hx : ins.exec fpu (s.pc i + 1) (s.fetched i) = .ok (next, m)) :
    footprint fpu i s = m.log := by
  unfold footprint
  rw [if_pos hr, execute_instr hi, run_instr hx]
  obtain ⟨tPC, _ | c⟩ := next <;> rfl

theorem step_instr_error (hr : s.Running i) (hi : s.instr i = some ins)
    (hx : ins.exec fpu (s.pc i + 1) (s.fetched i) = .error e) :
    step fpu i s = .error e ∧ footprint fpu i s = [.fetch (s.pc i)] := by
  refine ⟨by rw [step_running hr, execute_instr hi, run_instr_error hx, error_bind], ?_⟩
  unfold footprint
  rw [if_pos hr, execute_instr hi, run_instr_error hx]

/-- With its PC outside memory a core faults. -/
theorem step_no_instr (hr : s.Running i) (hi : s.instr i = none) :
    step fpu i s = .error .fault ∧ footprint fpu i s = [.fetch (s.pc i)] := by
  have hge : MEM_SIZE ≤ (s.pc i).toNat := by
    by_contra hlt
    simp [Sys.instr, VM.getWord, hlt] at hi
  have hx : executeInstruction fpu (s.pc i) (s.machine i) = .error .fault := by
    unfold executeInstruction
    rw [run_bind, run_fetch_fault hge, error_bind]
  refine ⟨by rw [step_running hr, hx, error_bind], ?_⟩
  unfold footprint
  rw [if_pos hr, hx]

end

end Cs720.Vm
