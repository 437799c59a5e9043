import Cs720.Vm.Load
import Cs720.Vm.Stack

/-! # Which words `call`, `ret`, `push` and `pop` access

Their checks of SP let some addresses pass that are not on the stack.
-/

namespace Cs720.Vm

open Cs720.Lib

/-- The addresses of the stack words that an instruction with the accesses `l` reads or writes. Only
the write of `ret` is not to its stack. -/
def stackAccesses (ins : Instr) (l : List Access) : List Word :=
  match ins with
  | .call _ | .push _ | .pop _ => l.filterMap fun
    | .read a | .write a => some a
    | .fetch _ => none
  | .ret _ => l.filterMap fun
    | .read a => some a
    | .write _ | .fetch _ => none
  | _ => []

/-- SP leaves room for the instruction. -/
def Fits (progEnd stack sp : Word) : Instr → Prop
  | .call _ => 3 ≤ sp.toNat ∧ sp.toNat ≤ MEM_SIZE
  | .ret _ => sp.toNat + 3 ≤ MEM_SIZE
  | .push _ => progEnd < sp ∧ sp.toNat ≤ MEM_SIZE
  | .pop _ => sp < stack ∧ sp.toNat < MEM_SIZE
  | _ => True

/-- The words are on the stack. -/
def OnStack (progEnd stack : Word) (l : List Word) : Prop :=
  ∀ a ∈ l, progEnd ≤ a ∧ a < stack ∧ a.toNat < MEM_SIZE

section
variable {progEnd stack sp : Word}

theorem call_fits {a : Word} (h : ¬ Rejects progEnd stack sp (.call a)) :
    OnStack progEnd stack [sp - 1, sp - 2, sp - 3] ↔ Fits progEnd stack sp (.call a) := by
  unfold Rejects at h
  unfold OnStack Fits MEM_SIZE
  simp only [List.mem_cons, List.not_mem_nil, or_false, forall_eq_or_imp, forall_eq]
  bv_omega

theorem ret_fits {a : Word} (h : ¬ Rejects progEnd stack sp (.ret a)) :
    OnStack progEnd stack [sp, sp + 1, sp + 2] ↔ Fits progEnd stack sp (.ret a) := by
  unfold Rejects at h
  unfold OnStack Fits MEM_SIZE
  simp only [List.mem_cons, List.not_mem_nil, or_false, forall_eq_or_imp, forall_eq]
  bv_omega

theorem push_fits {r : Reg} (h : ¬ Rejects progEnd stack sp (.push r)) :
    OnStack progEnd stack [sp - 1] ↔ Fits progEnd stack sp (.push r) := by
  unfold Rejects at h
  unfold OnStack Fits MEM_SIZE
  simp only [List.mem_cons, List.not_mem_nil, or_false, forall_eq]
  bv_omega

theorem pop_fits {r : Reg} (h : ¬ Rejects progEnd stack sp (.pop r)) :
    OnStack progEnd stack [sp] ↔ Fits progEnd stack sp (.pop r) := by
  unfold Rejects at h
  unfold OnStack Fits MEM_SIZE
  simp only [List.mem_cons, List.not_mem_nil, or_false, forall_eq]
  bv_omega

end

/-! ## One step -/

section
variable {fpu : Fpu} {s s' : Sys} {i : Nat} {ins : Instr}

theorem stackAccesses_rejects (hr : s.Running i) (hi : s.instr i = some ins)
    (h : s.Rejects i ins) : stackAccesses ins (footprint fpu i s) = [] := by
  rw [footprint_instr hr hi (exec_rejects h)]
  cases ins <;> rfl

theorem onStack_iff (hr : s.Running i) (hi : s.instr i = some ins) :
    OnStack s.vm.progEnd (s.core i).stack (stackAccesses ins (footprint fpu i s)) ↔
      s.Rejects i ins ∨ Fits s.vm.progEnd (s.core i).stack ((s.core i).reg SP) ins := by
  by_cases h : s.Rejects i ins
  · rw [stackAccesses_rejects hr hi h]
    simp [OnStack, h]
  · rw [or_iff_right h]
    cases ins with
    | call a =>
      rw [footprint_instr hr hi (exec_call h), ← call_fits h]
      rfl
    | ret word =>
      rw [footprint_instr hr hi (exec_ret h), ← ret_fits h]
      rfl
    | push r =>
      rw [footprint_instr hr hi (exec_push h), ← push_fits h]
      rfl
    | pop r =>
      rw [footprint_instr hr hi (exec_pop h), ← pop_fits h]
      rfl
    | _ => simp [stackAccesses, OnStack, Fits]

/-- What a `call` or a `push` saves is in memory, and the words of the program and those at SP and
above are as before. -/
def Saves (s s' : Sys) (i : Nat) (ins : Instr) : Prop :=
  let sp := (s.core i).reg SP
  let old (a : Word) := s'.vm.memory a = s.vm.memory a
  match ins with
  | .call _ => (∀ a, a < s.vm.progEnd ∨ sp ≤ a → old a) ∧ s'.vm.memory (sp - 1) = s.pc i + 1 ∧
      s'.vm.memory (sp - 2) = (s.core i).reg FP ∧ s'.vm.memory (sp - 3) = 0
  | .push r => (∀ a, a < s.vm.progEnd ∨ sp ≤ a → old a) ∧
      s'.vm.memory (sp - 1) = if r = SP then sp - 1 else (s.core i).reg r
  | _ => True

theorem step_saves (hr : s.Running i) (hi : s.instr i = some ins) (h : ¬ s.Rejects i ins)
    (hf : Fits s.vm.progEnd (s.core i).stack ((s.core i).reg SP) ins)
    (hs : step fpu i s = .ok s') : Saves s s' i ins := by
  cases ins with
  | call a =>
    obtain ⟨t, ht, hmem, -⟩ := step_call fpu hr hi h rfl rfl
    rw [hs] at ht
    cases ht
    unfold Sys.Rejects Rejects at h
    unfold Fits MEM_SIZE at hf
    unfold Saves
    dsimp only
    rw [hmem]
    refine ⟨?_, ?_, ?_, ?_⟩
    · intro b hb
      rw [poke_ne (by bv_omega), poke_ne (by bv_omega), poke_ne (by bv_omega)]
    · rw [poke_ne (by bv_omega), poke_ne (by bv_omega), poke_self (by unfold MEM_SIZE; bv_omega)]
    · rw [poke_ne (by bv_omega), poke_self (by unfold MEM_SIZE; bv_omega)]
    · rw [poke_self (by unfold MEM_SIZE; bv_omega)]
  | push r =>
    obtain ⟨t, ht, hmem, -⟩ := step_push fpu hr hi h rfl
    rw [hs] at ht
    cases ht
    unfold Fits MEM_SIZE at hf
    unfold Saves
    dsimp only
    rw [hmem]
    refine ⟨?_, ?_⟩
    · intro b hb
      rw [poke_ne (by bv_omega)]
    · rw [poke_self (by unfold MEM_SIZE; bv_omega)]
  | _ => trivial

variable (fpu) in
/-- A `call` with SP far outside memory saves nothing. -/
theorem step_loses {a : Word} (hr : s.Running i) (hi : s.instr i = some (.call a))
    (h : ¬ s.Rejects i (.call a)) (hsp : MEM_SIZE + 3 ≤ ((s.core i).reg SP).toNat) :
    ∃ s', step fpu i s = .ok s' ∧ s'.vm.memory = s.vm.memory := by
  obtain ⟨s', hs, hmem, -⟩ := step_call fpu hr hi h rfl rfl
  refine ⟨s', hs, ?_⟩
  unfold MEM_SIZE at hsp
  rw [hmem, poke_of_ge (by unfold MEM_SIZE; bv_omega), poke_of_ge (by unfold MEM_SIZE; bv_omega),
    poke_of_ge (by unfold MEM_SIZE; bv_omega)]

/-! ## Runs -/

variable (fpu) in
/-- The next instruction of the core `i` reads and writes its stack only between the end of the
program and the initial SP, in memory, and it loses nothing. -/
def Bounded (vm : VM) (initialSP : Nat → Word) (i : Nat) (s : Sys) : Prop :=
  ∀ ins, s.Running i → s.instr i = some ins →
    OnStack vm.progEnd (initialSP i) (stackAccesses ins (footprint fpu i s)) ∧
    ∀ s', ¬ s.Rejects i ins → step fpu i s = .ok s' → Saves s s' i ins

/-- The next instruction of the core `i` is rejected, or SP leaves room for it. -/
def Guarded (i : Nat) (s : Sys) : Prop :=
  ∀ ins, s.Running i → s.instr i = some ins →
    s.Rejects i ins ∨ Fits s.vm.progEnd (s.core i).stack ((s.core i).reg SP) ins

theorem guarded_iff {vm : VM} {initialSP : Nat → Word} (hend : s.vm.progEnd = vm.progEnd)
    (hstack : (s.core i).stack = initialSP i) : Guarded i s ↔ Bounded fpu vm initialSP i s := by
  rw [Guarded, Bounded, ← hend, ← hstack]
  refine forall_congr' fun ins => forall_congr' fun hr => forall_congr' fun hi => ?_
  rw [onStack_iff hr hi, iff_self_and]
  rintro (hrej | hfit) s' hacc hs
  · exact absurd hrej hacc
  · exact step_saves hr hi hacc hfit hs

/-- In a run the stack instructions stay on the stack if and only if SP leaves room for each that is
not rejected. -/
theorem stack_bounds {vm : VM} {n : Word} {initialSP : Nat → Word}
    (h : execute vm n initialSP = some s) (is : List Nat) :
    Along (step fpu) Guarded is s ↔ Along (step fpu) (Bounded fpu vm initialSP) is s := by
  refine along_iff (J := fun s => s.vm.progEnd = vm.progEnd ∧ ∀ i, (s.core i).stack = initialSP i)
    ?_ (fun i s hs => guarded_iff hs.1 (hs.2 i)) ?_
  · intro i s s' hs hstep
    obtain ⟨hvm, hcore⟩ := step_keeps hstep
    exact ⟨hvm ▸ hs.1, fun j => (congrArg Core.stack (hcore j)).trans (hs.2 j)⟩
  · unfold execute at h
    split at h
    · cases h
    · cases h
      exact ⟨rfl, fun _ => rfl⟩

end

/-- A call, a push in the function, and the end. -/
def callPush : Sys where
  vm := { (blank.withExecutable 0 [0x0000000f, 0x00000018, 0]) with numProcessors := 1 }
  core := startCore (blank.withExecutable 0 [0x0000000f, 0x00000018, 0]) fun _ => 100

theorem stack_bounds_call : Along (step noFpu)
    (Bounded noFpu (blank.withExecutable 0 [0x0000000f, 0x00000018, 0]) fun _ => 100) [0, 0, 0]
    callPush := by
  have hrun : execute (blank.withExecutable 0 [0x0000000f, 0x00000018, 0]) 1 (fun _ => 100) =
      some callPush := rfl
  refine (stack_bounds hrun [0, 0, 0]).mp ⟨?_, ?_⟩
  · rintro ins - hi
    obtain rfl : Instr.call 1 = ins := Option.some.inj hi
    exact Or.inr ⟨by decide, by decide⟩
  intro s₁ h₁
  cases h₁
  refine ⟨?_, ?_⟩
  · rintro ins - hi
    obtain rfl : Instr.push 0 = ins := Option.some.inj hi
    exact Or.inr ⟨by decide, by decide⟩
  intro s₂ h₂
  cases h₂
  refine ⟨?_, fun _ _ => trivial⟩
  rintro ins - hi
  obtain rfl : Instr.halt = ins := Option.some.inj hi
  exact Or.inr trivial

/-- A push at the end of the program overwrites its last word, and a call with the SP that the tests
use saves nothing. -/
theorem stack_overrun :
    (∃ vm s s', loadExecutableFile (fun _ => 0) (initVm blank) (some (executable 0 [0x18])) =
        .ok ⟨1, none, vm⟩ ∧
      execute vm 1 (fun _ => 1) = some s ∧ s.instr 0 = some (.push 0) ∧ ¬ s.Rejects 0 (.push 0) ∧
      step noFpu 0 s = .ok s' ∧ s.vm.memory 0 = 0x18 ∧ s'.vm.memory 0 = 0 ∧
      ¬ Bounded noFpu vm (fun _ => 1) 0 s) ∧
    ∃ vm s s', loadExecutableFile (fun _ => 0) (initVm blank) (some (executable 0 [0x0f])) =
        .ok ⟨1, none, vm⟩ ∧
      execute vm 1 (fun _ => 0xfffff) = some s ∧ s.instr 0 = some (.call 1) ∧
      ¬ s.Rejects 0 (.call 1) ∧ step noFpu 0 s = .ok s' ∧ s'.vm.memory = s.vm.memory ∧
      ¬ Bounded noFpu vm (fun _ => 0xfffff) 0 s := by
  constructor
  · refine ⟨_, _, _, load_executable (by decide), rfl, rfl, ?_, rfl, rfl, rfl, ?_⟩
    · rintro (h | h) <;> exact absurd h (by decide)
    · intro h
      have hon := (h (.push 0) ⟨by decide, rfl⟩ rfl).1 0 (by decide)
      exact absurd hon.1 (by decide)
  · have hrej : ¬ Sys.Rejects
        ⟨{ (initVm blank).withExecutable 0 [0x0f] with numProcessors := 1 },
          startCore ((initVm blank).withExecutable 0 [0x0f]) fun _ => 0xfffff⟩ 0 (.call 1) := by
      rintro (h | h) <;> exact absurd h (by decide)
    obtain ⟨s', hs, hmem⟩ := step_loses noFpu ⟨by decide, rfl⟩ rfl hrej (by decide)
    refine ⟨_, _, s', load_executable (by decide), rfl, rfl, hrej, hs, hmem, ?_⟩
    intro h
    have hon := (h (.call 1) ⟨by decide, rfl⟩ rfl).1 0xffffe (by decide)
    exact absurd hon.2.2 (by decide)

end Cs720.Vm
