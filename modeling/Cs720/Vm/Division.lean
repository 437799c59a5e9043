import Cs720.Vm.Effects
import Cs720.Vm.Load

/-! # Integer division

`divi` checks for a zero divisor, but -2^31 / -1 does not fit in a word either, and the host traps.
-/

namespace Cs720.Vm

open Cs720.Lib

/-- If the core is at a division, it stops with its registers as they were, or the exact quotient is
a word and goes into the register. -/
def DivisionSafe (fpu : Fpu) (i : Nat) (s : Sys) : Prop :=
  ∀ r t, s.Running i → s.instr i = some (.divi r t) → ∃ s', step fpu i s = .ok s' ∧
    ((s'.core i).status = VMX20_DIVIDE_BY_ZERO ∧
        (∀ q, q ≠ PC → (s'.core i).reg q = (s.core i).reg q) ∨
      (s.core i).reg t ≠ 0 ∧ ∃ q : Word,
        q.toInt = ((s.core i).reg r).toInt.tdiv ((s.core i).reg t).toInt ∧
        (s'.core i).reg = Function.update (Function.update (s.core i).reg r q) PC (s.pc i + 1))

/-- If the core is at a division, it is not -2^31 / -1. -/
def QuotientFits (i : Nat) (s : Sys) : Prop :=
  ∀ r t, s.Running i → s.instr i = some (.divi r t) →
    (s.core i).reg r ≠ BitVec.intMin 32 ∨ (s.core i).reg t ≠ -1

section
variable {fpu : Fpu} {m : Machine} {r t : Reg} {tPC : Word} {s : Sys} {i : Nat}

theorem exec_divi_zero (h : m.core.reg t = 0) :
    (Instr.divi r t).exec fpu tPC m = .ok (⟨tPC, some VMX20_DIVIDE_BY_ZERO⟩, m) := by
  simp only [Instr.exec, run_bind, run_reg, ok_bind, run_ite]
  exact if_pos h

theorem exec_divi (h : m.core.reg t ≠ 0) (hfits : ¬ (Instr.divi r t).Traps m) :
    (Instr.divi r t).exec fpu tPC m =
      .ok (⟨tPC, none⟩, m.setReg r ((m.core.reg r).sdiv (m.core.reg t))) := by
  simp only [Instr.exec, run_bind, run_reg, ok_bind, run_ite]
  exact (if_neg h).trans ((if_neg hfits).trans rfl)

theorem exec_divi_traps (h : (Instr.divi r t).Traps m) :
    (Instr.divi r t).exec fpu tPC m = .error .fault := by
  have hne : m.core.reg t ≠ 0 := by
    rw [h.2]
    decide
  simp only [Instr.exec, run_bind, run_reg, ok_bind, run_ite]
  exact (if_neg hne).trans (if_pos h)

theorem division_zero (hr : s.Running i) (hi : s.instr i = some (.divi r t))
    (h : (s.core i).reg t = 0) : ∃ s', step fpu i s = .ok s' ∧
      (s'.core i).status = VMX20_DIVIDE_BY_ZERO ∧
      ∀ q, q ≠ PC → (s'.core i).reg q = (s.core i).reg q := by
  refine ⟨_, step_instr hr hi (exec_divi_zero h), ?_⟩
  rw [Sys.after_core, Function.update_self]
  exact ⟨rfl, fun q hq => Machine.finish_reg hq⟩

theorem division_exact (hr : s.Running i) (hi : s.instr i = some (.divi r t))
    (h : (s.core i).reg t ≠ 0) (hfits : ¬ (Instr.divi r t).Traps (s.machine i)) :
    ∃ s', step fpu i s = .ok s' ∧ ∃ q : Word,
      q.toInt = ((s.core i).reg r).toInt.tdiv ((s.core i).reg t).toInt ∧
      (s'.core i).reg = Function.update (Function.update (s.core i).reg r q) PC (s.pc i + 1) := by
  refine ⟨_, step_instr hr hi (exec_divi h hfits), _,
    BitVec.toInt_sdiv_of_ne_or_ne _ _ (not_and_or.mp hfits), ?_⟩
  rw [Sys.after_core, Function.update_self]
  rfl

theorem divisionSafe_iff : DivisionSafe fpu i s ↔ QuotientFits i s := by
  constructor
  · intro hsafe r t hr hi
    by_contra htraps
    obtain ⟨s', hs, -⟩ := hsafe r t hr hi
    have hfault : step fpu i s = .error .fault :=
      (step_instr_error hr hi (exec_divi_traps (not_or.mp htraps |>.imp not_not.mp not_not.mp))).1
    rw [hs] at hfault
    cases hfault
  · intro hfits r t hr hi
    have hfits := hfits r t hr hi
    by_cases hz : (s.core i).reg t = 0
    · obtain ⟨s', hs, hstop⟩ := division_zero hr hi hz
      exact ⟨s', hs, Or.inl hstop⟩
    · obtain ⟨s', hs, hq⟩ := division_exact hr hi hz (not_and_or.mpr hfits)
      exact ⟨s', hs, Or.inr ⟨hz, hq⟩⟩

end

/-- In a run each division stops its core or gives the exact quotient, if and only if it is never
-2^31 / -1. -/
theorem division_safe (fpu : Fpu) (is : List Nat) (s : Sys) :
    Along (step fpu) (DivisionSafe fpu) is s ↔ Along (step fpu) QuotientFits is s :=
  along_iff (J := fun _ => True) (fun _ _ _ _ _ => trivial) (fun _ _ _ => divisionSafe_iff) trivial

/-- `load r0` of -2^31, `ldimm r1, -1`, `divi r0, r1`. -/
def minByMinusOne : List Word := [0x00002001, 0xfffff103, 0x0000100d, 0x80000000]

/-- The two loads, and then the division kills the host. -/
theorem division_traps : ∃ vm s s',
    loadExecutableFile (fun _ => 0) (initVm blank) (some (executable 0 minByMinusOne)) =
      .ok ⟨1, none, vm⟩ ∧ execute vm 1 (fun _ => 100) = some s ∧
    play noFpu [0, 0] s = .ok s' ∧ step noFpu 0 s' = .error .fault ∧
    ¬ Along (step noFpu) (DivisionSafe noFpu) [0, 0, 0] s := by
  obtain ⟨s', hplay, hi, hr₀, hr₁, hr⟩ : ∃ s',
      play noFpu [0, 0] (oneCore ((initVm blank).withExecutable 0 minByMinusOne) 100) = .ok s' ∧
      s'.instr 0 = some (.divi 0 1) ∧ (s'.core 0).reg 0 = BitVec.intMin 32 ∧
      (s'.core 0).reg 1 = -1 ∧ s'.Running 0 :=
    ⟨_, rfl, rfl, by decide, by decide, by decide, rfl⟩
  have hfault : step noFpu 0 s' = .error .fault :=
    (step_instr_error hr hi (exec_divi_traps ⟨hr₀, hr₁⟩)).1
  refine ⟨_, _, s', load_executable (by decide), execute_oneCore, hplay, hfault, ?_⟩
  intro hsafe
  have hlast : Along (step noFpu) (DivisionSafe noFpu) [0] s' := along_rest hsafe hplay
  obtain ⟨t, ht, -⟩ := hlast.1 0 1 hr hi
  rw [hfault] at ht
  cases ht

end Cs720.Vm
