import Cs720.Vm.System

/-! # Steps of two cores commute when neither writes a word that the other accesses -/

namespace Cs720.Vm

open Cs720.Lib

/-- No word that `l` writes is one that `l'` accesses. -/
def Apart (l l' : List Access) : Prop := ∀ a, Wrote l a → ¬ Touched l' a

/-- The accesses of the core `i`. -/
def accessesOf (i : Nat) (l : List (Nat × Access)) : List Access :=
  (l.filter (·.1 = i)).map (·.2)

/-- In no schedule a core writes a word that another core accesses. -/
def Separate (fpu : Fpu) (s : Sys) : Prop :=
  ∀ is i j, i ≠ j → Apart (accessesOf i (accesses fpu is s)) (accessesOf j (accesses fpu is s))

/-! ## Steps that fault -/

section
variable {fpu : Fpu} {tPC addr : Word} {m : Machine} {e : Stop} {f : Word → Word}

variable (f) in
/-- Only the division faults, and it does so by what the registers hold. -/
theorem exec_error (i : Instr) (h : i.exec fpu tPC m = .error e) :
    e = .fault ∧ i.exec fpu tPC (m.withMemory f) = .error .fault := by
  cases i with
  | divi r s =>
    simp only [Instr.exec, run_bind, run_reg, ok_bind, run_ite, run_fault, Machine.withMemory_core]
      at h ⊢
    split at h
    · cases h
    · split at h
      · rename_i h0 hr
        cases h
        exact ⟨rfl, by rw [if_neg h0, if_pos hr]⟩
      · cases h
  | ldind | stind | divf | cmpxchg | call | ret | push | pop =>
    simp only [Instr.exec, run_bind, run_reg, run_stack, run_progEnd, run_getWord, ok_bind, run_ite]
      at h
    split at h <;> cases h
  | _ => cases h

theorem finish_ok (next : Next) (m : Machine) : ∃ r, (do
    if let some termCode := next.termCode then setStatus termCode
    setReg PC next.tPC
    return next.termCode.isNone : M Bool) m = .ok r := by
  obtain ⟨tPC, _ | c⟩ := next <;> exact ⟨_, rfl⟩

theorem executeInstruction_error (h : executeInstruction fpu addr m = .error e)
    (hf : addr.toNat < MEM_SIZE → f addr = m.vm.memory addr) :
    e = .fault ∧ executeInstruction fpu addr (m.withMemory f) = .error .fault := by
  unfold executeInstruction at h ⊢
  by_cases hlt : addr.toNat < MEM_SIZE
  · rw [run_bind, run_fetch hlt, ok_bind] at h ⊢
    rw [Machine.withMemory_vm_memory, hf hlt]
    rw [run_bind, run_reg, ok_bind] at h ⊢
    dsimp only at h ⊢
    rw [instruction_eq] at h ⊢
    rw [run_bind, bind_error] at h ⊢
    rcases h with h | ⟨⟨next, m'⟩, -, h⟩
    · obtain ⟨he, hx⟩ := exec_error f _ h
      exact ⟨he, Or.inl hx⟩
    · obtain ⟨r, hr⟩ := finish_ok next m'
      have hno := hr.symm.trans h
      cases hno
  · rw [run_bind, run_fetch_fault (by omega)] at h ⊢
    cases h
    exact ⟨rfl, rfl⟩

end

/-! ## Two steps -/

section
variable {fpu : Fpu} {s a b : Sys} {i j : Nat} {m n : Machine} {e : Stop}

theorem step_ok (hi : s.Running i) (h : step fpu i s = .ok a) :
    ∃ m, Stepped fpu i s m ∧ a = s.after i m := by
  rcases step_cases h with ⟨-, hn⟩ | ⟨-, m, hm, ha⟩
  · exact absurd hi hn
  · exact ⟨m, hm, ha⟩

theorem step_error (hi : s.Running i) (h : step fpu i s = .error e) :
    executeInstruction fpu (s.pc i) (s.machine i) = .error e ∧
      footprint fpu i s = [.fetch (s.pc i)] ∧ e = .fault := by
  rw [step_running hi, bind_error] at h
  have hrun : executeInstruction fpu (s.pc i) (s.machine i) = .error e := by
    rcases h with h | ⟨r, -, h⟩
    · exact h
    · cases h
  refine ⟨hrun, ?_, (executeInstruction_error (f := s.vm.memory) hrun fun _ => rfl).1⟩
  unfold footprint
  rw [if_pos hi, hrun]

theorem running_after (hij : i ≠ j) (hm : Stepped fpu i s m) :
    (s.after i m).Running j ↔ s.Running j := by
  unfold Sys.Running
  rw [Sys.after_vm, Sys.after_core, Function.update_of_ne hij.symm, hm.frame.vm]
  rfl

theorem pc_after (hij : i ≠ j) : (s.after i m).pc j = s.pc j := by
  unfold Sys.pc
  rw [Sys.after_core, Function.update_of_ne hij.symm]

theorem machine_after (hij : i ≠ j) (hm : Stepped fpu i s m) :
    (s.after i m).machine j = (s.machine j).withMemory m.vm.memory := by
  unfold Sys.machine
  rw [Sys.after_vm, Sys.after_core, Function.update_of_ne hij.symm, hm.frame.vm]
  rfl

/-- The words that `j` accesses are still there after a step of `i`. -/
theorem kept_of_apart (hm : Stepped fpu i s m) {l : List Access}
    (hap : Apart (footprint fpu i s) l) {w : Word} (hw : Touched l w) :
    m.vm.memory w = s.vm.memory w := by
  refine hm.frame.memory w fun hwrote => hap w ?_ hw
  rw [hm.footprint]
  exact hwrote

/-- `j` does after a step of `i` what it does before it. -/
theorem step_after (hij : i ≠ j) (hj : s.Running j) (hm : Stepped fpu i s m)
    (hn : Stepped fpu j s n) (hap : Apart (footprint fpu i s) (footprint fpu j s)) :
    step fpu j (s.after i m) = .ok ((s.after i m).after j
      (n.withMemory (overlay n.log n.vm.memory m.vm.memory))) := by
  obtain ⟨r, hrun⟩ := hn.run
  obtain ⟨l, hl, hlocal⟩ := local_executeInstruction _ _ _ hrun
  obtain rfl : n.log = l := hl.log
  have hf := hlocal m.vm.memory (by
    intro w hw
    rw [← hn.footprint] at hw
    exact kept_of_apart hm hap hw)
  rw [step_running ((running_after hij hm).mpr hj), pc_after hij, machine_after hij hm, hf, ok_bind]

theorem step_after_error (hij : i ≠ j) (hj : s.Running j) (hm : Stepped fpu i s m)
    (h : step fpu j s = .error e) (hap : Apart (footprint fpu i s) (footprint fpu j s)) :
    e = .fault ∧ step fpu j (s.after i m) = .error .fault := by
  obtain ⟨hrun, hfoot, -⟩ := step_error hj h
  obtain ⟨he, hx⟩ := executeInstruction_error (f := m.vm.memory) hrun (by
    intro hlt
    rw [hfoot] at hap
    exact kept_of_apart hm hap ⟨by simp, hlt⟩)
  refine ⟨he, ?_⟩
  rw [step_running ((running_after hij hm).mpr hj), pc_after hij, machine_after hij hm, hx]
  rfl

theorem after_comm (hij : i ≠ j) (hm : Stepped fpu i s m) (hn : Stepped fpu j s n)
    (hap : Apart (footprint fpu i s) (footprint fpu j s)) :
    (s.after i m).after j (n.withMemory (overlay n.log n.vm.memory m.vm.memory)) =
      (s.after j n).after i (m.withMemory (overlay m.log m.vm.memory n.vm.memory)) := by
  have hmem : overlay n.log n.vm.memory m.vm.memory = overlay m.log m.vm.memory n.vm.memory := by
    rw [hm.footprint, hn.footprint] at hap
    funext w
    unfold overlay
    by_cases hwn : Wrote n.log w
    · rw [if_pos hwn, if_neg fun hwm => hap w hwm (touched_of_wrote hwn)]
    · by_cases hwm : Wrote m.log w
      · rw [if_neg hwn, if_pos hwm]
      · rw [if_neg hwn, if_neg hwm, hm.frame.memory w hwm, hn.frame.memory w hwn]
        rfl
  unfold Sys.after Machine.withMemory
  rw [hmem, Function.update_comm hij, hm.frame.vm, hn.frame.vm]
  rfl

/-- A core that has stopped stays as it is. -/
theorem idle_commute (hij : i ≠ j) (hj : ¬ s.Running j) :
    (step fpu i s >>= step fpu j) = (step fpu j s >>= step fpu i) := by
  rw [step_idle hj, ok_bind]
  cases hsi : step fpu i s with
  | error e => rfl
  | ok a =>
    rw [ok_bind]
    rcases step_cases hsi with ⟨rfl, -⟩ | ⟨-, m, hm, rfl⟩
    · exact step_idle hj
    · exact step_idle fun h => hj ((running_after hij hm).mp h)

theorem steps_commute (hij : i ≠ j) (hap : Apart (footprint fpu i s) (footprint fpu j s))
    (hap' : Apart (footprint fpu j s) (footprint fpu i s)) :
    (step fpu i s >>= step fpu j) = (step fpu j s >>= step fpu i) := by
  by_cases hj : s.Running j
  swap
  · exact idle_commute hij hj
  by_cases hi : s.Running i
  swap
  · exact (idle_commute hij.symm hi).symm
  cases hsi : step fpu i s with
  | ok a =>
    obtain ⟨m, hm, rfl⟩ := step_ok hi hsi
    cases hsj : step fpu j s with
    | ok b =>
      obtain ⟨n, hn, rfl⟩ := step_ok hj hsj
      rw [ok_bind, ok_bind, step_after hij hj hm hn hap, step_after hij.symm hi hn hm hap',
        after_comm hij hm hn hap]
    | error e =>
      obtain ⟨rfl, h⟩ := step_after_error hij hj hm hsj hap
      rw [ok_bind, h, error_bind]
  | error e =>
    cases hsj : step fpu j s with
    | ok b =>
      obtain ⟨n, hn, rfl⟩ := step_ok hj hsj
      obtain ⟨rfl, h⟩ := step_after_error hij.symm hi hn hsi hap'
      rw [ok_bind, h, error_bind]
    | error e' =>
      rw [error_bind, error_bind, (step_error hi hsi).2.2, (step_error hj hsj).2.2]

/-! ## Schedules -/

theorem accessesOf_append {l l' : List (Nat × Access)} :
    accessesOf i (l ++ l') = accessesOf i l ++ accessesOf i l' := by
  simp [accessesOf]

theorem accessesOf_own {l : List Access} : accessesOf i (l.map fun x => (i, x)) = l := by
  unfold accessesOf
  rw [List.filter_eq_self.mpr (by simp)]
  simp

theorem accessesOf_other (hij : i ≠ j) {l : List Access} :
    accessesOf j (l.map fun x => (i, x)) = [] := by
  unfold accessesOf
  rw [List.filter_eq_nil_iff.mpr (by simp [hij])]
  rfl

theorem apart_append_left {l₁ l₂ l : List Access} :
    Apart (l₁ ++ l₂) l ↔ Apart l₁ l ∧ Apart l₂ l := by
  simp only [Apart, wrote_append, or_imp, forall_and]

theorem apart_append_right {l l₁ l₂ : List Access} :
    Apart l (l₁ ++ l₂) ↔ Apart l l₁ ∧ Apart l l₂ := by
  simp only [Apart, touched_append, not_or, imp_and, forall_and]

theorem separate_step (h : Separate fpu s) (hs : step fpu i s = .ok a) : Separate fpu a := by
  intro is k l hkl
  have hap := h (i :: is) k l hkl
  simp only [accesses, hs, accessesOf_append] at hap
  exact (apart_append_right.mp (apart_append_left.mp hap).2).2

/-- Two cores about to step do not disturb each other. -/
theorem separate_apart (h : Separate fpu s) (hij : i ≠ j) (hi : s.Running i) (hj : s.Running j)
    (hsi : step fpu i s = .ok a) (hsj : step fpu j s = .ok b) :
    Apart (footprint fpu i s) (footprint fpu j s) := by
  obtain ⟨m, hm, rfl⟩ := step_ok hi hsi
  obtain ⟨n, hn, rfl⟩ := step_ok hj hsj
  have hap : Apart (footprint fpu i s) (footprint fpu j (s.after i m)) := by
    have hap := h [i, j] i j hij
    simp only [accesses, hsi] at hap
    rw [accessesOf_append, accessesOf_append, accessesOf_append, accessesOf_append, accessesOf_own,
      accessesOf_other hij, accessesOf_own] at hap
    exact (apart_append_right.mp (apart_append_right.mp (apart_append_left.mp hap).1).2).1
  obtain ⟨r, hrun⟩ := hn.run
  cases hc : step fpu j (s.after i m) with
  | ok c =>
    obtain ⟨n', hn', -⟩ := step_ok ((running_after hij hm).mpr hj) hc
    obtain ⟨r', hrun'⟩ := hn'.run
    obtain ⟨l, hl, hlocal⟩ := local_executeInstruction _ _ _ hrun'
    obtain rfl : n'.log = l := hl.log
    have hback := hlocal s.vm.memory (by
      intro w hw
      rw [← hn'.footprint] at hw
      exact (kept_of_apart hm hap hw).symm)
    rw [pc_after hij, machine_after hij hm] at hback
    have heq := hrun.symm.trans hback
    have hlog : n.log = n'.log := by
      cases heq
      rfl
    rwa [hn.footprint, hlog, ← hn'.footprint]
  | error e =>
    obtain ⟨hrun', hfoot, -⟩ := step_error ((running_after hij hm).mpr hj) hc
    rw [pc_after hij, machine_after hij hm] at hrun'
    obtain ⟨-, hback⟩ := executeInstruction_error (f := s.vm.memory) hrun' (by
      intro hlt
      rw [hfoot, pc_after hij] at hap
      exact (kept_of_apart hm hap ⟨by simp, hlt⟩).symm)
    have hno := hrun.symm.trans hback
    cases hno

theorem separate_swap (hij : i ≠ j) (h : Separate fpu s) (ha : step fpu i s = .ok a)
    (hb : step fpu j s = .ok b) : ∃ t, step fpu j a = .ok t ∧ step fpu i b = .ok t := by
  by_cases hj : s.Running j
  swap
  · have hcomm : (step fpu i s >>= step fpu j) = _ := idle_commute hij hj
    rw [ha, hb, ok_bind, ok_bind] at hcomm
    rw [step_idle hj] at hb
    cases hb
    exact ⟨a, hcomm.trans ha, ha⟩
  by_cases hi : s.Running i
  swap
  · have hcomm : (step fpu j s >>= step fpu i) = _ := idle_commute hij.symm hi
    rw [ha, hb, ok_bind, ok_bind] at hcomm
    rw [step_idle hi] at ha
    cases ha
    exact ⟨b, hb, hcomm.trans hb⟩
  have hap := separate_apart h hij hi hj ha hb
  have hap' := separate_apart h hij.symm hj hi hb ha
  obtain ⟨m, hm, rfl⟩ := step_ok hi ha
  obtain ⟨n, hn, rfl⟩ := step_ok hj hb
  refine ⟨_, step_after hij hj hm hn hap, ?_⟩
  rw [step_after hij.symm hi hn hm hap', after_comm hij hm hn hap]

end

/-! ## Accesses in every run -/

section
variable {fpu : Fpu} {s : Sys} {P : Sys → Prop} {F : Nat → Access → Prop}

theorem accesses_inv (hstep : ∀ i s s', P s → step fpu i s = .ok s' → P s')
    (hfoot : ∀ i s, P s → ∀ x ∈ footprint fpu i s, F i x) (is : List Nat) (hs : P s) :
    ∀ x ∈ accesses fpu is s, F x.1 x.2 := by
  induction is generalizing s with
  | nil => exact List.forall_mem_nil _
  | cons i is ih =>
    intro x hx
    rw [accesses, List.mem_append] at hx
    rcases hx with hx | hx
    · obtain ⟨y, hy, rfl⟩ := List.mem_map.mp hx
      exact hfoot i s hs y hy
    · split at hx
      · rename_i s' hs'
        exact ih (hstep i s s' hs hs') x hx
      · cases hx

/-- No core disturbs another if, in every state of a run, each makes only accesses of its own. -/
theorem separate_inv (hstep : ∀ i s s', P s → step fpu i s = .ok s' → P s')
    (hfoot : ∀ i s, P s → ∀ x ∈ footprint fpu i s, F i x)
    (hF : ∀ i j, i ≠ j → ∀ l l', (∀ x ∈ l, F i x) → (∀ x ∈ l', F j x) → Apart l l') (hs : P s) :
    Separate fpu s := by
  have hown (is : List Nat) (i : Nat) : ∀ x ∈ accessesOf i (accesses fpu is s), F i x := by
    intro x hx
    obtain ⟨y, hy, rfl⟩ := List.mem_map.mp hx
    obtain ⟨hmem, hyi⟩ := List.mem_filter.mp hy
    obtain rfl := of_decide_eq_true hyi
    exact accesses_inv hstep hfoot is hs y hmem
  exact fun is i j hij => hF i j hij _ _ (hown is i) (hown is j)

end

/-! ## Schedule independence -/

/-- All threads have ended. -/
def Sys.Done (s : Sys) : Prop := ∀ i, ¬ s.Running i

/-- Two steps that do not disturb each other can be made in either order, and if no core ever
disturbs another, the order does not matter at all. -/
theorem schedule_independence (fpu : Fpu) (s : Sys) :
    (∀ i j, i ≠ j → Apart (footprint fpu i s) (footprint fpu j s) →
      Apart (footprint fpu j s) (footprint fpu i s) →
      (step fpu i s >>= step fpu j) = (step fpu j s >>= step fpu i)) ∧
    (Separate fpu s → ∀ is js t u, play fpu is s = .ok t → play fpu js s = .ok u →
      t.Done → u.Done → t = u) := by
  refine ⟨fun i j => steps_commute, ?_⟩
  intro hs is js t u his hjs ht hu
  refine playFrom_unique (P := Separate fpu) ?_ ?_ hs his hjs (fun i => step_idle (ht i))
    (fun i => step_idle (hu i))
  · exact fun i s s' => separate_step
  · exact fun i j s a b => separate_swap

end Cs720.Vm
