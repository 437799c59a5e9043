import Cs720.Vm.Agree

/-! # A program depends on the words that it accesses, and changes those that it writes -/

namespace Cs720.Vm

open Cs720.Lib

/-- `l` accesses the word at `a`. -/
def Touched (l : List Access) (a : Word) : Prop :=
  (.fetch a ∈ l ∨ .read a ∈ l ∨ .write a ∈ l) ∧ a.toNat < MEM_SIZE

/-- `l` writes the word at `a`. -/
def Wrote (l : List Access) (a : Word) : Prop := .write a ∈ l ∧ a.toNat < MEM_SIZE

instance (l : List Access) (a : Word) : Decidable (Wrote l a) :=
  inferInstanceAs (Decidable (_ ∧ _))

/-- The memory `g` where `l` writes, and `f` elsewhere. -/
def overlay (l : List Access) (g f : Word → Word) (a : Word) : Word :=
  if Wrote l a then g a else f a

@[simps -fullyApplied]
def Machine.withMemory (m : Machine) (f : Word → Word) : Machine :=
  { m with vm := { m.vm with memory := f } }

/-- What the accesses `l` can have changed. -/
structure Frame (m m' : Machine) (l : List Access) : Prop where
  log : m'.log = m.log ++ l
  vm : m'.vm = { m.vm with memory := m'.vm.memory }
  core : m'.core = { m.core with reg := m'.core.reg, status := m'.core.status }
  memory : ∀ a, ¬ Wrote l a → m'.vm.memory a = m.vm.memory a

section
variable {α β : Type} {m m' : Machine} {l l' : List Access} {f g h : Word → Word} {a : Word}

theorem wrote_append : Wrote (l ++ l') a ↔ Wrote l a ∨ Wrote l' a := by
  simp only [Wrote, List.mem_append]
  tauto

theorem touched_append : Touched (l ++ l') a ↔ Touched l a ∨ Touched l' a := by
  simp only [Touched, List.mem_append]
  tauto

theorem touched_of_wrote (h : Wrote l a) : Touched l a := ⟨Or.inr (Or.inr h.1), h.2⟩

theorem overlay_quiet (h : ∀ a, .write a ∉ l) : overlay l g f = f := by
  funext a
  exact if_neg fun hw => h a hw.1

theorem overlay_append (hg : ∀ a, ¬ Wrote l' a → h a = g a) :
    overlay l' h (overlay l g f) = overlay (l ++ l') h f := by
  funext a
  by_cases hl' : Wrote l' a
  · simp only [overlay, wrote_append, hl', or_true, if_true]
  · by_cases hl : Wrote l a <;> simp [overlay, wrote_append, hl', hl, hg]

/-- From another memory, with the same words at the addresses that it accesses, the program does the
same. -/
def Local (x : M α) : Prop :=
  ∀ m r m', x m = .ok (r, m') → ∃ l, Frame m m' l ∧
    ∀ f, (∀ a, Touched l a → f a = m.vm.memory a) →
      x (m.withMemory f) = .ok (r, m'.withMemory (overlay l m'.vm.memory f))

/-! ## Rules -/

theorem frame_trans {m'' : Machine} (h : Frame m m' l) (h' : Frame m' m'' l') :
    Frame m m'' (l ++ l') := by
  refine ⟨?_, ?_, ?_, ?_⟩
  · rw [h'.log, h.log, List.append_assoc]
  · rw [h'.vm, h.vm]
  · rw [h'.core, h.core]
  · intro a ha
    rw [wrote_append, not_or] at ha
    rw [h'.memory a ha.2, h.memory a ha.1]

theorem local_bind {x : M α} {k : α → M β} (hx : Local x) (hk : ∀ r, Local (k r)) :
    Local (x >>= k) := by
  intro m r m'' hrun
  rw [run_bind, bind_ok] at hrun
  obtain ⟨⟨b, m'⟩, hxm, hkm⟩ := hrun
  obtain ⟨l, hl, hlf⟩ := hx m b m' hxm
  obtain ⟨l', hl', hlf'⟩ := hk b m' r m'' hkm
  refine ⟨l ++ l', frame_trans hl hl', ?_⟩
  intro f hf
  have hf₁ := hlf f fun a ha => hf a (touched_append.mpr (Or.inl ha))
  have hf₂ := hlf' (overlay l m'.vm.memory f) (by
    intro a ha
    unfold overlay
    split
    · rfl
    · rename_i hw
      rw [hf a (touched_append.mpr (Or.inr ha)), hl.memory a hw])
  rw [run_bind, hf₁, ok_bind]
  refine hf₂.trans ?_
  rw [overlay_append hl'.memory]

theorem local_pure (r : α) : Local (pure r : M α) := by
  intro m r' m' hrun
  cases hrun
  refine ⟨[], ⟨by simp, rfl, rfl, fun _ _ => rfl⟩, fun f _ => ?_⟩
  rw [overlay_quiet (by simp)]
  rfl

theorem local_fault : Local (fault : M α) := by
  intro m r m' hrun
  cases hrun

theorem local_ite {c : Prop} [Decidable c] {x y : M α} (hx : Local x) (hy : Local y) :
    Local (if c then x else y) := by
  split
  · exact hx
  · exact hy

/-- A program that leaves the memory and its log alone. -/
theorem local_calm {x : M α} (hx : ∀ m, ∃ r m', x m = .ok (r, m') ∧ m'.log = m.log ∧ m'.vm = m.vm ∧
      m'.core = { m.core with reg := m'.core.reg, status := m'.core.status } ∧
      ∀ f, x (m.withMemory f) = .ok (r, m'.withMemory f)) : Local x := by
  intro m r m' hrun
  obtain ⟨r', m₁, hm, hlog, hvm, hcore, hf⟩ := hx m
  rw [hm] at hrun
  cases hrun
  refine ⟨[], ⟨by simp [hlog], by rw [hvm], hcore, fun _ _ => by rw [hvm]⟩, fun f _ => ?_⟩
  rw [hf f, overlay_quiet (by simp)]

variable {r : Reg} {addr word out : Word}

theorem local_reg : Local (reg r) := local_calm fun m => ⟨_, m, rfl, rfl, rfl, rfl, fun _ => rfl⟩

theorem local_stack : Local stack := local_calm fun m => ⟨_, m, rfl, rfl, rfl, rfl, fun _ => rfl⟩

theorem local_pid : Local pid := local_calm fun m => ⟨_, m, rfl, rfl, rfl, rfl, fun _ => rfl⟩

theorem local_progEnd : Local progEnd :=
  local_calm fun m => ⟨_, m, rfl, rfl, rfl, rfl, fun _ => rfl⟩

theorem local_numProcessors : Local numProcessors :=
  local_calm fun m => ⟨_, m, rfl, rfl, rfl, rfl, fun _ => rfl⟩

theorem local_setReg : Local (setReg r word) :=
  local_calm fun m => ⟨_, m.setReg r word, rfl, rfl, rfl, rfl, fun _ => rfl⟩

theorem local_setStatus (c : Int) : Local (setStatus c) :=
  local_calm fun m => ⟨_, m.setStatus c, rfl, rfl, rfl, rfl, fun _ => rfl⟩

theorem local_getWord : Local (getWord addr out) := by
  intro m r m' hrun
  rw [run_getWord] at hrun
  cases hrun
  refine ⟨[.read addr], ⟨rfl, rfl, rfl, fun _ _ => rfl⟩, ?_⟩
  intro f hf
  have hpeek : peek f addr out = peek m.vm.memory addr out := by
    unfold peek
    split
    · rename_i h
      exact hf addr ⟨by simp, h⟩
    · rfl
  rw [run_getWord, Machine.withMemory_vm_memory, hpeek, overlay_quiet (by simp)]
  rfl

theorem local_putWord : Local (putWord addr word) := by
  intro m r m' hrun
  rw [run_putWord] at hrun
  cases hrun
  refine ⟨[.write addr], ⟨rfl, rfl, rfl, ?_⟩, ?_⟩
  · intro a ha
    by_cases haddr : a = addr
    · subst haddr
      have hge : MEM_SIZE ≤ a.toNat := by
        by_contra h
        exact ha ⟨by simp, by omega⟩
      simp [poke_of_ge hge]
    · simp [poke_ne haddr]
  · intro f hf
    rw [run_putWord]
    have hpoke : poke f addr word = overlay [.write addr] (poke m.vm.memory addr word) f := by
      funext a
      unfold overlay
      by_cases haddr : a = addr
      · subst haddr
        split
        · rename_i h
          rw [poke_self h.2, poke_self h.2]
        · rename_i h
          rw [poke_of_ge]
          by_contra hge
          exact h ⟨by simp, by omega⟩
      · rw [poke_ne haddr, if_neg]
        rintro ⟨hmem, -⟩
        simp only [List.mem_singleton, Access.write.injEq] at hmem
        exact haddr hmem
    simp [Machine.withMemory, Machine.note, Machine.put, hpoke]

theorem local_fetch : Local (fetch addr) := by
  intro m r m' hrun
  by_cases hlt : addr.toNat < MEM_SIZE
  · rw [run_fetch hlt] at hrun
    cases hrun
    refine ⟨[.fetch addr], ⟨rfl, rfl, rfl, fun _ _ => rfl⟩, ?_⟩
    intro f hf
    rw [run_fetch hlt, Machine.withMemory_vm_memory, hf addr ⟨by simp, hlt⟩,
      overlay_quiet (by simp)]
    rfl
  · rw [run_fetch_fault (by omega)] at hrun
    cases hrun

end

/-! ## Instructions -/

section
variable {fpu : Fpu} {tPC addr : Word}

theorem local_op {f : Word → Word → Word} {r s : Reg} : Local (Instr.exec.op tPC f r s) :=
  local_bind local_reg fun _ => local_bind local_reg fun _ => local_bind local_setReg fun _ =>
    local_pure _

theorem local_stop {c : Int} : Local (stop tPC c) := local_pure _

theorem local_exec (i : Instr) : Local (i.exec fpu tPC) := by
  cases i with
  | halt | nop | invalid => exact local_stop
  | addf | subf | mulf | addi | subi | muli => exact local_op
  | jmp a => exact local_pure _
  | ldimm | ldaddr => exact local_bind local_setReg fun _ => local_pure _
  | load =>
    refine local_bind local_reg fun _ => local_bind local_getWord fun _ => ?_
    exact local_bind local_setReg fun _ => local_pure _
  | store => exact local_bind local_reg fun _ => local_bind local_putWord fun _ => local_pure _
  | getpid => exact local_bind local_pid fun _ => local_bind local_setReg fun _ => local_pure _
  | getpn =>
    exact local_bind local_numProcessors fun _ => local_bind local_setReg fun _ => local_pure _
  | blt | bgt | beq =>
    exact local_bind local_reg fun _ => local_bind local_reg fun _ => local_pure _
  | ldind =>
    refine local_bind local_reg fun _ => local_ite ?_ local_stop
    refine local_bind local_reg fun _ => local_bind local_getWord fun _ => ?_
    exact local_bind local_setReg fun _ => local_pure _
  | stind =>
    refine local_ite ?_ local_stop
    refine local_bind local_reg fun _ => local_bind local_reg fun _ => ?_
    exact local_bind local_putWord fun _ => local_pure _
  | divf => exact local_bind local_reg fun _ => local_ite local_stop local_op
  | divi =>
    refine local_bind local_reg fun _ => local_ite local_stop ?_
    exact local_bind local_reg fun _ => local_ite local_fault local_op
  | cmpxchg =>
    refine local_bind local_reg fun _ => local_bind local_getWord fun _ => ?_
    refine local_ite ?_ ?_
    · exact local_bind local_reg fun _ => local_bind local_putWord fun _ => local_pure _
    · exact local_bind local_reg fun _ => local_bind local_getWord fun _ =>
        local_bind local_setReg fun _ => local_pure _
  | call =>
    refine local_bind local_reg fun _ => local_bind local_stack fun _ =>
      local_bind local_progEnd fun _ => local_ite local_stop ?_
    refine local_bind local_putWord fun _ => local_bind local_reg fun _ => ?_
    refine local_bind local_putWord fun _ => local_bind local_putWord fun _ => ?_
    exact local_bind local_setReg fun _ => local_bind local_setReg fun _ => local_pure _
  | ret =>
    refine local_bind local_reg fun _ => local_bind local_stack fun _ =>
      local_bind local_progEnd fun _ => local_ite local_stop ?_
    refine local_bind local_getWord fun _ => local_bind local_reg fun _ => ?_
    refine local_bind local_getWord fun _ => local_bind local_getWord fun _ => ?_
    refine local_bind local_setReg fun _ => local_bind local_setReg fun _ => ?_
    exact local_bind local_putWord fun _ => local_pure _
  | push =>
    refine local_bind local_reg fun _ => local_bind local_stack fun _ =>
      local_bind local_progEnd fun _ => local_ite local_stop ?_
    refine local_bind local_setReg fun _ => local_bind local_reg fun _ => ?_
    exact local_bind local_putWord fun _ => local_pure _
  | pop =>
    refine local_bind local_reg fun _ => local_bind local_stack fun _ =>
      local_bind local_progEnd fun _ => local_ite local_stop ?_
    refine local_bind local_reg fun _ => local_bind local_getWord fun _ => ?_
    refine local_bind local_setReg fun _ => local_bind local_reg fun _ => ?_
    exact local_bind local_setReg fun _ => local_stop

/-- The end of an instruction. -/
theorem local_finish (next : Next) : Local (do
    if let some termCode := next.termCode then setStatus termCode
    setReg PC next.tPC
    return next.termCode.isNone) := by
  obtain ⟨tPC, _ | c⟩ := next
  · exact local_bind local_setReg fun _ => local_pure _
  · exact local_bind (local_setStatus c) fun _ => local_bind local_setReg fun _ => local_pure _

theorem local_executeInstruction : Local (executeInstruction fpu addr) := by
  refine local_bind local_fetch fun word => local_bind local_reg fun pc => ?_
  dsimp only
  rw [instruction_eq]
  exact local_bind (local_exec _) local_finish

end

end Cs720.Vm
