import Cs720.Lib.Rely
import Cs720.Vm.DataAccess
import Cs720.Vm.SpinLock

/-! # Rules for the instructions of a core among others

An assertion is about the registers of one core and memory. The other cores change memory only in
the ways that the assertion relies on; `cores_get` puts the cores together.
-/

namespace Cs720.Vm

open Cs720.Lib

abbrev Assertion := Core → (Word → Word) → Prop

/-! ## One instruction -/

/-- The instruction does not fail, and it leaves its core and memory with `Q`. -/
def Instr.wp (fpu : Fpu) (ins : Instr) (Q : Assertion) (c : Core) (memory : Word → Word) : Prop :=
  ∀ vm l, vm.memory = memory → ∃ next m,
    ins.exec fpu (c.reg PC + 1) ⟨vm, c, l⟩ = .ok (next, m) ∧
    (m.finish next).vm = { vm with memory := (m.finish next).vm.memory } ∧
    Q (m.finish next).core (m.finish next).vm.memory

/-- The core after an instruction that sets `r` to `v`. -/
def Core.goOn (c : Core) (r : Reg) (v : Word) : Core :=
  { c with reg := Function.update (Function.update c.reg r v) PC (c.reg PC + 1) }

/-- The core at `pc`. -/
def Core.goTo (c : Core) (pc : Word) : Core := { c with reg := Function.update c.reg PC pc }

section
variable {fpu : Fpu} {Q : Assertion} {c : Core} {memory : Word → Word} {r s : Reg} {v a d : Word}

theorem wp_ldimm (h : Q (c.goOn r v) memory) : (Instr.ldimm r v).wp fpu Q c memory := by
  rintro vm l rfl
  exact ⟨_, _, rfl, rfl, h⟩

theorem wp_ldaddr (h : Q (c.goOn r a) memory) : (Instr.ldaddr r a).wp fpu Q c memory := by
  rintro vm l rfl
  exact ⟨_, _, rfl, rfl, h⟩

theorem wp_getpid (h : Q (c.goOn r c.pid) memory) : (Instr.getpid r).wp fpu Q c memory := by
  rintro vm l rfl
  exact ⟨_, _, rfl, rfl, h⟩

theorem wp_addi (h : Q (c.goOn r (c.reg r + c.reg s)) memory) :
    (Instr.addi r s).wp fpu Q c memory := by
  rintro vm l rfl
  exact ⟨_, _, rfl, rfl, h⟩

theorem wp_jmp (h : Q (c.goTo a) memory) : (Instr.jmp a).wp fpu Q c memory := by
  rintro vm l rfl
  exact ⟨_, _, rfl, rfl, h⟩

theorem wp_beq (h : Q (c.goTo (if c.reg r = c.reg s then a else c.reg PC + 1)) memory) :
    (Instr.beq r s a).wp fpu Q c memory := by
  rintro vm l rfl
  exact ⟨_, _, rfl, rfl, h⟩

theorem wp_halt (h : Q { c.goTo (c.reg PC + 1) with status := VMX20_NORMAL_TERMINATION } memory) :
    Instr.halt.wp fpu Q c memory := by
  rintro vm l rfl
  exact ⟨_, _, rfl, rfl, h⟩

theorem wp_load (ha : a.toNat < MEM_SIZE) (h : Q (c.goOn r (memory a)) memory) :
    (Instr.load r a).wp fpu Q c memory := by
  rintro vm l rfl
  have hpeek : vm.memory a = peek vm.memory a (c.reg r) := (peek_of_lt ha).symm
  rw [hpeek] at h
  exact ⟨_, _, exec_load, rfl, h⟩

theorem wp_store (ha : a.toNat < MEM_SIZE)
    (h : Q (c.goTo (c.reg PC + 1)) (Function.update memory a (c.reg r))) :
    (Instr.store r a).wp fpu Q c memory := by
  rintro vm l rfl
  rw [← poke_of_lt ha] at h
  exact ⟨_, _, exec_store, rfl, h⟩

theorem wp_ldind (hd : -2 ^ 15 ≤ d.toInt ∧ d.toInt < 2 ^ 15) (ha : (c.reg s + d).toNat < MEM_SIZE)
    (h : Q (c.goOn r (memory (c.reg s + d))) memory) : (Instr.ldind r d s).wp fpu Q c memory := by
  rintro vm l rfl
  have hpeek : vm.memory (c.reg s + d) = peek vm.memory (c.reg s + d) (c.reg r) :=
    (peek_of_lt ha).symm
  rw [hpeek] at h
  exact ⟨_, _, exec_ldind ((base_inMemory hd).mpr ha), rfl, h⟩

theorem wp_stind (hin : InMemory (s.toNat + d.toInt)) (ha : (c.reg s + d).toNat < MEM_SIZE)
    (h : Q (c.goTo (c.reg PC + 1)) (Function.update memory (c.reg s + d) (c.reg r))) :
    (Instr.stind r d s).wp fpu Q c memory := by
  rintro vm l rfl
  rw [← poke_of_lt ha] at h
  exact ⟨_, _, exec_stind hin, rfl, h⟩

end

/-! ## One core -/

/-- `A` holds of the core `i`, which `execute` has started. -/
def Holds (A : Assertion) (i : Nat) (s : Sys) : Prop :=
  i < s.vm.numProcessors.toNat ∧ A (s.core i) s.vm.memory

/-- A step of the core `i` that changes memory as `M` says. -/
def Own (M : (Word → Word) → (Word → Word) → Prop) (i : Nat) (s s' : Sys) : Prop :=
  s'.vm = { s.vm with memory := s'.vm.memory } ∧ (∀ j ≠ i, s'.core j = s.core j) ∧
    M s.vm.memory s'.vm.memory

/-- A step of another core than `i`. -/
def Others (N : (Word → Word) → (Word → Word) → Prop) (i : Nat) (s s' : Sys) : Prop :=
  s'.vm = { s.vm with memory := s'.vm.memory } ∧ s'.core i = s.core i ∧
    N s.vm.memory s'.vm.memory

/-- What the other cores do to memory keeps `A`. -/
def Keeps (N : (Word → Word) → (Word → Word) → Prop) (A : Assertion) : Prop :=
  ∀ c memory memory', N memory memory' → A c memory → A c memory'

/-- From `A` the next instruction of the core goes on to `B`. -/
def Does (fpu : Fpu) (M : (Word → Word) → (Word → Word) → Prop) (A B : Assertion) : Prop :=
  ∀ c memory, A c memory → c.status = 1 ∧ (c.reg PC).toNat < MEM_SIZE ∧
    (decode (memory (c.reg PC)) (c.reg PC)).wp fpu
      (fun c' memory' => M memory memory' ∧ B c' memory') c memory

section
variable {fpu : Fpu} {M N : (Word → Word) → (Word → Word) → Prop} {A B : Assertion} {i n : Nat}
  {Q : Sys → Prop} {s : Sys}

theorem Keeps.stable (h : Keeps N A) : Stable (Others N i) (Holds A i) := by
  rintro s s' ⟨hvm, hcore, hN⟩ ⟨hi, hA⟩
  refine ⟨by rw [hvm]; exact hi, ?_⟩
  rw [hcore]
  exact h _ _ _ hN hA

theorem Does.step (h : Does fpu M A B) (hs : Holds A i s) :
    ∃ s', step fpu i s = .ok s' ∧ Own M i s s' ∧ Holds B i s' := by
  obtain ⟨hi, hA⟩ := hs
  obtain ⟨hstatus, hpc, hwp⟩ := h _ _ hA
  obtain ⟨next, m, hx, hvm, hM, hB⟩ := hwp s.vm [.fetch (s.pc i)] rfl
  have hinstr : s.instr i = some (decode (s.vm.memory (s.pc i)) (s.pc i)) := by
    have hword : s.vm.getWord (s.pc i) = some (s.vm.memory (s.pc i)) := if_neg (Nat.not_le.mpr hpc)
    unfold Sys.instr
    rw [hword]
    rfl
  refine ⟨_, step_instr ⟨hi, hstatus⟩ hinstr hx, ⟨hvm, fun j hj => ?_, hM⟩, ?_, ?_⟩
  · exact Function.update_of_ne hj _ _
  · rw [Sys.after_vm, hvm]
    exact hi
  · rw [Sys.after_core, Function.update_self]
    exact hB

/-- The rule for a sequence. -/
theorem gets_instr (hkeep : Keeps N A) (h : Does fpu M A B)
    (hrest : ∀ s, Holds B i s → Gets (step fpu) (Others N i) (Own M i) i Q n s) (hs : Holds A i s) :
    Gets (step fpu) (Others N i) (Own M i) i Q (n + 1) s := by
  refine gets_step hkeep.stable hs fun s hs => ?_
  obtain ⟨s', hstep, hown, hB⟩ := h.step hs
  exact ⟨s', hstep, hown, hrest s' hB⟩

end

/-! ## A core in a program -/

/-- The core is at the address `k`, its program is in memory, as `L` says, and its registers have
`P`. -/
def AtLine (L : (Word → Word) → Prop) (k : Nat) (P : Core → Prop) : Assertion := fun c memory =>
  c.On (BitVec.ofNat 32 k) ∧ L memory ∧ P c

section
variable {fpu : Fpu} {M N : (Word → Word) → (Word → Word) → Prop} {L : (Word → Word) → Prop}
  {P P' : Core → Prop} {A B : Assertion} {i k n : Nat} {Q : Sys → Prop} {s : Sys} {c c' : Core}
  {memory memory' : Word → Word} {word : Word} {ins : Instr}

theorem keeps_line (hL : ∀ memory memory', N memory memory' → L memory → L memory') :
    Keeps N (AtLine L k P) := fun _ _ _ h ⟨hon, hl, hP⟩ => ⟨hon, hL _ _ h hl, hP⟩

/-- The next address. -/
theorem line_next (h : AtLine L k P c memory) (hstatus : c'.status = c.status)
    (hpc : c'.reg PC = c.reg PC + 1) (hL : L memory') (hP : P' c') :
    AtLine L (k + 1) P' c' memory' := by
  refine ⟨⟨hstatus.trans h.1.1, ?_⟩, hL, hP⟩
  rw [hpc, h.1.2]
  exact (BitVec.ofNat_add k 1).symm

theorem does_instr (hk : k < MEM_SIZE)
    (hword : ∀ memory, L memory → memory (BitVec.ofNat 32 k) = word)
    (hdecode : decode word (BitVec.ofNat 32 k) = ins)
    (hat : ∀ c memory, A c memory → AtLine L k P c memory)
    (h : ∀ c memory, A c memory →
      ins.wp fpu (fun c' memory' => M memory memory' ∧ B c' memory') c memory) :
    Does fpu M A B := by
  intro c memory hA
  obtain ⟨⟨hstatus, hpc⟩, hl, -⟩ := hat c memory hA
  rw [hpc, hword memory hl, hdecode]
  refine ⟨hstatus, ?_, h c memory hA⟩
  rw [BitVec.toNat_ofNat]
  exact lt_of_le_of_lt (Nat.mod_le _ _) hk

end

/-! ## All cores -/

/-- Each core comes to its assertion and stops, in every schedule in which it has its turns. -/
theorem cores_get {fpu : Fpu} {M N : Nat → (Word → Word) → (Word → Word) → Prop}
    {A : Nat → Assertion} {n : Nat → Nat} {s : Sys}
    (hMN : ∀ i j memory memory', i ≠ j → M i memory memory' → N j memory memory')
    (hA : ∀ i c memory, A i c memory → c.status ≠ 1)
    (h : ∀ i < s.vm.numProcessors.toNat,
      Gets (step fpu) (Others (N i) i) (Own (M i) i) i (Holds (A i) i) (n i) s) (is : List Nat) :
    ∃ t, play fpu is s = .ok t ∧
      Relation.ReflTransGen (fun memory memory' => ∃ i, M i memory memory') s.vm.memory
        t.vm.memory ∧
      ∀ i < s.vm.numProcessors.toNat, n i ≤ is.count i ∨ (t.core i).status ≠ 1 →
        A i (t.core i) t.vm.memory := by
  generalize hp : s.vm.numProcessors.toNat = p at h ⊢
  have hend : ∀ i s', Holds (A i) i s' ∨ p ≤ i ∧ s'.vm.numProcessors.toNat ≤ i →
      step fpu i s' = .ok s' := by
    rintro i s' (⟨-, hs'⟩ | ⟨-, hle⟩)
    · exact step_idle fun hi => hA i _ _ hs' hi.2
    · exact step_idle fun hi => absurd hi.1 (Nat.not_lt.mpr hle)
  have hstart : ∀ i, Gets (step fpu) (Others (N i) i) (Own (M i) i) i
      (fun s' => Holds (A i) i s' ∨ p ≤ i ∧ s'.vm.numProcessors.toNat ≤ i)
      (if i < p then n i else 0) s := by
    intro i
    by_cases hi : i < p
    · rw [if_pos hi]
      exact (h i hi).mono fun s' hs' => Or.inl hs'
    · rw [if_neg hi]
      refine (gets_done (Q := fun s' => s'.vm.numProcessors.toNat ≤ i) ?_ (by omega)).mono
        fun s' hs' => Or.inr ⟨by omega, hs'⟩
      rintro s₁ s₂ ⟨hvm, -⟩ hle
      rw [hvm]
      exact hle
  obtain ⟨t, ht, hrun, hgets⟩ := all_get (fun i j s₁ s₂ hij ⟨hvm, hcore, hM⟩ =>
    ⟨hvm, hcore j hij.symm, hMN i j _ _ hij hM⟩) hend hstart is
  refine ⟨t, ht, hrun.lift (fun s => s.vm.memory) fun _ _ ⟨i, hi⟩ => ⟨i, hi.2.2⟩,
    fun i hi hdone => ?_⟩
  have hQ : Holds (A i) i t ∨ p ≤ i ∧ t.vm.numProcessors.toNat ≤ i := by
    have hgets := hgets i
    rw [if_pos hi] at hgets
    rcases hdone with hcount | hstop
    · rw [Nat.sub_eq_zero_of_le hcount] at hgets
      exact hgets t .refl
    · exact hgets.ended (step_idle fun hi => hstop hi.2)
  rcases hQ with hQ | ⟨hle, -⟩
  · exact hQ.2
  · omega

end Cs720.Vm
