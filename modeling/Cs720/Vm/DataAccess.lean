import Cs720.Vm.Load
import Cs720.Vm.System

/-! # Instructions that access a word of data

`ldind` and `stind` check the address before the access. `load`, `store` and `cmpxchg` do not look
at what `getWord` and `putWord` return.
-/

namespace Cs720.Vm

open Cs720.Lib

/-! ## One instruction -/

/-- The next instruction, if the PC is in memory. -/
def Machine.instr (m : Machine) : Option Instr :=
  (m.vm.getWord (m.core.reg PC)).map fun word => decode word (m.core.reg PC)

section
variable {fpu : Fpu} {m m' : Machine} {ins : Instr} {next : Next} {r s : Reg} {a d tPC : Word}

theorem execute_one (hi : m.instr = some ins)
    (hx : ins.exec fpu (m.core.reg PC + 1) (m.note (.fetch (m.core.reg PC))) = .ok (next, m')) :
    executeInstruction fpu (m.core.reg PC) m = .ok (next.termCode.isNone, m'.finish next) := by
  obtain ⟨word, hword, rfl⟩ := Option.map_eq_some_iff.mp hi
  rw [executeInstruction_eq fpu rfl hword, run_step hx]

theorem exec_load : (Instr.load r a).exec fpu tPC m =
    .ok (⟨tPC, none⟩, (m.note (.read a)).setReg r (peek m.vm.memory a (m.core.reg r))) := by
  simp only [Instr.exec, run_bind, run_reg, run_getWord, run_setReg, ok_bind]
  rfl

theorem exec_store : (Instr.store r a).exec fpu tPC m =
    .ok (⟨tPC, none⟩, (m.note (.write a)).put a (m.core.reg r)) := by
  simp only [Instr.exec, run_bind, run_reg, run_putWord, ok_bind]
  rfl

theorem exec_exchange (h : m.core.reg r = peek m.vm.memory a 0) :
    (Instr.cmpxchg r s a).exec fpu tPC m =
      .ok (⟨tPC, none⟩, ((m.note (.read a)).note (.write a)).put a (m.core.reg s)) := by
  simp only [Instr.exec, run_bind, run_reg, run_getWord, run_putWord, ok_bind, run_ite]
  exact (if_pos h).trans rfl

theorem exec_compare (h : m.core.reg r ≠ peek m.vm.memory a 0) :
    (Instr.cmpxchg r s a).exec fpu tPC m = .ok (⟨tPC, none⟩,
      ((m.note (.read a)).note (.read a)).setReg r (peek m.vm.memory a (m.core.reg r))) := by
  simp only [Instr.exec, run_bind, run_reg, run_getWord, ok_bind, run_ite]
  exact (if_neg h).trans rfl

/-- The integer `z` is the address of a word in memory. -/
def InMemory (z : Int) : Prop := 0 ≤ z ∧ z < MEM_SIZE

theorem exec_ldind (h : InMemory ((m.core.reg s).toInt + d.toInt)) :
    (Instr.ldind r d s).exec fpu tPC m = .ok (⟨tPC, none⟩,
      (m.note (.read (m.core.reg s + d))).setReg r
      (peek m.vm.memory (m.core.reg s + d) (m.core.reg r))) := by
  simp only [Instr.exec, run_bind, run_reg, run_getWord, ok_bind, run_ite]
  exact (if_pos h).trans rfl

theorem exec_ldind_stop (h : ¬ InMemory ((m.core.reg s).toInt + d.toInt)) :
    (Instr.ldind r d s).exec fpu tPC m = .ok (⟨tPC, some VMX20_ADDRESS_OUT_OF_RANGE⟩, m) := by
  simp only [Instr.exec, run_bind, run_reg, run_getWord, ok_bind, run_ite]
  exact (if_neg h).trans rfl

theorem exec_stind (h : InMemory (s.toNat + d.toInt)) :
    (Instr.stind r d s).exec fpu tPC m = .ok (⟨tPC, none⟩,
      (m.note (.write (m.core.reg s + d))).put (m.core.reg s + d) (m.core.reg r)) := by
  simp only [Instr.exec, run_bind, run_reg, run_putWord, ok_bind, run_ite]
  exact (if_pos h).trans rfl

theorem exec_stind_stop (h : ¬ InMemory (s.toNat + d.toInt)) :
    (Instr.stind r d s).exec fpu tPC m = .ok (⟨tPC, some VMX20_ADDRESS_OUT_OF_RANGE⟩, m) := by
  simp only [Instr.exec, run_bind, run_reg, run_putWord, ok_bind, run_ite]
  exact (if_neg h).trans rfl

/-! ## Addresses as integers -/

theorem inMemory_ofInt {z : Int} (hlo : -2 ^ 32 + MEM_SIZE ≤ z) (hhi : z < 2 ^ 32) :
    InMemory z ↔ (BitVec.ofInt 32 z).toNat < MEM_SIZE := by
  unfold InMemory
  rw [BitVec.toNat_ofInt]
  unfold MEM_SIZE at *
  omega

variable (word : Word)

theorem disp20_bounds : -2 ^ 19 ≤ (disp20 word).toInt ∧ (disp20 word).toInt < 2 ^ 19 := by
  unfold disp20
  rw [BitVec.toInt_signExtend_of_le (by omega)]
  exact ⟨BitVec.le_toInt _, BitVec.toInt_lt⟩

theorem disp16_bounds : -2 ^ 15 ≤ (disp16 word).toInt ∧ (disp16 word).toInt < 2 ^ 15 := by
  unfold disp16
  rw [BitVec.toInt_signExtend_of_le (by omega)]
  exact ⟨BitVec.le_toInt _, BitVec.toInt_lt⟩

end

/-! ## What an access comes to -/

/-- The core has stopped, with memory and the registers r0 to r14 as they were. -/
def StopsOutOfRange (m : Machine) (goesOn : Bool) (m' : Machine) : Prop :=
  goesOn = false ∧ m'.core.status = VMX20_ADDRESS_OUT_OF_RANGE ∧ m'.vm = m.vm ∧
    ∀ r, r ≠ PC → m'.core.reg r = m.core.reg r

/-- The core is at the next instruction, with this memory and these registers. -/
def Continues (m m' : Machine) (memory : Word → Word) (reg : Reg → Word) : Prop :=
  m'.vm = { m.vm with memory } ∧
    m'.core = { m.core with reg := Function.update reg PC (m.core.reg PC + 1) }

/-- The instruction has read or written the word at `a`, and no other. -/
def Instr.Accesses (m m' : Machine) (a : Word) : Instr → Prop
  | load r _ | ldind r _ _ =>
    Continues m m' m.vm.memory (Function.update m.core.reg r (m.vm.memory a))
  | store r _ | stind r _ _ =>
    Continues m m' (Function.update m.vm.memory a (m.core.reg r)) m.core.reg
  | cmpxchg r s _ =>
    if m.core.reg r = m.vm.memory a then
      Continues m m' (Function.update m.vm.memory a (m.core.reg s)) m.core.reg
    else Continues m m' m.vm.memory (Function.update m.core.reg r (m.vm.memory a))
  | _ => False

/-- The instruction accesses the word at `z`, or stops the core if there is none. -/
def AccessSafe (fpu : Fpu) (m : Machine) (i : Instr) (z : Int) : Prop :=
  ∃ goesOn m', executeInstruction fpu (m.core.reg PC) m = .ok (goesOn, m') ∧
    (InMemory z → goesOn = true ∧ i.Accesses m m' (BitVec.ofInt 32 z)) ∧
    (¬ InMemory z → StopsOutOfRange m goesOn m')

section
variable {fpu : Fpu} {m m' : Machine} {i : Instr} {r s : Reg} {a d word pc : Word} {z : Int}

theorem accessSafe_inMemory (hx : executeInstruction fpu (m.core.reg PC) m = .ok (true, m'))
    (hacc : InMemory z → i.Accesses m m' (BitVec.ofInt 32 z)) :
    AccessSafe fpu m i z ↔ InMemory z := by
  constructor
  · rintro ⟨goesOn, m₁, hx₁, -, hstop⟩
    by_contra hz
    rw [hx] at hx₁
    cases hx₁
    exact absurd (hstop hz).1 (by simp)
  · intro hz
    exact ⟨true, m', hx, fun h => ⟨rfl, hacc h⟩, fun h => absurd hz h⟩

theorem accessSafe_stops (hx : executeInstruction fpu (m.core.reg PC) m = .ok (false, m'))
    (hstop : StopsOutOfRange m false m') : AccessSafe fpu m i z ↔ ¬ InMemory z := by
  constructor
  · rintro ⟨goesOn, m₁, hx₁, hacc, -⟩ hz
    rw [hx] at hx₁
    cases hx₁
    exact absurd (hacc hz).1 (by simp)
  · intro hz
    exact ⟨false, m', hx, fun h => absurd h hz, fun _ => hstop⟩

theorem stopsOutOfRange_finish (m : Machine) (a : Access) (tPC : Word) :
    StopsOutOfRange m false ((m.note a).finish ⟨tPC, some VMX20_ADDRESS_OUT_OF_RANGE⟩) :=
  ⟨rfl, rfl, rfl, fun _ hr => Function.update_of_ne hr _ _⟩

/-! ## `load`, `store` and `cmpxchg` -/

/-- The operand that is an address. -/
def Instr.target? : Instr → Option Word
  | load _ a | store _ a | cmpxchg _ _ a => some a
  | _ => none

def dispOf (word : Word) : Word :=
  if ins (word.setWidth 8) = .cmpxchg then disp16 word else disp20 word

variable (fpu) in
/-- The core goes on, whatever the address. -/
theorem target_goesOn (hi : m.instr = some i) (ha : i.target? = some a) :
    ∃ m', executeInstruction fpu (m.core.reg PC) m = .ok (true, m') ∧
      (a.toNat < MEM_SIZE → i.Accesses m m' a) := by
  cases i with
  | load r a' =>
    obtain rfl : a' = a := Option.some.inj ha
    refine ⟨_, execute_one hi exec_load, fun h => ?_⟩
    have hpeek : peek m.vm.memory a' (m.core.reg r) = m.vm.memory a' := peek_of_lt h
    simp only [Instr.Accesses, ← hpeek]
    exact ⟨rfl, rfl⟩
  | store r a' =>
    obtain rfl : a' = a := Option.some.inj ha
    refine ⟨_, execute_one hi exec_store, fun h => ?_⟩
    simp only [Instr.Accesses, ← poke_of_lt h]
    exact ⟨rfl, rfl⟩
  | cmpxchg r s a' =>
    obtain rfl : a' = a := Option.some.inj ha
    by_cases heq : m.core.reg r = peek m.vm.memory a' 0
    · refine ⟨_, execute_one hi (exec_exchange heq), fun h => ?_⟩
      rw [peek_of_lt h] at heq
      simp only [Instr.Accesses, if_pos heq, ← poke_of_lt h]
      exact ⟨rfl, rfl⟩
    · refine ⟨_, execute_one hi (exec_compare heq), fun h => ?_⟩
      rw [peek_of_lt h] at heq
      have hpeek : peek m.vm.memory a' (m.core.reg r) = m.vm.memory a' := peek_of_lt h
      simp only [Instr.Accesses, if_neg heq]
      rw [← hpeek]
      exact ⟨rfl, rfl⟩
  | _ => cases ha

theorem ofInt_target : BitVec.ofInt 32 (pc.toNat + 1 + d.toInt) = pc + 1 + d := by
  rw [BitVec.ofInt_add, BitVec.ofInt_toInt, BitVec.ofInt_add]
  congr 2
  exact BitVec.eq_of_toInt_eq (by simp)

theorem dispOf_bounds (word : Word) :
    -2 ^ 19 ≤ (dispOf word).toInt ∧ (dispOf word).toInt < 2 ^ 19 := by
  have h20 := disp20_bounds word
  have h16 := disp16_bounds word
  unfold dispOf
  split <;> omega

theorem decode_target (h : ins (word.setWidth 8) = .load ∨ ins (word.setWidth 8) = .store ∨
    ins (word.setWidth 8) = .cmpxchg) :
    (decode word pc).target? = some (pc + 1 + dispOf word) := by
  unfold decode dispOf
  rcases h with h | h | h <;> rw [h] <;> rfl

/-- A `load`, a `store` or a `cmpxchg` is safe if and only if its address is in memory: if it is
not, the access is dropped and the core goes on. -/
theorem target_safe_iff (hw : m.vm.getWord (m.core.reg PC) = some word)
    (hop : ins (word.setWidth 8) = .load ∨ ins (word.setWidth 8) = .store ∨
      ins (word.setWidth 8) = .cmpxchg) :
    AccessSafe fpu m (decode word (m.core.reg PC))
        ((m.core.reg PC).toNat + 1 + (dispOf word).toInt) ↔
      InMemory ((m.core.reg PC).toNat + 1 + (dispOf word).toInt) := by
  have hi : m.instr = some (decode word (m.core.reg PC)) := by
    unfold Machine.instr
    rw [hw]
    rfl
  have hpc : (m.core.reg PC).toNat < MEM_SIZE := by
    by_contra hge
    simp [VM.getWord, Nat.not_lt.mp hge] at hw
  have hd := dispOf_bounds word
  obtain ⟨m', hx, hacc⟩ := target_goesOn fpu hi (decode_target hop)
  refine accessSafe_inMemory hx fun hz => ?_
  rw [inMemory_ofInt (by unfold MEM_SIZE at *; omega) (by unfold MEM_SIZE at *; omega),
    ofInt_target] at hz
  rw [ofInt_target]
  exact hacc hz

/-! ## `ldind` and `stind` -/

/-- The displacement of an instruction in memory has 16 bits. -/
theorem indirect_bounds (hi : m.instr = some (.ldind r d s) ∨ m.instr = some (.stind r d s)) :
    -2 ^ 15 ≤ d.toInt ∧ d.toInt < 2 ^ 15 := by
  have hd : ∃ word, d = disp16 word := by
    rcases hi with hi | hi
    all_goals
      obtain ⟨word, -, hword⟩ := Option.map_eq_some_iff.mp hi
      unfold decode at hword
      refine ⟨word, ?_⟩
      split at hword <;> cases hword
      rfl
  obtain ⟨word, rfl⟩ := hd
  exact disp16_bounds word

/-- The sum that the access takes, if it is the address of a word. -/
theorem ofInt_base (v d : Word) : BitVec.ofInt 32 (v.toInt + d.toInt) = v + d := by
  rw [BitVec.ofInt_add, BitVec.ofInt_toInt, BitVec.ofInt_toInt]

theorem base_inMemory {v : Word} (hd : -2 ^ 15 ≤ d.toInt ∧ d.toInt < 2 ^ 15) :
    InMemory (v.toInt + d.toInt) ↔ (v + d).toNat < MEM_SIZE := by
  have hv := toInt_bounds v
  have hv' : -2 ^ 31 ≤ v.toInt := BitVec.le_toInt v
  have hv'' : v.toInt < 2 ^ 31 := BitVec.toInt_lt
  rw [inMemory_ofInt (by unfold MEM_SIZE; omega) (by omega), ofInt_base]

variable (fpu) in
theorem ldind_runs (hi : m.instr = some (.ldind r d s))
    (hz : InMemory ((m.core.reg s).toInt + d.toInt)) :
    ∃ m', executeInstruction fpu (m.core.reg PC) m = .ok (true, m') ∧
      Continues m m' m.vm.memory
        (Function.update m.core.reg r (m.vm.memory (m.core.reg s + d))) := by
  have hpeek : peek m.vm.memory (m.core.reg s + d) (m.core.reg r) =
      m.vm.memory (m.core.reg s + d) :=
    peek_of_lt ((base_inMemory (indirect_bounds (Or.inl hi))).mp hz)
  refine ⟨_, execute_one hi (exec_ldind hz), ?_⟩
  rw [← hpeek]
  exact ⟨rfl, rfl⟩

theorem ldind_safe (hi : m.instr = some (.ldind r d s)) :
    AccessSafe fpu m (.ldind r d s) ((m.core.reg s).toInt + d.toInt) := by
  by_cases hz : InMemory ((m.core.reg s).toInt + d.toInt)
  · obtain ⟨m', hx, hcont⟩ := ldind_runs fpu hi hz
    rw [accessSafe_inMemory hx]
    · exact hz
    · intro _
      rw [ofInt_base]
      exact hcont
  · have hx : executeInstruction fpu _ m = _ := execute_one hi (exec_ldind_stop hz)
    rw [accessSafe_stops hx (stopsOutOfRange_finish _ _ _)]
    exact hz

variable (fpu) in
theorem stind_runs (hi : m.instr = some (.stind r d s)) (hcheck : InMemory (s.toNat + d.toInt)) :
    ∃ m', executeInstruction fpu (m.core.reg PC) m = .ok (true, m') ∧
      (InMemory ((m.core.reg s).toInt + d.toInt) →
        Continues m m' (Function.update m.vm.memory (m.core.reg s + d) (m.core.reg r))
          m.core.reg) := by
  refine ⟨_, execute_one hi (exec_stind hcheck), fun hz => ?_⟩
  rw [← poke_of_lt ((base_inMemory (indirect_bounds (Or.inr hi))).mp hz)]
  exact ⟨rfl, rfl⟩

/-- `stind` is safe if and only if its check, which takes the number of the base register, comes out
as a check of the address would. -/
theorem stind_safe_iff (hi : m.instr = some (.stind r d s)) :
    AccessSafe fpu m (.stind r d s) ((m.core.reg s).toInt + d.toInt) ↔
      (InMemory (s.toNat + d.toInt) ↔ InMemory ((m.core.reg s).toInt + d.toInt)) := by
  by_cases hcheck : InMemory (s.toNat + d.toInt)
  · obtain ⟨m', hx, hcont⟩ := stind_runs fpu hi hcheck
    rw [accessSafe_inMemory hx, iff_true_left hcheck]
    intro hz
    rw [ofInt_base]
    exact hcont hz
  · have hx : executeInstruction fpu _ m = _ := execute_one hi (exec_stind_stop hcheck)
    rw [accessSafe_stops hx (stopsOutOfRange_finish _ _ _), iff_false_left hcheck]

variable (fpu m r d s) in
/-- After a `stind` that goes on, an `ldind` with the same sum gives what the data register held, as
long as the word is the same. -/
def ReadsBack : Prop :=
  ∀ m₁ m₂ r₂ s₂, executeInstruction fpu (m.core.reg PC) m = .ok (true, m₁) →
    m₂.instr = some (.ldind r₂ d s₂) → m₂.core.reg s₂ = m.core.reg s →
    m₂.vm.memory (m.core.reg s + d) = m₁.vm.memory (m.core.reg s + d) →
    ∃ m₃, executeInstruction fpu (m₂.core.reg PC) m₂ = .ok (true, m₃) ∧
      Continues m₂ m₃ m₂.vm.memory (Function.update m₂.core.reg r₂ (m.core.reg r))

theorem stind_readsBack (hi : m.instr = some (.stind r d s))
    (hz : InMemory ((m.core.reg s).toInt + d.toInt)) : ReadsBack fpu m r s d := by
  intro m₁ m₂ r₂ s₂ hx hi₂ hbase hsame
  obtain ⟨m₃, hx₃, hcont⟩ := ldind_runs fpu hi₂ (hbase ▸ hz)
  have hword : m₁.vm.memory (m.core.reg s + d) = m.core.reg r := by
    by_cases hcheck : InMemory (s.toNat + d.toInt)
    · obtain ⟨m', hx', hcont'⟩ := stind_runs fpu hi hcheck
      rw [hx'] at hx
      cases hx
      rw [(hcont' hz).1]
      exact Function.update_self _ _ _
    · rw [execute_one hi (exec_stind_stop hcheck)] at hx
      cases hx
  refine ⟨m₃, hx₃, ?_⟩
  rw [hbase, hsame, hword] at hcont
  exact hcont

end

/-- `ldind` is safe. `stind` is, and its word can be read back, if and only if the number of the
base register passes the check where its contents would. -/
theorem indirect_safe_iff (fpu : Fpu) (m : Machine) (r s : Reg) (d : Word) :
    (m.instr = some (.ldind r d s) →
      AccessSafe fpu m (.ldind r d s) ((m.core.reg s).toInt + d.toInt)) ∧
    (m.instr = some (.stind r d s) →
      (AccessSafe fpu m (.stind r d s) ((m.core.reg s).toInt + d.toInt) ∧
        (InMemory ((m.core.reg s).toInt + d.toInt) → ReadsBack fpu m r s d) ↔
        (InMemory (s.toNat + d.toInt) ↔ InMemory ((m.core.reg s).toInt + d.toInt)))) := by
  refine ⟨ldind_safe, fun hi => ?_⟩
  rw [stind_safe_iff hi, and_iff_left_iff_imp]
  exact fun _ hz => stind_readsBack hi hz

/-! ### Programs of one word -/

def oneWord (word : Word) (reg : Reg → Word) : Machine where
  vm := blank.withExecutable 0 [word]
  core := ⟨Function.update reg PC 0, 100, 1, 0⟩
  log := []

/-- `load r0` from the second word after it. -/
theorem target_safe_load : AccessSafe noFpu (oneWord 0x00001001 fun _ => 0) (.load 0 2) 2 :=
  (target_safe_iff (m := oneWord 0x00001001 fun _ => 0) rfl (Or.inl rfl)).mpr ⟨by decide, by decide⟩

/-- `store r0` to the address -1, and a `load` from it: the core goes on. -/
theorem target_dropped :
    (∃ m', executeInstruction noFpu 0 (oneWord 0xffffe002 fun _ => 0) = .ok (true, m') ∧
      (oneWord 0xffffe002 fun _ => 0).instr = some (.store 0 0xffffffff) ∧ m'.core.status = 1 ∧
      ¬ AccessSafe noFpu (oneWord 0xffffe002 fun _ => 0) (.store 0 0xffffffff)
        (0 + 1 + (dispOf 0xffffe002).toInt)) ∧
    ∃ m', executeInstruction noFpu 0 (oneWord 0xffffe001 fun _ => 0) = .ok (true, m') ∧
      (oneWord 0xffffe001 fun _ => 0).instr = some (.load 0 0xffffffff) ∧ m'.core.status = 1 ∧
      ¬ AccessSafe noFpu (oneWord 0xffffe001 fun _ => 0) (.load 0 0xffffffff)
        (0 + 1 + (dispOf 0xffffe001).toInt) := by
  have hlow : ∀ word : Word, (dispOf word).toInt = -2 →
      ¬ InMemory (0 + 1 + (dispOf word).toInt) := by
    intro word hd hz
    have := hz.1
    omega
  refine ⟨⟨_, rfl, rfl, rfl, ?_⟩, ⟨_, rfl, rfl, rfl, ?_⟩⟩
  · have hz := hlow 0xffffe002 (by decide)
    rwa [accessSafe_inMemory (m := oneWord 0xffffe002 fun _ => 0) rfl fun h => absurd h hz]
  · have hz := hlow 0xffffe001 (by decide)
    rwa [accessSafe_inMemory (m := oneWord 0xffffe001 fun _ => 0) rfl fun h => absurd h hz]

def base100 (r : Reg) : Word := if r = 1 then 7 else if r = 2 then 100 else 0

/-- `stind r1` to the word at r2. -/
theorem indirect_safe_stind :
    AccessSafe noFpu (oneWord 0x00002106 base100) (.stind 1 0 2) 100 ∧
      ReadsBack noFpu (oneWord 0x00002106 base100) 1 2 0 := by
  have hi : (oneWord 0x00002106 base100).instr = some (.stind 1 0 2) := rfl
  obtain ⟨hsafe, hback⟩ := ((indirect_safe_iff noFpu _ 1 2 0).2 hi).mpr
    ⟨fun _ => ⟨by decide, by decide⟩, fun _ => ⟨by decide, by decide⟩⟩
  exact ⟨hsafe, hback ⟨by decide, by decide⟩⟩

/-- With 10 in r1, `stind r0` to `-5(r1)` stops the core; with -1 in r1, `stind r0` to `0(r1)` is
dropped. -/
theorem stind_wrong_check :
    (∃ m', executeInstruction noFpu 0 (oneWord 0xfffb1006 fun _ => 10) = .ok (false, m') ∧
      (oneWord 0xfffb1006 fun _ => 10).instr = some (.stind 0 (-5) 1) ∧
      m'.core.status = VMX20_ADDRESS_OUT_OF_RANGE ∧
      ¬ AccessSafe noFpu (oneWord 0xfffb1006 fun _ => 10) (.stind 0 (-5) 1) (10 - 5)) ∧
    ∃ m', executeInstruction noFpu 0 (oneWord 0x00001006 fun _ => -1) = .ok (true, m') ∧
      (oneWord 0x00001006 fun _ => -1).instr = some (.stind 0 0 1) ∧ m'.core.status = 1 ∧
      ¬ AccessSafe noFpu (oneWord 0x00001006 fun _ => -1) (.stind 0 0 1) (-1 + 0) := by
  refine ⟨⟨_, rfl, rfl, rfl, ?_⟩, ⟨_, rfl, rfl, rfl, ?_⟩⟩
  · rw [accessSafe_stops (m := oneWord 0xfffb1006 fun _ => 10) rfl
      ⟨rfl, rfl, rfl, fun _ hr => Function.update_of_ne hr _ _⟩, not_not]
    exact ⟨by decide, by decide⟩
  · have hz : ¬ InMemory (-1 + 0) := fun h => absurd h.1 (by decide)
    rwa [accessSafe_inMemory (m := oneWord 0x00001006 fun _ => -1) rfl fun h => absurd h hz]

end Cs720.Vm
