import Cs720.Lib.Atomicity
import Cs720.Vm.Local

/-! # The threads of `execute`, with `memLock`

Here an instruction is not made at once. Its accesses to memory are one after the other, between
`pthread_mutex_lock(memLock)` and `pthread_mutex_unlock(memLock)` where the code has them, and the
fetch is before. The registers are those of the thread alone. `progEnd` and `numProcessors` stay as
they are while the threads run.
-/

namespace Cs720.Vm.Locked

open Cs720.Lib

/-- What a thread does to its core, with accesses to the memory that it shares. -/
abbrev T := StateT Core (Call Word Word)

def lock : T Unit := fun core => .lock (.ret ((), core))

def unlock : T Unit := fun core => .unlock (.ret ((), core))

def fault {α : Type} : T α := fun _ => .fail .fault

def reg (r : Reg) : T Word := fun core => .ret (core.reg r, core)

def setReg (r : Reg) (v : Word) : T Unit := fun core =>
  .ret ((), { core with reg := Function.update core.reg r v })

def setStatus (termCode : Int) : T Unit := fun core => .ret ((), { core with status := termCode })

def stack : T Word := fun core => .ret (core.stack, core)

def pid : T Word := fun core => .ret (core.pid, core)

def fetch (addr : Word) : T Word := fun core =>
  if addr.toNat < MEM_SIZE then .load addr fun word => .ret (word, core) else .fail .fault

def getWord (addr out : Word) : T Word := fun core =>
  if addr.toNat ≥ MEM_SIZE then .ret (out, core) else .load addr fun word => .ret (word, core)

def putWord (addr word : Word) : T Unit := fun core =>
  if addr.toNat ≥ MEM_SIZE then .ret ((), core) else .store addr word (.ret ((), core))

section
variable (vm : VM)

def progEnd : T Word := return vm.progEnd
def numProcessors : T Word := return vm.numProcessors

/-! ## `executeInstruction` -/

def halt (tPC : Word) : T Next := return ⟨tPC, some VMX20_NORMAL_TERMINATION⟩

def load (word tPC : Word) : T Next := do
  let addr := EXTENDSIGN20 (word.sshiftRight 12)
  let out ← reg (reg1 word)
  lock
  setReg (reg1 word) (← getWord (tPC + addr) out)
  unlock
  return ⟨tPC, none⟩

def store (word tPC : Word) : T Next := do
  let addr := EXTENDSIGN20 (word.sshiftRight 12)
  lock
  putWord (tPC + addr) (← reg (reg1 word))
  unlock
  return ⟨tPC, none⟩

def ldimm (word tPC : Word) : T Next := do
  let addr := EXTENDSIGN20 (word.sshiftRight 12)
  setReg (reg1 word) addr
  return ⟨tPC, none⟩

def ldaddr (word tPC : Word) : T Next := do
  let addr := EXTENDSIGN20 (word.sshiftRight 12)
  setReg (reg1 word) (tPC + addr)
  return ⟨tPC, none⟩

def ldind (word tPC : Word) : T Next := do
  let addr := EXTENDSIGN16 (word.sshiftRight 16)
  let r ← reg (reg2 word)
  if (r.signExtend 64 + addr.signExtend 64).toNat ≥ MEM_SIZE then
    return ⟨tPC, some VMX20_ADDRESS_OUT_OF_RANGE⟩
  else
    let out ← reg (reg1 word)
    lock
    setReg (reg1 word) (← getWord (r + addr) out)
    unlock
    return ⟨tPC, none⟩

def stind (word tPC : Word) : T Next := do
  let addr := EXTENDSIGN16 (word.sshiftRight 16)
  if ((reg2 word).setWidth 64 + addr.signExtend 64).toNat ≥ MEM_SIZE then
    return ⟨tPC, some VMX20_ADDRESS_OUT_OF_RANGE⟩
  else
    lock
    putWord ((← reg (reg2 word)) + addr) (← reg (reg1 word))
    unlock
    return ⟨tPC, none⟩

/-- `addf`, `subf`, `mulf`, `addi`, `subi` and `muli`. -/
def arith (f : Word → Word → Word) (word tPC : Word) : T Next := do
  setReg (reg1 word) (f (← reg (reg1 word)) (← reg (reg2 word)))
  return ⟨tPC, none⟩

def divf (fpu : Fpu) (word tPC : Word) : T Next := do
  let r2f ← reg (reg2 word)
  if isZero r2f then return ⟨tPC, some VMX20_DIVIDE_BY_ZERO⟩
  else
    setReg (reg1 word) (fpu.div (← reg (reg1 word)) r2f)
    return ⟨tPC, none⟩

def divi (word tPC : Word) : T Next := do
  let r ← reg (reg2 word)
  if r = 0 then return ⟨tPC, some VMX20_DIVIDE_BY_ZERO⟩
  else if (← reg (reg1 word)) = BitVec.intMin 32 ∧ r = -1 then fault
  else
    setReg (reg1 word) ((← reg (reg1 word)).sdiv r)
    return ⟨tPC, none⟩

def call (word tPC : Word) : T Next := do
  if (← reg SP) > (← stack) ∨ (← reg SP) - 3 < (← progEnd vm) then
    return ⟨tPC, some VMX20_ADDRESS_OUT_OF_RANGE⟩
  else
    let addr := EXTENDSIGN20 (word.sshiftRight 12)
    lock
    setReg SP ((← reg SP) - 1)
    putWord (← reg SP) tPC
    let tPC := tPC + addr
    setReg SP ((← reg SP) - 1)
    putWord (← reg SP) (← reg FP)
    setReg FP (← reg SP)
    setReg SP ((← reg SP) - 1)
    putWord (← reg SP) 0
    unlock
    return ⟨tPC, none⟩

def ret (word tPC : Word) : T Next := do
  if (← reg SP) + 3 > (← stack) ∨ (← reg SP) < (← progEnd vm) then
    return ⟨tPC, some VMX20_ADDRESS_OUT_OF_RANGE⟩
  else
    lock
    let word ← getWord (← reg SP) word
    setReg SP ((← reg SP) + 1)
    setReg FP (← getWord (← reg SP) (← reg FP))
    setReg SP ((← reg SP) + 1)
    let tPC ← getWord (← reg SP) tPC
    setReg SP ((← reg SP) + 1)
    putWord ((← reg FP) - 1) word
    unlock
    return ⟨tPC, none⟩

/-- `blt`, `bgt` and `beq`. -/
def branch (taken : Word → Word → Bool) (word tPC : Word) : T Next := do
  let addr := EXTENDSIGN16 (word.sshiftRight 16)
  if taken (← reg (reg1 word)) (← reg (reg2 word)) then return ⟨tPC + addr, none⟩
  else return ⟨tPC, none⟩

def jmp (word tPC : Word) : T Next :=
  let addr := EXTENDSIGN20 (word.sshiftRight 12)
  return ⟨tPC + addr, none⟩

def cmpxchg (word tPC : Word) : T Next := do
  let addr := EXTENDSIGN16 (word.sshiftRight 16)
  lock
  let _w ← getWord (tPC + addr) 0
  if (← reg (reg1 word)) = _w then
    putWord (tPC + addr) (← reg (reg2 word))
  else
    setReg (reg1 word) (← getWord (tPC + addr) (← reg (reg1 word)))
  unlock
  return ⟨tPC, none⟩

def getpid (word tPC : Word) : T Next := do
  setReg (reg1 word) (← pid)
  return ⟨tPC, none⟩

def getpn (word tPC : Word) : T Next := do
  setReg (reg1 word) (← numProcessors vm)
  return ⟨tPC, none⟩

def push (word tPC : Word) : T Next := do
  if (← reg SP) > (← stack) ∨ (← reg SP) < (← progEnd vm) then
    return ⟨tPC, some VMX20_ADDRESS_OUT_OF_RANGE⟩
  else
    setReg SP ((← reg SP) - 1)
    lock
    putWord (← reg SP) (← reg (reg1 word))
    unlock
    return ⟨tPC, none⟩

def pop (word tPC : Word) : T Next := do
  if (← reg SP) > (← stack) ∨ (← reg SP) < (← progEnd vm) then
    return ⟨tPC, some VMX20_ADDRESS_OUT_OF_RANGE⟩
  else
    lock
    setReg (reg1 word) (← getWord (← reg SP) (← reg (reg1 word)))
    unlock
    setReg SP ((← reg SP) + 1)
    return ⟨tPC, some VMX20_ILLEGAL_INSTRUCTION⟩

/-- The `switch` of `executeInstruction`. -/
def instruction (fpu : Fpu) (word tPC : Word) : T Next :=
  match ins (word.setWidth 8) with
  | .halt => halt tPC
  | .load => load word tPC
  | .store => store word tPC
  | .ldimm => ldimm word tPC
  | .ldaddr => ldaddr word tPC
  | .ldind => ldind word tPC
  | .stind => stind word tPC
  | .addf => arith fpu.add word tPC
  | .subf => arith fpu.sub word tPC
  | .divf => divf fpu word tPC
  | .mulf => arith fpu.mul word tPC
  | .addi => arith (· + ·) word tPC
  | .subi => arith (· - ·) word tPC
  | .divi => divi word tPC
  | .muli => arith (· * ·) word tPC
  | .call => call vm word tPC
  | .ret => ret vm word tPC
  | .blt => branch BitVec.slt word tPC
  | .bgt => branch (fun r1 r2 => r2.slt r1) word tPC
  | .beq => branch (· == ·) word tPC
  | .jmp => jmp word tPC
  | .cmpxchg => cmpxchg word tPC
  | .getpid => getpid word tPC
  | .getpn => getpn vm word tPC
  | .push => push vm word tPC
  | .pop => pop vm word tPC
  | .nop | .invalid => return ⟨tPC, some VMX20_ILLEGAL_INSTRUCTION⟩

/-- `executeInstruction`, when the word is fetched. -/
def executeWord (fpu : Fpu) (word : Word) : T Bool := do
  let tPC := (← reg PC) + 1
  let next ← instruction vm fpu word tPC
  if let some termCode := next.termCode then setStatus termCode
  setReg PC next.tPC
  return next.termCode.isNone

/-- Whether the core goes on. -/
def executeInstruction (fpu : Fpu) (instrAddr : Word) : T Bool := do
  let word ← fetch instrAddr
  executeWord vm fpu word

end

/-! ## The lock does not change what an instruction does -/

/-- Without its lock, and made at once, `x` is `y`. What it writes is in the log. -/
structure Erased {α : Type} (vm : VM) (x : T α) (y : M α) (m : Machine) : Prop where
  run : (x m.core).run m.vm.memory = y m >>= fun r => .ok ((r.1, r.2.core), r.2.vm.memory)
  vm : ∀ r m', y m = .ok (r, m') → m'.vm = { vm with memory := m'.vm.memory }
  writes : ∀ r m', y m = .ok (r, m') →
    ∃ l, m'.log = m.log ++ l ∧ ∀ a ∈ (x m.core).writes m.vm.memory, Wrote l a

def Erases {α : Type} (vm : VM) (x : T α) (y : M α) : Prop :=
  ∀ m : Machine, m.vm = { vm with memory := m.vm.memory } → Erased vm x y m

section
variable {α β : Type} {vm : VM} {x : T α} {y : M α} {k : α → T β} {k' : α → M β}

theorem run_bind_T (core : Core) :
    (x >>= k) core = (x core).bind fun r => k r.1 r.2 := rfl

theorem erases_bind (hx : Erases vm x y) (hk : ∀ r, Erases vm (k r) (k' r)) :
    Erases vm (x >>= k) (y >>= k') := by
  intro m hm
  have h := hx m hm
  cases hy : y m with
  | error e =>
    have hx' : (x m.core).run m.vm.memory = .error e := by
      rw [h.run, hy]
      rfl
    refine ⟨?_, ?_, ?_⟩
    · rw [run_bind_T, Call.run_bind, hx', run_bind, hy]
      rfl
    · rw [run_bind, hy]
      exact nofun
    · rw [run_bind, hy]
      exact nofun
  | ok r =>
    obtain ⟨r, m'⟩ := r
    have hx' : (x m.core).run m.vm.memory = .ok ((r, m'.core), m'.vm.memory) := by
      rw [h.run, hy]
      rfl
    have h' := hk r m' (h.vm r m' hy)
    obtain ⟨l, hl, hw⟩ := h.writes r m' hy
    refine ⟨?_, ?_, ?_⟩
    · rw [run_bind_T, Call.run_bind, hx', run_bind, hy]
      exact h'.run
    · rw [run_bind, hy]
      exact h'.vm
    · rw [run_bind, hy]
      intro s m'' hs
      obtain ⟨l', hl', hw'⟩ := h'.writes s m'' hs
      refine ⟨l ++ l', by rw [hl', hl, List.append_assoc], fun a ha => ?_⟩
      rw [run_bind_T, Call.writes_bind _ _ hx', List.mem_append] at ha
      rw [wrote_append]
      exact ha.imp (hw a) (hw' a)

theorem erases_pure (r : α) : Erases vm (pure r) (pure r) := by
  intro m hm
  refine ⟨rfl, ?_, ?_⟩
  · rintro _ _ ⟨⟩
    exact hm
  · rintro _ _ ⟨⟩
    exact ⟨[], (List.append_nil _).symm, nofun⟩

theorem erases_lock (h : Erases vm x y) : Erases vm (lock >>= fun _ => x) y :=
  fun m hm => ⟨(h m hm).run, (h m hm).vm, (h m hm).writes⟩

theorem erases_unlock (h : Erases vm x y) : Erases vm (unlock >>= fun _ => x) y :=
  fun m hm => ⟨(h m hm).run, (h m hm).vm, (h m hm).writes⟩

theorem erases_fault : Erases vm (fault : T α) Vm.fault := fun _ _ => ⟨rfl, nofun, nofun⟩

theorem erases_ite {c : Prop} [Decidable c] {x' : T α} {y' : M α} (h : Erases vm x y)
    (h' : Erases vm x' y') : Erases vm (if c then x else x') (if c then y else y') := by
  split
  · exact h
  · exact h'

/-- What a thread does to its core alone. -/
theorem erases_own {f : Core → α × Core} (hx : ∀ core, x core = .ret (f core))
    (hy : ∀ m, y m = .ok ((f m.core).1, { m with core := (f m.core).2 })) : Erases vm x y := by
  intro m hm
  refine ⟨?_, ?_, ?_⟩
  · rw [hx, hy]
    rfl
  · rw [hy]
    rintro _ _ ⟨⟩
    exact hm
  · rw [hx, hy]
    rintro _ _ ⟨⟩
    exact ⟨[], (List.append_nil _).symm, nofun⟩

variable {r : Reg} {addr word out : Word}

theorem erases_reg : Erases vm (reg r) (Vm.reg r) := erases_own (fun _ => rfl) fun _ => rfl

theorem erases_setReg : Erases vm (setReg r word) (Vm.setReg r word) :=
  erases_own (fun _ => rfl) fun _ => rfl

theorem erases_setStatus (c : Int) : Erases vm (setStatus c) (Vm.setStatus c) :=
  erases_own (fun _ => rfl) fun _ => rfl

theorem erases_stack : Erases vm stack Vm.stack := erases_own (fun _ => rfl) fun _ => rfl

theorem erases_pid : Erases vm pid Vm.pid := erases_own (fun _ => rfl) fun _ => rfl

/-- What a thread reads of the VM that no thread changes. -/
theorem erases_fixed {f : VM → α} (hf : ∀ v memory, f { v with memory := memory } = f v)
    (hy : ∀ m, y m = .ok (f m.vm, m)) : Erases vm (pure (f vm)) y := by
  intro m hm
  have hfm : f m.vm = f vm := by
    rw [hm]
    exact hf vm _
  refine ⟨?_, ?_, ?_⟩
  · rw [hy, hfm]
    rfl
  · rw [hy]
    rintro _ _ ⟨⟩
    exact hm
  · rw [hy]
    rintro _ _ ⟨⟩
    exact ⟨[], (List.append_nil _).symm, nofun⟩

theorem erases_progEnd : Erases vm (progEnd vm) Vm.progEnd :=
  erases_fixed (fun _ _ => rfl) fun _ => rfl

theorem erases_numProcessors : Erases vm (numProcessors vm) Vm.numProcessors :=
  erases_fixed (fun _ _ => rfl) fun _ => rfl

theorem erases_fetch : Erases vm (fetch addr) (Vm.fetch addr) := by
  intro m hm
  by_cases h : addr.toNat < MEM_SIZE
  · have hx : fetch addr m.core = .load addr fun word => .ret (word, m.core) := if_pos h
    refine ⟨?_, ?_, ?_⟩
    · rw [hx, run_fetch h]
      rfl
    · rw [run_fetch h]
      rintro _ _ ⟨⟩
      exact hm
    · rw [hx, run_fetch h]
      rintro _ _ ⟨⟩
      exact ⟨[.fetch addr], rfl, nofun⟩
  · have hx : fetch addr m.core = .fail .fault := if_neg h
    have hy : Vm.fetch addr m = .error .fault := run_fetch_fault (Nat.not_lt.mp h)
    refine ⟨?_, ?_, ?_⟩
    · rw [hx, hy]
      rfl
    · rw [hy]
      exact nofun
    · rw [hy]
      exact nofun

theorem erases_getWord : Erases vm (getWord addr out) (Vm.getWord addr out) := by
  intro m hm
  refine ⟨?_, ?_, ?_⟩
  · rw [run_getWord]
    unfold getWord peek
    split <;> split
    · omega
    · rfl
    · rfl
    · omega
  · rw [run_getWord]
    rintro _ _ ⟨⟩
    exact hm
  · rw [run_getWord]
    rintro _ _ ⟨⟩
    refine ⟨[.read addr], rfl, ?_⟩
    unfold getWord
    split
    · exact nofun
    · exact nofun

theorem erases_putWord : Erases vm (putWord addr word) (Vm.putWord addr word) := by
  intro m hm
  refine ⟨?_, ?_, ?_⟩
  · rw [run_putWord]
    unfold putWord Machine.put poke
    split <;> split
    · omega
    · rfl
    · rfl
    · omega
  · rw [run_putWord]
    rintro _ _ ⟨⟩
    exact congrArg (fun v : VM => { v with memory := poke m.vm.memory addr word }) hm
  · rw [run_putWord]
    rintro _ _ ⟨⟩
    refine ⟨[.write addr], rfl, ?_⟩
    unfold putWord
    split
    · exact nofun
    · rename_i h
      intro a ha
      obtain rfl : a = addr := List.mem_singleton.mp ha
      exact ⟨List.mem_singleton_self _, Nat.not_le.mp h⟩

end

/-! ## The cases -/

section
variable {vm : VM} {word tPC : Word}

theorem erases_load : Erases vm (load word tPC) (Vm.load word tPC) :=
  erases_bind erases_reg fun _ => erases_lock <| erases_bind erases_getWord fun _ =>
    erases_bind erases_setReg fun _ => erases_unlock <| erases_pure _

theorem erases_store : Erases vm (store word tPC) (Vm.store word tPC) :=
  erases_lock <| erases_bind erases_reg fun _ => erases_bind erases_putWord fun _ =>
    erases_unlock <| erases_pure _

theorem erases_ldind : Erases vm (ldind word tPC) (Vm.ldind word tPC) := by
  refine erases_bind erases_reg fun _ => erases_ite (erases_pure _) ?_
  refine erases_bind erases_reg fun _ => erases_lock <| erases_bind erases_getWord fun _ => ?_
  exact erases_bind erases_setReg fun _ => erases_unlock <| erases_pure _

theorem erases_stind : Erases vm (stind word tPC) (Vm.stind word tPC) := by
  refine erases_ite (erases_pure _) <| erases_lock ?_
  refine erases_bind erases_reg fun _ => erases_bind erases_reg fun _ => ?_
  exact erases_bind erases_putWord fun _ => erases_unlock <| erases_pure _

theorem erases_arith (f : Word → Word → Word) :
    Erases vm (arith f word tPC) (Vm.arith f word tPC) :=
  erases_bind erases_reg fun _ => erases_bind erases_reg fun _ =>
    erases_bind erases_setReg fun _ => erases_pure _

theorem erases_divf (fpu : Fpu) : Erases vm (divf fpu word tPC) (Vm.divf fpu word tPC) :=
  erases_bind erases_reg fun _ => erases_ite (erases_pure _) <|
    erases_bind erases_reg fun _ => erases_bind erases_setReg fun _ => erases_pure _

theorem erases_divi : Erases vm (divi word tPC) (Vm.divi word tPC) := by
  refine erases_bind erases_reg fun _ => erases_ite (erases_pure _) ?_
  refine erases_bind erases_reg fun _ => erases_ite erases_fault ?_
  exact erases_bind erases_reg fun _ => erases_bind erases_setReg fun _ => erases_pure _

theorem erases_call : Erases vm (call vm word tPC) (Vm.call word tPC) := by
  refine erases_bind erases_reg fun _ => erases_bind erases_stack fun _ =>
    erases_bind erases_reg fun _ => erases_bind erases_progEnd fun _ =>
      erases_ite (erases_pure _) <| erases_lock ?_
  refine erases_bind erases_reg fun _ => erases_bind erases_setReg fun _ =>
    erases_bind erases_reg fun _ => erases_bind erases_putWord fun _ => ?_
  refine erases_bind erases_reg fun _ => erases_bind erases_setReg fun _ =>
    erases_bind erases_reg fun _ => erases_bind erases_reg fun _ =>
      erases_bind erases_putWord fun _ => ?_
  refine erases_bind erases_reg fun _ => erases_bind erases_setReg fun _ =>
    erases_bind erases_reg fun _ => erases_bind erases_setReg fun _ => ?_
  exact erases_bind erases_reg fun _ => erases_bind erases_putWord fun _ =>
    erases_unlock <| erases_pure _

theorem erases_ret : Erases vm (ret vm word tPC) (Vm.ret word tPC) := by
  refine erases_bind erases_reg fun _ => erases_bind erases_stack fun _ =>
    erases_bind erases_reg fun _ => erases_bind erases_progEnd fun _ =>
      erases_ite (erases_pure _) <| erases_lock ?_
  refine erases_bind erases_reg fun _ => erases_bind erases_getWord fun _ =>
    erases_bind erases_reg fun _ => erases_bind erases_setReg fun _ => ?_
  refine erases_bind erases_reg fun _ => erases_bind erases_reg fun _ =>
    erases_bind erases_getWord fun _ => erases_bind erases_setReg fun _ => ?_
  refine erases_bind erases_reg fun _ => erases_bind erases_setReg fun _ =>
    erases_bind erases_reg fun _ => erases_bind erases_getWord fun _ => ?_
  refine erases_bind erases_reg fun _ => erases_bind erases_setReg fun _ => ?_
  exact erases_bind erases_reg fun _ => erases_bind erases_putWord fun _ =>
    erases_unlock <| erases_pure _

theorem erases_branch (taken : Word → Word → Bool) :
    Erases vm (branch taken word tPC) (Vm.branch taken word tPC) :=
  erases_bind erases_reg fun _ => erases_bind erases_reg fun _ =>
    erases_ite (erases_pure _) (erases_pure _)

theorem erases_cmpxchg : Erases vm (cmpxchg word tPC) (Vm.cmpxchg word tPC) := by
  refine erases_lock <| erases_bind erases_getWord fun _ => erases_bind erases_reg fun _ => ?_
  refine erases_ite ?_ ?_
  · exact erases_bind erases_reg fun _ => erases_bind erases_putWord fun _ =>
      erases_unlock <| erases_pure _
  · exact erases_bind erases_reg fun _ => erases_bind erases_getWord fun _ =>
      erases_bind erases_setReg fun _ => erases_unlock <| erases_pure _

theorem erases_push : Erases vm (push vm word tPC) (Vm.push word tPC) := by
  refine erases_bind erases_reg fun _ => erases_bind erases_stack fun _ =>
    erases_bind erases_reg fun _ => erases_bind erases_progEnd fun _ =>
      erases_ite (erases_pure _) ?_
  refine erases_bind erases_reg fun _ => erases_bind erases_setReg fun _ => erases_lock <|
    erases_bind erases_reg fun _ => erases_bind erases_reg fun _ => ?_
  exact erases_bind erases_putWord fun _ => erases_unlock <| erases_pure _

theorem erases_pop : Erases vm (pop vm word tPC) (Vm.pop word tPC) := by
  refine erases_bind erases_reg fun _ => erases_bind erases_stack fun _ =>
    erases_bind erases_reg fun _ => erases_bind erases_progEnd fun _ =>
      erases_ite (erases_pure _) <| erases_lock ?_
  refine erases_bind erases_reg fun _ => erases_bind erases_reg fun _ =>
    erases_bind erases_getWord fun _ => erases_bind erases_setReg fun _ => erases_unlock ?_
  exact erases_bind erases_reg fun _ => erases_bind erases_setReg fun _ => erases_pure _

theorem erases_instruction (fpu : Fpu) :
    Erases vm (instruction vm fpu word tPC) (Vm.instruction fpu word tPC) := by
  unfold instruction Vm.instruction
  generalize ins (word.setWidth 8) = op
  cases op with
  | halt | jmp | nop | invalid => exact erases_pure _
  | ldimm | ldaddr => exact erases_bind erases_setReg fun _ => erases_pure _
  | load => exact erases_load
  | store => exact erases_store
  | ldind => exact erases_ldind
  | stind => exact erases_stind
  | addf | subf | mulf | addi | subi | muli => exact erases_arith _
  | divf => exact erases_divf fpu
  | divi => exact erases_divi
  | call => exact erases_call
  | ret => exact erases_ret
  | blt | bgt | beq => exact erases_branch _
  | cmpxchg => exact erases_cmpxchg
  | getpid => exact erases_bind erases_pid fun _ => erases_bind erases_setReg fun _ => erases_pure _
  | getpn =>
    exact erases_bind erases_numProcessors fun _ => erases_bind erases_setReg fun _ => erases_pure _
  | push => exact erases_push
  | pop => exact erases_pop

/-- Made at once, an instruction is that of the model without the lock. -/
theorem erases_executeInstruction (fpu : Fpu) (instrAddr : Word) :
    Erases vm (executeInstruction vm fpu instrAddr) (Vm.executeInstruction fpu instrAddr) := by
  refine erases_bind erases_fetch fun _ => erases_bind erases_reg fun _ =>
    erases_bind (erases_instruction fpu) fun next => ?_
  obtain ⟨_, _ | c⟩ := next
  · exact erases_bind erases_setReg fun _ => erases_pure _
  · exact erases_bind (erases_setStatus c) fun _ => erases_bind erases_setReg fun _ => erases_pure _

end

/-! ## Where the lock is held -/

/-- A thread in the phase `p` comes to one of the phases `Q`. -/
def Steps {α : Type} (p : Phase) (x : T α) (Q : Phase → Prop) : Prop :=
  ∀ (core : Core) (R : Type) (k : α × Core → Call Word Word R),
    (∀ r ph, Q ph → (k r).Sect ph) → ((x core).bind k).Sect p

section
variable {α β : Type} {p q : Phase} {Q : Phase → Prop} {x : T α} {k : α → T β} {r : Reg}
  {addr word out : Word}

theorem steps_then {P : Phase → Prop} (hx : Steps p x P) (hk : ∀ q, P q → ∀ r, Steps q (k r) Q) :
    Steps p (x >>= k) Q := by
  intro core R f hf
  rw [run_bind_T, Call.bind_assoc]
  exact hx core R _ fun r ph hph => hk ph hph r.1 r.2 R f hf

theorem steps_bind (hx : Steps p x (· = q)) (hk : ∀ r, Steps q (k r) Q) : Steps p (x >>= k) Q :=
  steps_then hx fun _ hq => hq ▸ hk

theorem steps_own {f : Core → α × Core} (hx : ∀ core, x core = .ret (f core)) (hQ : Q p) :
    Steps p x Q := by
  intro core R k hk
  rw [hx]
  exact hk _ p hQ

theorem steps_pure (a : α) (hQ : Q p) : Steps p (pure a) Q := steps_own (fun _ => rfl) hQ

theorem steps_reg : Steps p (reg r) (· = p) := steps_own (fun _ => rfl) rfl

theorem steps_setReg : Steps p (setReg r word) (· = p) := steps_own (fun _ => rfl) rfl

theorem steps_setStatus (c : Int) : Steps p (setStatus c) (· = p) := steps_own (fun _ => rfl) rfl

theorem steps_stack : Steps p stack (· = p) := steps_own (fun _ => rfl) rfl

theorem steps_pid : Steps p pid (· = p) := steps_own (fun _ => rfl) rfl

theorem steps_progEnd (vm : VM) : Steps p (progEnd vm) (· = p) := steps_pure _ rfl

theorem steps_numProcessors (vm : VM) : Steps p (numProcessors vm) (· = p) := steps_pure _ rfl

theorem steps_fault : Steps .ready (fault : T α) Q :=
  fun _ _ _ _ => Call.sect_fail.mpr (.inr rfl)

theorem steps_lock : Steps .ready lock (· = .inside) :=
  fun _ _ _ hk => ⟨.inr rfl, hk _ _ rfl⟩

theorem steps_unlock : Steps .inside unlock (· = .after) := fun _ _ _ hk => ⟨rfl, hk _ _ rfl⟩

theorem steps_ite {c : Prop} [Decidable c] {y : T α} (hx : Steps p x Q) (hy : Steps p y Q) :
    Steps p (if c then x else y) Q := by
  split
  · exact hx
  · exact hy

theorem steps_getWord : Steps .inside (getWord addr out) (· = .inside) := by
  intro core R k hk
  unfold getWord
  split
  · exact hk _ _ rfl
  · exact ⟨.inr rfl, fun v => hk _ _ rfl⟩

theorem steps_putWord : Steps .inside (putWord addr word) (· = .inside) := by
  intro core R k hk
  unfold putWord
  split
  · exact hk _ _ rfl
  · exact ⟨rfl, hk _ _ rfl⟩

theorem steps_fetch : Steps .outside (fetch addr) (· = .ready) := by
  intro core R k hk
  unfold fetch
  split
  · exact ⟨.inl rfl, fun v => (hk _ _ rfl).outside⟩
  · exact Call.sect_fail.mpr (.inl rfl)

end

section
variable {vm : VM} {word tPC : Word}

theorem steps_load : Steps .ready (load word tPC) (· ≠ .inside) :=
  steps_bind steps_reg fun _ => steps_bind steps_lock fun _ => steps_bind steps_getWord fun _ =>
    steps_bind steps_setReg fun _ => steps_bind steps_unlock fun _ => steps_pure _ (by decide)

theorem steps_store : Steps .ready (store word tPC) (· ≠ .inside) :=
  steps_bind steps_lock fun _ => steps_bind steps_reg fun _ => steps_bind steps_putWord fun _ =>
    steps_bind steps_unlock fun _ => steps_pure _ (by decide)

theorem steps_ldind : Steps .ready (ldind word tPC) (· ≠ .inside) := by
  refine steps_bind steps_reg fun _ => steps_ite (steps_pure _ (by decide)) ?_
  refine steps_bind steps_reg fun _ => steps_bind steps_lock fun _ =>
    steps_bind steps_getWord fun _ => ?_
  exact steps_bind steps_setReg fun _ => steps_bind steps_unlock fun _ =>
    steps_pure _ (by decide)

theorem steps_stind : Steps .ready (stind word tPC) (· ≠ .inside) := by
  refine steps_ite (steps_pure _ (by decide)) <| steps_bind steps_lock fun _ => ?_
  refine steps_bind steps_reg fun _ => steps_bind steps_reg fun _ => ?_
  exact steps_bind steps_putWord fun _ => steps_bind steps_unlock fun _ =>
    steps_pure _ (by decide)

theorem steps_arith (f : Word → Word → Word) : Steps .ready (arith f word tPC) (· ≠ .inside) :=
  steps_bind steps_reg fun _ => steps_bind steps_reg fun _ => steps_bind steps_setReg fun _ =>
    steps_pure _ (by decide)

theorem steps_divf (fpu : Fpu) : Steps .ready (divf fpu word tPC) (· ≠ .inside) :=
  steps_bind steps_reg fun _ => steps_ite (steps_pure _ (by decide)) <|
    steps_bind steps_reg fun _ => steps_bind steps_setReg fun _ => steps_pure _ (by decide)

theorem steps_divi : Steps .ready (divi word tPC) (· ≠ .inside) := by
  refine steps_bind steps_reg fun _ => steps_ite (steps_pure _ (by decide)) ?_
  refine steps_bind steps_reg fun _ => steps_ite steps_fault ?_
  exact steps_bind steps_reg fun _ => steps_bind steps_setReg fun _ => steps_pure _ (by decide)

theorem steps_call : Steps .ready (call vm word tPC) (· ≠ .inside) := by
  refine steps_bind steps_reg fun _ => steps_bind steps_stack fun _ =>
    steps_bind steps_reg fun _ => steps_bind (steps_progEnd vm) fun _ =>
      steps_ite (steps_pure _ (by decide)) <| steps_bind steps_lock fun _ => ?_
  refine steps_bind steps_reg fun _ => steps_bind steps_setReg fun _ =>
    steps_bind steps_reg fun _ => steps_bind steps_putWord fun _ => ?_
  refine steps_bind steps_reg fun _ => steps_bind steps_setReg fun _ =>
    steps_bind steps_reg fun _ => steps_bind steps_reg fun _ => steps_bind steps_putWord fun _ => ?_
  refine steps_bind steps_reg fun _ => steps_bind steps_setReg fun _ =>
    steps_bind steps_reg fun _ => steps_bind steps_setReg fun _ => ?_
  exact steps_bind steps_reg fun _ => steps_bind steps_putWord fun _ =>
    steps_bind steps_unlock fun _ => steps_pure _ (by decide)

theorem steps_ret : Steps .ready (ret vm word tPC) (· ≠ .inside) := by
  refine steps_bind steps_reg fun _ => steps_bind steps_stack fun _ =>
    steps_bind steps_reg fun _ => steps_bind (steps_progEnd vm) fun _ =>
      steps_ite (steps_pure _ (by decide)) <| steps_bind steps_lock fun _ => ?_
  refine steps_bind steps_reg fun _ => steps_bind steps_getWord fun _ =>
    steps_bind steps_reg fun _ => steps_bind steps_setReg fun _ => ?_
  refine steps_bind steps_reg fun _ => steps_bind steps_reg fun _ =>
    steps_bind steps_getWord fun _ => steps_bind steps_setReg fun _ => ?_
  refine steps_bind steps_reg fun _ => steps_bind steps_setReg fun _ =>
    steps_bind steps_reg fun _ => steps_bind steps_getWord fun _ => ?_
  refine steps_bind steps_reg fun _ => steps_bind steps_setReg fun _ => ?_
  exact steps_bind steps_reg fun _ => steps_bind steps_putWord fun _ =>
    steps_bind steps_unlock fun _ => steps_pure _ (by decide)

theorem steps_branch (taken : Word → Word → Bool) :
    Steps .ready (branch taken word tPC) (· ≠ .inside) :=
  steps_bind steps_reg fun _ => steps_bind steps_reg fun _ =>
    steps_ite (steps_pure _ (by decide)) (steps_pure _ (by decide))

theorem steps_cmpxchg : Steps .ready (cmpxchg word tPC) (· ≠ .inside) := by
  refine steps_bind steps_lock fun _ => steps_bind steps_getWord fun _ =>
    steps_bind steps_reg fun _ => steps_ite ?_ ?_
  · exact steps_bind steps_reg fun _ => steps_bind steps_putWord fun _ =>
      steps_bind steps_unlock fun _ => steps_pure _ (by decide)
  · exact steps_bind steps_reg fun _ => steps_bind steps_getWord fun _ =>
      steps_bind steps_setReg fun _ => steps_bind steps_unlock fun _ => steps_pure _ (by decide)

theorem steps_push : Steps .ready (push vm word tPC) (· ≠ .inside) := by
  refine steps_bind steps_reg fun _ => steps_bind steps_stack fun _ =>
    steps_bind steps_reg fun _ => steps_bind (steps_progEnd vm) fun _ =>
      steps_ite (steps_pure _ (by decide)) ?_
  refine steps_bind steps_reg fun _ => steps_bind steps_setReg fun _ =>
    steps_bind steps_lock fun _ => steps_bind steps_reg fun _ => steps_bind steps_reg fun _ => ?_
  exact steps_bind steps_putWord fun _ => steps_bind steps_unlock fun _ =>
    steps_pure _ (by decide)

theorem steps_pop : Steps .ready (pop vm word tPC) (· ≠ .inside) := by
  refine steps_bind steps_reg fun _ => steps_bind steps_stack fun _ =>
    steps_bind steps_reg fun _ => steps_bind (steps_progEnd vm) fun _ =>
      steps_ite (steps_pure _ (by decide)) <| steps_bind steps_lock fun _ => ?_
  refine steps_bind steps_reg fun _ => steps_bind steps_reg fun _ =>
    steps_bind steps_getWord fun _ => steps_bind steps_setReg fun _ =>
      steps_bind steps_unlock fun _ => ?_
  exact steps_bind steps_reg fun _ => steps_bind steps_setReg fun _ => steps_pure _ (by decide)

theorem steps_instruction (fpu : Fpu) :
    Steps .ready (instruction vm fpu word tPC) (· ≠ .inside) := by
  unfold instruction
  generalize ins (word.setWidth 8) = op
  cases op with
  | halt | jmp | nop | invalid => exact steps_pure _ (by decide)
  | ldimm | ldaddr => exact steps_bind steps_setReg fun _ => steps_pure _ (by decide)
  | load => exact steps_load
  | store => exact steps_store
  | ldind => exact steps_ldind
  | stind => exact steps_stind
  | addf | subf | mulf | addi | subi | muli => exact steps_arith _
  | divf => exact steps_divf fpu
  | divi => exact steps_divi
  | call => exact steps_call
  | ret => exact steps_ret
  | blt | bgt | beq => exact steps_branch _
  | cmpxchg => exact steps_cmpxchg
  | getpid =>
    exact steps_bind steps_pid fun _ => steps_bind steps_setReg fun _ => steps_pure _ (by decide)
  | getpn =>
    exact steps_bind (steps_numProcessors vm) fun _ => steps_bind steps_setReg fun _ =>
      steps_pure _ (by decide)
  | push => exact steps_push
  | pop => exact steps_pop

end

end Cs720.Vm.Locked
