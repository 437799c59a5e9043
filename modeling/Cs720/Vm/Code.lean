import Mathlib.Data.BitVec
import Mathlib.Logic.Function.Basic
import Cs720.Lib.Run

/-! # The processor (`A2/P2/vmx20.c`)

A word is 32 bits, read as signed or unsigned as the C code does. Signed overflow wraps, as the code
is compiled. `memory` has a word at each address; the block that `initVm` allocates ends at
`MEM_SIZE`, so a fetch from there on is a fault, as is the division that the host traps. Each access
to memory is noted. The mutexes and what `DEBUG` and `trace` print are left out.
-/

namespace Cs720.Vm

open Cs720.Lib

abbrev Word := BitVec 32

/-- The number of a register. -/
abbrev Reg := BitVec 4

def FP : Reg := 13
def SP : Reg := 14
def PC : Reg := 15

def MEM_SIZE : Nat := 0xfffff / 4

def VMX20_MAX_PROCESSORS : Nat := 16

def VMX20_NORMAL_TERMINATION : Int := 0
def VMX20_FILE_NOT_FOUND : Int := -2
def VMX20_FILE_IS_NOT_VALID : Int := -3
def VMX20_FILE_CONTAINS_OUTSYMBOLS : Int := -4
def VMX20_DIVIDE_BY_ZERO : Int := -5
def VMX20_ADDRESS_OUT_OF_RANGE : Int := -6
def VMX20_ILLEGAL_INSTRUCTION : Int := -7

/-! ## Instructions -/

inductive Ins where
  | halt | load | store | ldimm | ldaddr | ldind | stind | addf | subf | divf | mulf | addi | subi
  | divi | muli | call | ret | blt | bgt | beq | jmp | cmpxchg | getpid | getpn | push | pop | nop
  | invalid
  deriving DecidableEq, Repr

/-- The constants `INS_*`. -/
def ins (op : BitVec 8) : Ins :=
  match op.toNat with
  | 0x00 => .halt
  | 0x01 => .load
  | 0x02 => .store
  | 0x03 => .ldimm
  | 0x04 => .ldaddr
  | 0x05 => .ldind
  | 0x06 => .stind
  | 0x07 => .addf
  | 0x08 => .subf
  | 0x09 => .divf
  | 0x0a => .mulf
  | 0x0b => .addi
  | 0x0c => .subi
  | 0x0d => .divi
  | 0x0e => .muli
  | 0x0f => .call
  | 0x10 => .ret
  | 0x11 => .blt
  | 0x12 => .bgt
  | 0x13 => .beq
  | 0x14 => .jmp
  | 0x15 => .cmpxchg
  | 0x16 => .getpid
  | 0x17 => .getpn
  | 0x18 => .push
  | 0x19 => .pop
  | 0x20 => .nop
  | _ => .invalid

def EXTENDSIGN20 (x : Word) : Word := if x.sshiftRight 19 ≠ 0 then x ||| 0xfff00000 else x
def EXTENDSIGN16 (x : Word) : Word := if x.sshiftRight 15 ≠ 0 then x ||| 0xffff0000 else x

/-- `word >> 8 & 0xf` -/
def reg1 (word : Word) : Reg := (word.sshiftRight 8 &&& 0xf).setWidth 4

/-- `word >> 12 & 0xf` -/
def reg2 (word : Word) : Reg := (word.sshiftRight 12 &&& 0xf).setWidth 4

/-- What the host computes for `float`, on the bits. -/
structure Fpu where
  add : Word → Word → Word
  sub : Word → Word → Word
  mul : Word → Word → Word
  div : Word → Word → Word

/-- `f == 0.0f`, on the bits. -/
def isZero (f : Word) : Bool := f &&& 0x7fffffff = 0

/-! ## State -/

/-- A list of `sym_t`. -/
inductive Symbols where
  | null
  /-- A pointer that nothing has set. -/
  | wild
  | node (name : List (BitVec 8)) (address : Word) (next : Symbols)
  deriving DecidableEq

structure VM where
  reg : Reg → Word
  memory : Word → Word
  entryPoint : Word
  progEnd : Word
  numProcessors : Word
  symbols : Symbols

structure Core where
  reg : Reg → Word
  /-- memory addr of bottom of stack -/
  stack : Word
  status : Int
  pid : Word

inductive Access where
  | fetch (addr : Word)
  | read (addr : Word)
  | write (addr : Word)
  deriving DecidableEq, Repr

def VM.getWord (vm : VM) (addr : Word) : Option Word :=
  if addr.toNat ≥ MEM_SIZE then none else some (vm.memory addr)

def VM.putWord (vm : VM) (addr word : Word) : Option VM :=
  if addr.toNat ≥ MEM_SIZE then none
  else some { vm with memory := Function.update vm.memory addr word }

/-- What `executeInstruction` works on: its core, the VM of the core, and the accesses so far. -/
structure Machine where
  vm : VM
  core : Core
  log : List Access

abbrev M := StateT Machine C

def fault {α : Type} : M α := fun _ => .error .fault

def access (a : Access) : M Unit := modify fun m => { m with log := m.log ++ [a] }

def reg (r : Reg) : M Word := do return (← get).core.reg r

def setReg (r : Reg) (v : Word) : M Unit :=
  modify fun m => { m with core := { m.core with reg := Function.update m.core.reg r v } }

def setStatus (termCode : Int) : M Unit :=
  modify fun m => { m with core := { m.core with status := termCode } }

def stack : M Word := do return (← get).core.stack
def pid : M Word := do return (← get).core.pid
def progEnd : M Word := do return (← get).vm.progEnd
def numProcessors : M Word := do return (← get).vm.numProcessors

/-- `memory[addr]`, with no check. -/
def fetch (addr : Word) : M Word := do
  access (.fetch addr)
  if addr.toNat < MEM_SIZE then return (← get).vm.memory addr
  else fault

/-- What the third argument of `getWord` points to after the call, if it was `out` before. -/
def getWord (addr out : Word) : M Word := do
  access (.read addr)
  return ((← get).vm.getWord addr).getD out

def putWord (addr word : Word) : M Unit := do
  access (.write addr)
  modify fun m => { m with vm := (m.vm.putWord addr word).getD m.vm }

/-! ## `executeInstruction` -/

/-- The target PC after an instruction, and the code with which it stops the core, if it does. -/
structure Next where
  tPC : Word
  termCode : Option Int

def halt (tPC : Word) : M Next := return ⟨tPC, some VMX20_NORMAL_TERMINATION⟩

def load (word tPC : Word) : M Next := do
  let addr := EXTENDSIGN20 (word.sshiftRight 12)
  setReg (reg1 word) (← getWord (tPC + addr) (← reg (reg1 word)))
  return ⟨tPC, none⟩

def store (word tPC : Word) : M Next := do
  let addr := EXTENDSIGN20 (word.sshiftRight 12)
  putWord (tPC + addr) (← reg (reg1 word))
  return ⟨tPC, none⟩

def ldimm (word tPC : Word) : M Next := do
  let addr := EXTENDSIGN20 (word.sshiftRight 12)
  setReg (reg1 word) addr
  return ⟨tPC, none⟩

def ldaddr (word tPC : Word) : M Next := do
  let addr := EXTENDSIGN20 (word.sshiftRight 12)
  setReg (reg1 word) (tPC + addr)
  return ⟨tPC, none⟩

def ldind (word tPC : Word) : M Next := do
  let addr := EXTENDSIGN16 (word.sshiftRight 16)
  let r ← reg (reg2 word)
  if (r.signExtend 64 + addr.signExtend 64).toNat ≥ MEM_SIZE then
    return ⟨tPC, some VMX20_ADDRESS_OUT_OF_RANGE⟩
  else
    setReg (reg1 word) (← getWord (r + addr) (← reg (reg1 word)))
    return ⟨tPC, none⟩

-- The check takes the number of the register, not what is in it.
def stind (word tPC : Word) : M Next := do
  let addr := EXTENDSIGN16 (word.sshiftRight 16)
  if ((reg2 word).setWidth 64 + addr.signExtend 64).toNat ≥ MEM_SIZE then
    return ⟨tPC, some VMX20_ADDRESS_OUT_OF_RANGE⟩
  else
    putWord ((← reg (reg2 word)) + addr) (← reg (reg1 word))
    return ⟨tPC, none⟩

/-- `addf`, `subf`, `mulf`, `addi`, `subi` and `muli`. -/
def arith (f : Word → Word → Word) (word tPC : Word) : M Next := do
  setReg (reg1 word) (f (← reg (reg1 word)) (← reg (reg2 word)))
  return ⟨tPC, none⟩

def divf (fpu : Fpu) (word tPC : Word) : M Next := do
  let r2f ← reg (reg2 word)
  if isZero r2f then return ⟨tPC, some VMX20_DIVIDE_BY_ZERO⟩
  else
    setReg (reg1 word) (fpu.div (← reg (reg1 word)) r2f)
    return ⟨tPC, none⟩

def divi (word tPC : Word) : M Next := do
  let r ← reg (reg2 word)
  if r = 0 then return ⟨tPC, some VMX20_DIVIDE_BY_ZERO⟩
  else if (← reg (reg1 word)) = BitVec.intMin 32 ∧ r = -1 then fault
  else
    setReg (reg1 word) ((← reg (reg1 word)).sdiv r)
    return ⟨tPC, none⟩

def call (word tPC : Word) : M Next := do
  if (← reg SP) > (← stack) ∨ (← reg SP) - 3 < (← progEnd) then
    return ⟨tPC, some VMX20_ADDRESS_OUT_OF_RANGE⟩
  else
    let addr := EXTENDSIGN20 (word.sshiftRight 12)
    setReg SP ((← reg SP) - 1)
    putWord (← reg SP) tPC
    let tPC := tPC + addr
    setReg SP ((← reg SP) - 1)
    putWord (← reg SP) (← reg FP)
    setReg FP (← reg SP)
    setReg SP ((← reg SP) - 1)
    putWord (← reg SP) 0
    return ⟨tPC, none⟩

def ret (word tPC : Word) : M Next := do
  if (← reg SP) + 3 > (← stack) ∨ (← reg SP) < (← progEnd) then
    return ⟨tPC, some VMX20_ADDRESS_OUT_OF_RANGE⟩
  else
    let word ← getWord (← reg SP) word
    setReg SP ((← reg SP) + 1)
    setReg FP (← getWord (← reg SP) (← reg FP))
    setReg SP ((← reg SP) + 1)
    let tPC ← getWord (← reg SP) tPC
    setReg SP ((← reg SP) + 1)
    putWord ((← reg FP) - 1) word
    return ⟨tPC, none⟩

/-- `blt`, `bgt` and `beq`. -/
def branch (taken : Word → Word → Bool) (word tPC : Word) : M Next := do
  let addr := EXTENDSIGN16 (word.sshiftRight 16)
  if taken (← reg (reg1 word)) (← reg (reg2 word)) then return ⟨tPC + addr, none⟩
  else return ⟨tPC, none⟩

def jmp (word tPC : Word) : M Next :=
  let addr := EXTENDSIGN20 (word.sshiftRight 12)
  return ⟨tPC + addr, none⟩

def cmpxchg (word tPC : Word) : M Next := do
  let addr := EXTENDSIGN16 (word.sshiftRight 16)
  let _w ← getWord (tPC + addr) 0
  if (← reg (reg1 word)) = _w then
    putWord (tPC + addr) (← reg (reg2 word))
  else
    setReg (reg1 word) (← getWord (tPC + addr) (← reg (reg1 word)))
  return ⟨tPC, none⟩

def getpid (word tPC : Word) : M Next := do
  setReg (reg1 word) (← pid)
  return ⟨tPC, none⟩

def getpn (word tPC : Word) : M Next := do
  setReg (reg1 word) (← numProcessors)
  return ⟨tPC, none⟩

def push (word tPC : Word) : M Next := do
  if (← reg SP) > (← stack) ∨ (← reg SP) < (← progEnd) then
    return ⟨tPC, some VMX20_ADDRESS_OUT_OF_RANGE⟩
  else
    setReg SP ((← reg SP) - 1)
    putWord (← reg SP) (← reg (reg1 word))
    return ⟨tPC, none⟩

-- The case has no `break`, so it goes on into the default case.
def pop (word tPC : Word) : M Next := do
  if (← reg SP) > (← stack) ∨ (← reg SP) < (← progEnd) then
    return ⟨tPC, some VMX20_ADDRESS_OUT_OF_RANGE⟩
  else
    setReg (reg1 word) (← getWord (← reg SP) (← reg (reg1 word)))
    setReg SP ((← reg SP) + 1)
    return ⟨tPC, some VMX20_ILLEGAL_INSTRUCTION⟩

/-- The `switch` of `executeInstruction`. -/
def instruction (fpu : Fpu) (word tPC : Word) : M Next :=
  match ins (word.setWidth 8) with
  | .halt => halt tPC
  | .load => load word tPC
  | .store => store word tPC
  | .ldimm => ldimm word tPC
  | .ldaddr => ldaddr word tPC
  | .ldind => ldind word tPC
  | .stind => stind word tPC
  | .addf => arith fpu.add word tPC
  | .subf => arith fpu.sub word tPC
  | .divf => divf fpu word tPC
  | .mulf => arith fpu.mul word tPC
  | .addi => arith (· + ·) word tPC
  | .subi => arith (· - ·) word tPC
  | .divi => divi word tPC
  | .muli => arith (· * ·) word tPC
  | .call => call word tPC
  | .ret => ret word tPC
  | .blt => branch BitVec.slt word tPC
  | .bgt => branch (fun r1 r2 => r2.slt r1) word tPC
  | .beq => branch (· == ·) word tPC
  | .jmp => jmp word tPC
  | .cmpxchg => cmpxchg word tPC
  | .getpid => getpid word tPC
  | .getpn => getpn word tPC
  | .push => push word tPC
  | .pop => pop word tPC
  | .nop | .invalid => return ⟨tPC, some VMX20_ILLEGAL_INSTRUCTION⟩

/-- Whether the core goes on. -/
def executeInstruction (fpu : Fpu) (instrAddr : Word) : M Bool := do
  let word ← fetch instrAddr
  let tPC := (← reg PC) + 1
  let next ← instruction fpu word tPC
  if let some termCode := next.termCode then setStatus termCode
  setReg PC next.tPC
  return next.termCode.isNone

end Cs720.Vm
