import Mathlib.Tactic.IntervalCases
import Cs720.Vm.Listing

/-! # What a word means as an instruction

`decode` gives the operands, with PC-relative addresses made absolute. The disassemblers print them,
and `executeInstruction` executes them.
-/

namespace Cs720.Vm

open Cs720.Lib

/-! ## Instructions -/

inductive Instr where
  | halt
  | load (r : Reg) (a : Word)
  | store (r : Reg) (a : Word)
  | ldimm (r : Reg) (v : Word)
  | ldaddr (r : Reg) (a : Word)
  | ldind (r : Reg) (d : Word) (s : Reg)
  | stind (r : Reg) (d : Word) (s : Reg)
  | addf (r s : Reg)
  | subf (r s : Reg)
  | divf (r s : Reg)
  | mulf (r s : Reg)
  | addi (r s : Reg)
  | subi (r s : Reg)
  | divi (r s : Reg)
  | muli (r s : Reg)
  | call (a : Word)
  /-- `word` is returned if there is no word at SP. -/
  | ret (word : Word)
  | blt (r s : Reg) (a : Word)
  | bgt (r s : Reg) (a : Word)
  | beq (r s : Reg) (a : Word)
  | jmp (a : Word)
  | cmpxchg (r s : Reg) (a : Word)
  | getpid (r : Reg)
  | getpn (r : Reg)
  | push (r : Reg)
  | pop (r : Reg)
  | nop
  | invalid
  deriving DecidableEq

/-- The sign-extended upper 20 bits. -/
def disp20 (word : Word) : Word := (word.extractLsb' 12 20).signExtend 32

/-- The sign-extended upper 16 bits. -/
def disp16 (word : Word) : Word := (word.extractLsb' 16 16).signExtend 32

/-- The instruction `word` at the address `pc`. -/
def decode (word pc : Word) : Instr :=
  let r : Reg := word.extractLsb' 8 4
  let s : Reg := word.extractLsb' 12 4
  match ins (word.setWidth 8) with
  | .halt => .halt
  | .load => .load r (pc + 1 + disp20 word)
  | .store => .store r (pc + 1 + disp20 word)
  | .ldimm => .ldimm r (disp20 word)
  | .ldaddr => .ldaddr r (pc + 1 + disp20 word)
  | .ldind => .ldind r (disp16 word) s
  | .stind => .stind r (disp16 word) s
  | .addf => .addf r s
  | .subf => .subf r s
  | .divf => .divf r s
  | .mulf => .mulf r s
  | .addi => .addi r s
  | .subi => .subi r s
  | .divi => .divi r s
  | .muli => .muli r s
  | .call => .call (pc + 1 + disp20 word)
  | .ret => .ret word
  | .blt => .blt r s (pc + 1 + disp16 word)
  | .bgt => .bgt r s (pc + 1 + disp16 word)
  | .beq => .beq r s (pc + 1 + disp16 word)
  | .jmp => .jmp (pc + 1 + disp20 word)
  | .cmpxchg => .cmpxchg r s (pc + 1 + disp16 word)
  | .getpid => .getpid r
  | .getpn => .getpn r
  | .push => .push r
  | .pop => .pop r
  | .nop => .nop
  | .invalid => .invalid

/-! ## Text -/

def Instr.name : Instr → String
  | halt => "halt"
  | load .. => "load"
  | store .. => "store"
  | ldimm .. => "ldimm"
  | ldaddr .. => "ldaddr"
  | ldind .. => "ldind"
  | stind .. => "stind"
  | addf .. => "addf"
  | subf .. => "subf"
  | divf .. => "divf"
  | mulf .. => "mulf"
  | addi .. => "addi"
  | subi .. => "subi"
  | divi .. => "divi"
  | muli .. => "muli"
  | call .. => "call"
  | ret .. => "ret"
  | blt .. => "blt"
  | bgt .. => "bgt"
  | beq .. => "beq"
  | jmp .. => "jmp"
  | cmpxchg .. => "cmpxchg"
  | getpid .. => "getpid"
  | getpn .. => "getpn"
  | push .. => "push"
  | pop .. => "pop"
  | nop => "NOP"
  | invalid => "unknown"

/-- The name of a register. -/
def regName (r : Reg) : String := "r" ++ dec (r.setWidth 32)

def Instr.operands : Instr → String
  | halt | ret _ | nop | invalid => ""
  | call a | jmp a => dec a
  | getpid r | getpn r | push r | pop r => regName r
  | ldimm r v => regName r ++ ", " ++ dec v
  | load r a | store r a | ldaddr r a => regName r ++ ", " ++ dec a
  | addf r s | subf r s | divf r s | mulf r s | addi r s | subi r s | divi r s | muli r s =>
    regName r ++ ", " ++ regName s
  | ldind r d s | stind r d s => regName r ++ ", " ++ dec d ++ "(" ++ regName s ++ ")"
  | blt r s a | bgt r s a | beq r s a | cmpxchg r s a =>
    regName r ++ ", " ++ regName s ++ ", " ++ dec a

/-- What `disassemble` comes to. -/
def Instr.disassembled (i : Instr) : Disassembled :=
  let buffer := left8 i.name ++ " " ++ i.operands
  if i = .invalid then ⟨0, some buffer, VMX20_ILLEGAL_INSTRUCTION⟩ else ⟨1, some buffer, 0⟩

/-! ## Execution -/

def stop (tPC : Word) (termCode : Int) : M Next := return ⟨tPC, some termCode⟩

def Instr.exec (fpu : Fpu) (tPC : Word) : Instr → M Next
  | halt => stop tPC VMX20_NORMAL_TERMINATION
  | load r a => do
    setReg r (← getWord a (← reg r))
    return ⟨tPC, none⟩
  | store r a => do
    putWord a (← reg r)
    return ⟨tPC, none⟩
  | ldimm r v => do
    setReg r v
    return ⟨tPC, none⟩
  | ldaddr r a => do
    setReg r a
    return ⟨tPC, none⟩
  | ldind r d s => do
    let v ← reg s
    if 0 ≤ v.toInt + d.toInt ∧ v.toInt + d.toInt < MEM_SIZE then
      setReg r (← getWord (v + d) (← reg r))
      return ⟨tPC, none⟩
    else stop tPC VMX20_ADDRESS_OUT_OF_RANGE
  | stind r d s => do
    if 0 ≤ s.toNat + d.toInt ∧ s.toNat + d.toInt < MEM_SIZE then
      putWord ((← reg s) + d) (← reg r)
      return ⟨tPC, none⟩
    else stop tPC VMX20_ADDRESS_OUT_OF_RANGE
  | addf r s => op fpu.add r s
  | subf r s => op fpu.sub r s
  | divf r s => do
    let v ← reg s
    if isZero v then stop tPC VMX20_DIVIDE_BY_ZERO else op fpu.div r s
  | mulf r s => op fpu.mul r s
  | addi r s => op (· + ·) r s
  | subi r s => op (· - ·) r s
  | divi r s => do
    let v ← reg s
    if v = 0 then stop tPC VMX20_DIVIDE_BY_ZERO
    else if (← reg r) = BitVec.intMin 32 ∧ v = -1 then fault
    else op BitVec.sdiv r s
  | muli r s => op (· * ·) r s
  | call a => do
    let sp ← reg SP
    if sp > (← stack) ∨ sp - 3 < (← progEnd) then stop tPC VMX20_ADDRESS_OUT_OF_RANGE
    else
      putWord (sp - 1) tPC
      putWord (sp - 2) (← reg FP)
      putWord (sp - 3) 0
      setReg FP (sp - 2)
      setReg SP (sp - 3)
      return ⟨a, none⟩
  | ret word => do
    let sp ← reg SP
    if sp + 3 > (← stack) ∨ sp < (← progEnd) then stop tPC VMX20_ADDRESS_OUT_OF_RANGE
    else
      let result ← getWord sp word
      let fp ← getWord (sp + 1) (← reg FP)
      let tPC ← getWord (sp + 2) tPC
      setReg FP fp
      setReg SP (sp + 3)
      putWord (fp - 1) result
      return ⟨tPC, none⟩
  | blt r s a => do return ⟨if (← reg r).slt (← reg s) then a else tPC, none⟩
  | bgt r s a => do return ⟨if (← reg s).slt (← reg r) then a else tPC, none⟩
  | beq r s a => do return ⟨if (← reg r) = (← reg s) then a else tPC, none⟩
  | jmp a => return ⟨a, none⟩
  | cmpxchg r s a => do
    if (← reg r) = (← getWord a 0) then putWord a (← reg s)
    else setReg r (← getWord a (← reg r))
    return ⟨tPC, none⟩
  | getpid r => do
    setReg r (← pid)
    return ⟨tPC, none⟩
  | getpn r => do
    setReg r (← numProcessors)
    return ⟨tPC, none⟩
  | push r => do
    let sp ← reg SP
    if sp > (← stack) ∨ sp < (← progEnd) then stop tPC VMX20_ADDRESS_OUT_OF_RANGE
    else
      setReg SP (sp - 1)
      putWord (sp - 1) (← reg r)
      return ⟨tPC, none⟩
  | pop r => do
    let sp ← reg SP
    if sp > (← stack) ∨ sp < (← progEnd) then stop tPC VMX20_ADDRESS_OUT_OF_RANGE
    else
      setReg r (← getWord sp (← reg r))
      setReg SP ((← reg SP) + 1)
      stop tPC VMX20_ILLEGAL_INSTRUCTION
  | nop | invalid => stop tPC VMX20_ILLEGAL_INSTRUCTION
where
  op (f : Word → Word → Word) (r s : Reg) : M Next := do
    setReg r (f (← reg r) (← reg s))
    return ⟨tPC, none⟩

/-- The instruction at the address `pc`, fetched and executed. -/
def Instr.step (fpu : Fpu) (pc : Word) (i : Instr) : M Bool := do
  access (.fetch pc)
  let next ← i.exec fpu (pc + 1)
  if let some termCode := next.termCode then setStatus termCode
  setReg PC next.tPC
  return next.termCode.isNone

end Cs720.Vm
