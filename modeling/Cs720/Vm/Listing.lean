import Cs720.Vm.Code

/-! # The two disassemblers (`disassemble` in `A2/P2/vmx20.c`, `print_code` in `A1/P2/dsx20.c`)

`op_name` and `op_format` are the same in both files. What is printed is a string.
-/

namespace Cs720.Vm

def op_name (op : BitVec 8) : String :=
  match ins op with
  | .halt => "halt"
  | .load => "load"
  | .store => "store"
  | .ldimm => "ldimm"
  | .ldaddr => "ldaddr"
  | .ldind => "ldind"
  | .stind => "stind"
  | .addf => "addf"
  | .subf => "subf"
  | .divf => "divf"
  | .mulf => "mulf"
  | .addi => "addi"
  | .subi => "subi"
  | .divi => "divi"
  | .muli => "muli"
  | .call => "call"
  | .ret => "ret"
  | .blt => "blt"
  | .bgt => "bgt"
  | .beq => "beq"
  | .jmp => "jmp"
  | .cmpxchg => "cmpxchg"
  | .getpid => "getpid"
  | .getpn => "getpn"
  | .push => "push"
  | .pop => "pop"
  | .nop => "NOP"
  | .invalid => "unknown"

/-- The constants `F_*`. -/
inductive Format where
  | op | addr | reg | regConst | regAddr | regReg | regOff | regRegAddr | invalid
  deriving DecidableEq, Repr

def op_format (op : BitVec 8) : Format :=
  match ins op with
  | .halt => .op
  | .load | .store => .regAddr
  | .ldimm => .regConst
  | .ldaddr => .regAddr
  | .ldind | .stind => .regOff
  | .addf | .subf | .divf | .mulf | .addi | .subi | .divi | .muli => .regReg
  | .call => .addr
  | .ret => .op
  | .blt | .bgt | .beq => .regRegAddr
  | .jmp => .addr
  | .cmpxchg => .regRegAddr
  | .getpid | .getpn | .push | .pop => .reg
  | .nop => .op
  | .invalid => .invalid

/-! ## `printf` -/

/-- `%d` -/
def dec (w : Word) : String := toString w.toInt

/-- `%-8s` -/
def left8 (s : String) : String := s.pushn ' ' (8 - s.length)

/-- `%.7d`, of a number that is not negative -/
def zeros7 (n : Nat) : String := ("".pushn '0' (7 - (toString n).length)) ++ toString n

/-! ## `disassemble` -/

/-- The return value, what the buffer holds if it is written, and the error number. -/
structure Disassembled where
  success : Int
  buffer : Option String
  errorNumber : Int
  deriving DecidableEq

def disassemble (vm : VM) (address : Word) : Disassembled :=
  if address ≥ vm.progEnd then ⟨0, none, VMX20_ADDRESS_OUT_OF_RANGE⟩
  else match vm.getWord address with
  | none => ⟨0, none, VMX20_ADDRESS_OUT_OF_RANGE⟩
  | some word =>
    let op : BitVec 8 := (word &&& 0xff).setWidth 8
    let buffer := left8 (op_name op) ++ " "
    match op_format op with
    | .op => ⟨1, some buffer, 0⟩
    | .invalid => ⟨0, some buffer, VMX20_ILLEGAL_INSTRUCTION⟩
    | .addr =>
      let addr := EXTENDSIGN20 (word.sshiftRight 12)
      ⟨1, some (buffer ++ dec (addr + address + 1)), 0⟩
    | .reg => ⟨1, some (buffer ++ ("r" ++ dec (word.sshiftRight 8 &&& 0xf))), 0⟩
    | .regConst =>
      ⟨1, some (buffer ++ ("r" ++ dec (word.sshiftRight 8 &&& 0xf) ++ ", " ++
        dec (EXTENDSIGN20 (word.sshiftRight 12 &&& 0xfffff)))), 0⟩
    | .regAddr =>
      let addr := EXTENDSIGN20 (word.sshiftRight 12)
      ⟨1, some (buffer ++ ("r" ++ dec (word.sshiftRight 8 &&& 0xf) ++ ", ") ++
        dec (addr + address + 1)), 0⟩
    | .regReg =>
      ⟨1, some (buffer ++ ("r" ++ dec (word.sshiftRight 8 &&& 0xf) ++ ", r" ++
        dec (word.sshiftRight 12 &&& 0xf))), 0⟩
    | .regOff =>
      ⟨1, some (buffer ++ ("r" ++ dec (word.sshiftRight 8 &&& 0xf) ++ ", " ++
        dec (((word.sshiftRight 16).setWidth 16).signExtend 32) ++ "(r" ++
        dec (word.sshiftRight 12 &&& 0xf) ++ ")")), 0⟩
    | .regRegAddr =>
      let addr := ((word.sshiftRight 16).setWidth 16).signExtend 32
      ⟨1, some (buffer ++ ("r" ++ dec (word.sshiftRight 8 &&& 0xf) ++ ", r" ++
        dec (word.sshiftRight 12 &&& 0xf) ++ ", ") ++ dec (addr + address + 1)), 0⟩

/-! ## `dsx20` -/

def EXTENDBIT20 (addr : Word) : Word :=
  if (addr >>> 19) &&& 1 ≠ 0 then addr ||| 0xfff00000 else addr

def D_DATA : BitVec 8 := 0

def is_outsymbol (outsymbol_addresses : List Word) (addr : Word) : Bool :=
  outsymbol_addresses.any (· == addr)

/-- The absolute address on a line. -/
def printAddr (outsymbol_addresses : List Word) (addr pc : Word) : String :=
  if !is_outsymbol outsymbol_addresses pc then dec (addr + pc + 1) else "[undefined]"

/-- One iteration of the loop in `print_code`, without the newline. -/
def printLine (outsymbol_addresses : List Word) (data_arr : Option (Nat → BitVec 8)) (n : Nat)
    (cur : Word) : String :=
  let pc := BitVec.ofNat 32 n
  let op : BitVec 8 := if data_arr.any (fun data => data n == D_DATA) then 0x20
    else (cur &&& 0xff).setWidth 8
  zeros7 n ++ "   " ++ cur.toHex ++ "   " ++ left8 (op_name op) ++ "    " ++
  match op_format op with
  | .op | .invalid => ""
  | .addr =>
    let addr := EXTENDBIT20 (cur >>> 12)
    printAddr outsymbol_addresses addr pc
  | .reg => "r" ++ dec ((cur >>> 8) &&& 0xf)
  | .regConst =>
    "r" ++ dec ((cur >>> 8) &&& 0xf) ++ ", " ++ dec (EXTENDBIT20 ((cur >>> 12) &&& 0xfffff))
  | .regAddr =>
    let addr := EXTENDBIT20 (cur >>> 12)
    "r" ++ dec ((cur >>> 8) &&& 0xf) ++ ", " ++ printAddr outsymbol_addresses addr pc
  | .regReg => "r" ++ dec ((cur >>> 8) &&& 0xf) ++ ", r" ++ dec ((cur >>> 12) &&& 0xf)
  | .regOff =>
    "r" ++ dec ((cur >>> 8) &&& 0xf) ++ ", " ++ dec (((cur >>> 16).setWidth 16).signExtend 32) ++
      "(r" ++ dec ((cur >>> 12) &&& 0xf) ++ ")"
  | .regRegAddr =>
    let addr := ((cur >>> 16).setWidth 16).signExtend 32
    "r" ++ dec ((cur >>> 8) &&& 0xf) ++ ", r" ++ dec ((cur >>> 12) &&& 0xf) ++ ", " ++
      printAddr outsymbol_addresses addr pc

/-- The lines that are printed for the object code. -/
def print_code (outsymbol_addresses : List Word) (data_arr : Option (Nat → BitVec 8))
    (code : List Word) : List String :=
  code.mapIdx (printLine outsymbol_addresses data_arr)

end Cs720.Vm
