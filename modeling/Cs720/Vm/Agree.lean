import Cs720.Vm.Decode
import Cs720.Vm.Exec

/-! # The three decoders agree -/

namespace Cs720.Vm

open Cs720.Lib

/-! ## Fields -/

section
variable (word : Word)

theorem reg1_eq : reg1 word = word.extractLsb' 8 4 := by
  ext i hi
  interval_cases i <;> simp [reg1, BitVec.getElem_sshiftRight]

theorem reg2_eq : reg2 word = word.extractLsb' 12 4 := by
  ext i hi
  interval_cases i <;> simp [reg2, BitVec.getElem_sshiftRight]

theorem mask8_shift :
    word.sshiftRight 8 &&& (0xf : Word) = (word.extractLsb' 8 4).setWidth 32 := by
  ext i hi
  interval_cases i <;> simp [BitVec.getElem_sshiftRight]

theorem mask12_shift :
    word.sshiftRight 12 &&& (0xf : Word) = (word.extractLsb' 12 4).setWidth 32 := by
  ext i hi
  interval_cases i <;> simp [BitVec.getElem_sshiftRight]

theorem mask8_ushift : (word >>> 8) &&& (0xf : Word) = (word.extractLsb' 8 4).setWidth 32 := by
  ext i hi
  interval_cases i <;> simp

theorem mask12_ushift : (word >>> 12) &&& (0xf : Word) = (word.extractLsb' 12 4).setWidth 32 := by
  ext i hi
  interval_cases i <;> simp

theorem mask_op : (word &&& (0xff : Word)).setWidth 8 = word.setWidth 8 := by
  ext i hi
  interval_cases i <;> simp

theorem msb_of_shift (h : word.sshiftRight 31 ≠ 0) : word.msb = true := by
  by_contra hmsb
  apply h
  ext i hi
  interval_cases i <;>
    simpa [BitVec.getElem_sshiftRight, BitVec.msb_eq_getLsbD_last] using hmsb

theorem shift12_eq : word.sshiftRight 12 = disp20 word := by
  unfold disp20
  ext i hi
  interval_cases i <;>
    simp [BitVec.getElem_sshiftRight, BitVec.getElem_signExtend, BitVec.msb_eq_getLsbD_last]

theorem shift16_eq : word.sshiftRight 16 = disp16 word := by
  unfold disp16
  ext i hi
  interval_cases i <;>
    simp [BitVec.getElem_sshiftRight, BitVec.getElem_signExtend, BitVec.msb_eq_getLsbD_last]

theorem EXTENDSIGN20_shift : EXTENDSIGN20 (word.sshiftRight 12) = disp20 word := by
  unfold EXTENDSIGN20
  rw [← shift12_eq]
  split
  · rename_i h
    have hmsb := msb_of_shift word (by rwa [← BitVec.sshiftRight_add] at h)
    ext i hi
    interval_cases i <;> simp [BitVec.getElem_sshiftRight, hmsb]
  · rfl

theorem EXTENDSIGN16_shift : EXTENDSIGN16 (word.sshiftRight 16) = disp16 word := by
  unfold EXTENDSIGN16
  rw [← shift16_eq]
  split
  · rename_i h
    have hmsb := msb_of_shift word (by rwa [← BitVec.sshiftRight_add] at h)
    ext i hi
    interval_cases i <;> simp [BitVec.getElem_sshiftRight, hmsb]
  · rfl

theorem ushift31_iff : word >>> 31 ≠ 0 ↔ word[31] = true := by
  constructor
  · intro h
    by_contra h31
    apply h
    rw [Bool.not_eq_true] at h31
    ext i hi
    interval_cases i <;> simp [h31]
  · intro h31 h
    have h0 : (word >>> 31)[0] = true := by simpa using h31
    rw [h] at h0
    simp at h0

/-- A field of 20 bits, extended by hand. -/
theorem extend_field {c : Prop} [Decidable c] (hc : c ↔ word >>> 31 ≠ 0) :
    (if c then word >>> 12 ||| 0xfff00000 else word >>> 12) = disp20 word := by
  rw [ushift31_iff] at hc
  unfold disp20
  split
  all_goals
    rename_i h
    rw [hc] at h
    ext i hi
    interval_cases i <;> simp [BitVec.getElem_signExtend, BitVec.msb_eq_getLsbD_last, h]

theorem EXTENDSIGN20_mask : EXTENDSIGN20 (word.sshiftRight 12 &&& 0xfffff) = disp20 word := by
  have hmask : word.sshiftRight 12 &&& (0xfffff : Word) = word >>> 12 := by
    ext i hi
    interval_cases i <;> simp [BitVec.getElem_sshiftRight]
  rw [hmask]
  apply extend_field
  have h : (word >>> 12).sshiftRight 19 = word >>> 31 := by
    ext i hi
    interval_cases i <;> simp [BitVec.getElem_sshiftRight]
  rw [h]

theorem EXTENDBIT20_ushift : EXTENDBIT20 (word >>> 12) = disp20 word := by
  apply extend_field
  have h : (word >>> 12) >>> 19 &&& (1 : Word) = word >>> 31 := by
    ext i hi
    interval_cases i <;> simp
  rw [h]

theorem EXTENDBIT20_mask : EXTENDBIT20 ((word >>> 12) &&& 0xfffff) = disp20 word := by
  have hmask : (word >>> 12) &&& (0xfffff : Word) = word >>> 12 := by
    ext i hi
    interval_cases i <;> simp
  rw [hmask, EXTENDBIT20_ushift]

theorem int16_shift : ((word.sshiftRight 16).setWidth 16).signExtend 32 = disp16 word := by
  unfold disp16
  congr 1
  ext i hi
  interval_cases i <;> simp [BitVec.getElem_sshiftRight]

theorem int16_ushift : ((word >>> 16).setWidth 16).signExtend 32 = disp16 word := rfl

end

/-! ## Range checks -/

/-- A check in 64 bits, as a check of integers. -/
theorem range64 {x : BitVec 64} {z : Int} (h : x.toInt = z) :
    x.toNat ≥ MEM_SIZE ↔ ¬ (0 ≤ z ∧ z < MEM_SIZE) := by
  rw [BitVec.toInt_eq_toNat_cond] at h
  have hx := x.isLt
  unfold MEM_SIZE
  split at h <;> omega

theorem add64_toInt {x y : BitVec 64} {a b : Int} (hx : x.toInt = a) (hy : y.toInt = b)
    (ha : -2 ^ 32 ≤ a ∧ a < 2 ^ 32) (hb : -2 ^ 32 ≤ b ∧ b < 2 ^ 32) :
    (x + y).toInt = a + b := by
  rw [BitVec.toInt_add, hx, hy, Int.bmod_eq_of_le (by omega) (by omega)]

theorem toInt_bounds (v : Word) : -2 ^ 32 ≤ v.toInt ∧ v.toInt < 2 ^ 32 := by
  have h := v.toInt_lt
  have h' := v.le_toInt
  omega

theorem ldind_check (v d : Word) :
    (v.signExtend 64 + d.signExtend 64).toNat ≥ MEM_SIZE ↔
      ¬ (0 ≤ v.toInt + d.toInt ∧ v.toInt + d.toInt < MEM_SIZE) := by
  apply range64
  exact add64_toInt (BitVec.toInt_signExtend_of_le (by omega))
    (BitVec.toInt_signExtend_of_le (by omega)) (toInt_bounds v) (toInt_bounds d)

theorem stind_check (s : Reg) (d : Word) :
    (s.setWidth 64 + d.signExtend 64).toNat ≥ MEM_SIZE ↔
      ¬ (0 ≤ s.toNat + d.toInt ∧ s.toNat + d.toInt < MEM_SIZE) := by
  apply range64
  have hs := s.isLt
  have h : (s.setWidth 64).toInt = s.toNat := by
    rw [BitVec.toInt_eq_toNat_cond, BitVec.toNat_setWidth_of_le (by omega), if_pos (by omega)]
  exact add64_toInt h (BitVec.toInt_signExtend_of_le (by omega)) (by omega) (toInt_bounds d)

/-! ## `executeInstruction` -/

theorem FP_ne_SP : FP ≠ SP := by decide

theorem SP_ne_FP : SP ≠ FP := by decide

section
variable (fpu : Fpu) (word tPC pc : Word)

theorem call_eq : call word tPC = Instr.exec fpu tPC (.call (tPC + disp20 word)) := by
  funext m
  simp only [call, EXTENDSIGN20_shift, Instr.exec]
  simp [Function.update_of_ne, FP_ne_SP, SP_ne_FP, BitVec.sub_sub]
  split
  · rfl
  · simp [Machine.setReg_between _ _ _ _ _ _ SP_ne_FP]

theorem ret_eq : ret word tPC = Instr.exec fpu tPC (.ret word) := by
  funext m
  simp only [ret, Instr.exec]
  simp [Function.update_of_ne, FP_ne_SP, SP_ne_FP, BitVec.add_assoc]
  split
  · rfl
  · simp [Machine.setReg_between _ _ _ _ _ _ SP_ne_FP]

/-- The `switch` executes what the word decodes to. -/
theorem instruction_eq : instruction fpu word (pc + 1) = (decode word pc).exec fpu (pc + 1) := by
  have h1 := reg1_eq word
  have h2 := reg2_eq word
  have h20 := EXTENDSIGN20_shift word
  have h16 := EXTENDSIGN16_shift word
  unfold instruction decode
  cases ins (word.setWidth 8) with
  | halt | nop | invalid => rfl
  | load => simp only [load, h1, h20, Instr.exec]
  | store => simp only [store, h1, h20, Instr.exec]
  | ldimm => simp only [ldimm, h1, h20, Instr.exec]
  | ldaddr => simp only [ldaddr, h1, h20, Instr.exec]
  | ldind =>
    simp only [ldind, h1, h2, h16, Instr.exec, ldind_check, ite_not]
    rfl
  | stind =>
    simp only [stind, h1, h2, h16, Instr.exec, stind_check, ite_not]
    rfl
  | addf | subf | mulf | addi | subi | muli =>
    simp only [arith, h1, h2, Instr.exec, Instr.exec.op]
  | divf =>
    funext m
    simp only [divf, h1, h2, Instr.exec, Instr.exec.op]
    simp
    rfl
  | divi =>
    funext m
    simp only [divi, h1, h2, Instr.exec, Instr.exec.op]
    simp
    rfl
  | call => exact call_eq fpu word (pc + 1)
  | ret => exact ret_eq fpu word (pc + 1)
  | blt | bgt | beq =>
    funext m
    simp only [branch, h1, h2, h16, Instr.exec]
    simp
    split <;> rfl
  | jmp => simp only [jmp, h20, Instr.exec]
  | cmpxchg =>
    funext m
    simp only [cmpxchg, h1, h2, h16, Instr.exec]
    simp
  | getpid | getpn => simp only [getpid, getpn, h1, Instr.exec]
  | push =>
    funext m
    simp only [push, h1, Instr.exec]
    simp
    rfl
  | pop =>
    funext m
    simp only [pop, h1, Instr.exec]
    simp
    rfl

variable {word pc} {m : Machine}

theorem executeInstruction_eq (hpc : m.core.reg PC = pc) (hw : m.vm.getWord pc = some word) :
    executeInstruction fpu pc m = (decode word pc).step fpu pc m := by
  have hlt : pc.toNat < MEM_SIZE := by
    by_contra h
    simp [VM.getWord, Nat.not_lt.mp h] at hw
  have hmem : m.vm.memory pc = word := by
    simpa [VM.getWord, Nat.not_le.mpr hlt] using hw
  unfold executeInstruction Instr.step
  rw [run_bind, run_fetch hlt, run_bind, run_access, ok_bind, ok_bind, hmem]
  have htPC : (m.note (.fetch pc)).core.reg PC = pc := hpc
  dsimp only
  rw [run_bind, run_reg, ok_bind, htPC]
  dsimp only
  exact instruction_eq fpu word pc ▸ rfl

end

/-! ## Listings -/

section
variable {vm : VM} {word pc : Word} {outs : List Word} {data : Option (Nat → BitVec 8)} {n : Nat}

variable (word pc) in
theorem op_name_eq : op_name (word.setWidth 8) = (decode word pc).name := by
  unfold op_name decode
  cases ins (word.setWidth 8) <;> rfl

theorem comma_r : ", r" = ", " ++ "r" := by decide

theorem paren_r : "(r" = "(" ++ "r" := by decide

theorem target_eq (d : Word) : d + pc + 1 = pc + 1 + d := by
  rw [BitVec.add_comm d, BitVec.add_assoc, BitVec.add_comm d, ← BitVec.add_assoc]

theorem disassemble_eq (hend : pc < vm.progEnd) (hw : vm.getWord pc = some word) :
    disassemble vm pc = (decode word pc).disassembled := by
  unfold disassemble Instr.disassembled
  rw [if_neg (by simpa using hend), hw, ← op_name_eq word pc]
  simp only [mask_op, mask8_shift, mask12_shift, EXTENDSIGN20_shift, EXTENDSIGN20_mask, int16_shift,
    target_eq]
  unfold op_format decode
  cases ins (word.setWidth 8) <;>
    simp [-String.reduceAppend, Instr.operands, regName, String.append_assoc, comma_r, paren_r]

theorem printLine_eq (hpc : BitVec.ofNat 32 n = pc) (hout : is_outsymbol outs pc = false)
    (hdata : data.any (fun d => d n == D_DATA) = false) :
    printLine outs data n word = zeros7 n ++ "   " ++ word.toHex ++ "   " ++
      left8 (decode word pc).name ++ "    " ++ (decode word pc).operands := by
  unfold printLine printAddr
  simp only [hpc, hout, hdata, ← op_name_eq word pc, Bool.false_eq_true, if_false, mask_op,
    mask8_ushift, mask12_ushift, EXTENDBIT20_ushift, EXTENDBIT20_mask, int16_ushift, target_eq]
  unfold op_format decode
  cases ins (word.setWidth 8) <;>
    simp [-String.reduceAppend, Instr.operands, regName, String.append_assoc, comma_r, paren_r]

end

/-- The fields of a word are read in the same way to list it and to execute it. -/
theorem decoders_agree (fpu : Fpu) (vm : VM) (word address : Word) (hend : address < vm.progEnd)
    (hw : vm.getWord address = some word) :
    disassemble vm address = (decode word address).disassembled ∧
    (∀ outs data code, code[address.toNat]? = some word → is_outsymbol outs address = false →
      data.any (fun d => d address.toNat == D_DATA) = false →
      (print_code outs data code)[address.toNat]? =
        some (zeros7 address.toNat ++ "   " ++ word.toHex ++ "   " ++
          left8 (decode word address).name ++ "    " ++ (decode word address).operands)) ∧
    ∀ m : Machine, m.vm.getWord address = some word → m.core.reg PC = address →
      executeInstruction fpu address m = (decode word address).step fpu address m := by
  refine ⟨disassemble_eq hend hw, ?_, fun m hm hpc => executeInstruction_eq fpu hpc hm⟩
  intro outs data code hcode hout hdata
  unfold print_code
  rw [List.getElem?_mapIdx, hcode, Option.map_some, printLine_eq (by simp) hout hdata]

/-- A backward branch, at the address 17. -/
def branchBack : VM where
  reg := fun _ => 0
  memory := fun _ => 0xfff45412
  entryPoint := 0
  progEnd := 18
  numProcessors := 1
  symbols := .null

theorem decoders_agree_bgt :
    decode 0xfff45412 17 = .bgt 4 5 6 ∧
    disassemble branchBack 17 = ⟨1, some "bgt      r4, r5, 6", 0⟩ := by
  have h := decoders_agree ⟨fun _ _ => 0, fun _ _ => 0, fun _ _ => 0, fun _ _ => 0⟩ branchBack
    0xfff45412 17 (by decide) (by decide)
  refine ⟨by decide, ?_⟩
  rw [h.1]
  decide
end Cs720.Vm
