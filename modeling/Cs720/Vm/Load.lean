import Cs720.Lib.Bytes
import Cs720.Vm.Code

/-! # Loading an executable (`initVm`, `loadExecutableFile`, `getAddress`)

`malloc` does not fail for a size that is not negative, and the handle is not NULL. `block` is what
the allocated VM holds before it is written, and `junk` what the buffer for the symbols holds, and
what is behind it. A word that is written past the end of a block is a fault.
-/

namespace Cs720.Vm

open Cs720.Lib

def initVm (block : VM) : VM := { block with reg := fun _ => 0 }

/-- The return value, what `errorNumber` is set to, if it is, and the VM. -/
structure Loaded where
  success : Int
  errorNumber : Option Int
  vm : VM

/-- "mainx20" -/
def mainx20 : List Byte := [0x6d, 0x61, 0x69, 0x6e, 0x78, 0x32, 0x30]

/-- `strcpy` of the name at `ptr` to a block of 16 bytes. -/
def copyName (ptr : Nat → Word) : C (List Byte) :=
  let name := cstring (bytes16 ptr)
  if name.length < 16 then .ok name else .error .fault

/-- The loop over the insymbols, which are at the positions `ts` of the buffer. -/
def parseInsymbols (symbuffer : Nat → Word) (vm : VM) (mainFound : Bool) : List Nat → C Loaded
  | [] => .ok (if mainFound then ⟨1, none, vm⟩ else ⟨0, some VMX20_FILE_IS_NOT_VALID, vm⟩)
  | t :: ts => do
    let name ← copyName fun k => symbuffer (t + k)
    let address := symbuffer (t + 4)
    let vm := { vm with symbols := .node name address vm.symbols }
    if name = mainx20 then
      if mainFound then return ⟨0, some VMX20_FILE_IS_NOT_VALID, vm⟩
      else parseInsymbols symbuffer { vm with entryPoint := address } true ts
    else parseInsymbols symbuffer vm mainFound ts

/-- The words that a load puts in the memory, and what it returns. -/
structure Loading where
  stores : List (Nat × Word)
  result : C Loaded

/-- `file` is the file with the given name, if there is one. -/
def loading (junk : Nat → Word) (vm : VM) (file : Option File) : Loading :=
  match file with
  | none => ⟨[], .ok ⟨0, some VMX20_FILE_NOT_FOUND, vm⟩⟩
  | some fp =>
    let lengths := fp.fread 0 3 fun _ => 0
    if lengths 1 ≠ 0 then ⟨[], .ok ⟨0, some VMX20_FILE_CONTAINS_OUTSYMBOLS, vm⟩⟩
    -- `malloc` gives NULL for a negative length, and `fread` writes there if there is a byte to read.
    else if (lengths 0).toInt < 0 ∧
        (3 < fp.words.length ∨ fp.words.length = 3 ∧ fp.rest ≠ []) then ⟨[], .error .fault⟩
    else
      let symbuffer := fp.fread 3 (lengths 0).toInt.toNat junk
      -- `fseek` to a negative position does nothing.
      let pos := if 3 + (lengths 0).toInt < 0 then 3 else (3 + (lengths 0).toInt).toNat
      let count := ((lengths 2).signExtend 64).toNat
      let wordsRead := fp.available pos count
      let dst (k : Nat) := vm.memory (BitVec.ofNat 32 k)
      let stores := fp.stores pos count dst
      let vm := { vm with
        memory := fun a => putAll stores dst a.toNat
        progEnd := BitVec.ofNat 32 wordsRead }
      ⟨stores,
        if MEM_SIZE < wordsRead then .error .fault
        else if wordsRead ≠ count then .ok ⟨0, some VMX20_FILE_IS_NOT_VALID, vm⟩
        else parseInsymbols symbuffer vm false (offsets (lengths 0).toInt)⟩

def loadExecutableFile (junk : Nat → Word) (vm : VM) (file : Option File) : C Loaded :=
  (loading junk vm file).result

/-- The address of `label`, if the function returns 1. -/
def Symbols.find (label : List Byte) : Symbols → C (Option Word)
  | .null => .ok none
  | .wild => .error .fault
  | .node name address next => if name = label then .ok (some address) else next.find label

def getAddress (vm : VM) (label : List Byte) : C (Option Word) := vm.symbols.find label

/-! ## Files with whole sections -/

/-- The memory with the code at its start. -/
def withCode (memory : Word → Word) (code : List Word) (a : Word) : Word :=
  if a.toNat < code.length then code.getD a.toNat 0 else memory a

/-- The buffer that holds the insymbol section. -/
def symbuffer (syms : List Word) (junk : Nat → Word) (k : Nat) : Word :=
  if k < syms.length then syms.getD k 0 else junk k

section
variable {junk : Nat → Word} {vm : VM} {fp : File} {n₀ n₂ : Word} {syms code tail : List Word}

theorem load_sections (hw : fp.words = [n₀, 0, n₂] ++ syms ++ code ++ tail)
    (hs : n₀.toInt = syms.length) (hc : n₂.toInt = code.length) (hm : code.length ≤ MEM_SIZE) :
    loadExecutableFile junk vm (some fp) = parseInsymbols (symbuffer syms junk)
      { vm with memory := withCode vm.memory code, progEnd := BitVec.ofNat 32 code.length } false
      (offsets syms.length) := by
  have hhead (k : Nat) : fp.fread 0 3 (fun _ => 0) k = if k < 3 then [n₀, 0, n₂].getD k 0 else 0 :=
    File.fread_section (a := []) (l := [n₀, 0, n₂]) (c := syms ++ code ++ tail) (by simp [hw])
  have hsyms (k : Nat) : fp.fread 3 syms.length junk k =
      if k < syms.length then syms.getD k 0 else junk k :=
    File.fread_section (a := [n₀, 0, n₂]) (l := syms) (c := code ++ tail) (by simp [hw])
  have hlen : ([n₀, 0, n₂] ++ syms).length = 3 + syms.length := by simp; omega
  have hav : fp.available (3 + syms.length) code.length = code.length := by
    rw [← hlen]
    exact File.available_section hw
  have hmem (dst : Nat → Word) (k : Nat) : fp.fread (3 + syms.length) code.length dst k =
      if k < code.length then code.getD k 0 else dst k := by
    rw [← hlen]
    exact File.fread_section hw
  have hcount : (n₂.signExtend 64).toNat = code.length := by
    have h := BitVec.toInt_signExtend_of_le (x := n₂) (v := 64) (by omega)
    rw [hc, BitVec.toInt_eq_toNat_cond] at h
    unfold MEM_SIZE at hm
    split at h <;> omega
  unfold loadExecutableFile loading
  simp only [apply_ite Loading.result, File.putAll_stores]
  rw [hhead 0, hhead 1, hhead 2]
  simp only [List.getD_cons_zero, List.getD_cons_succ, Nat.reduceLT, if_true, hs, hcount]
  rw [if_neg (by simp), if_neg (by omega), if_neg (by omega : ¬ (3 + (syms.length : Int) < 0))]
  have hpos : (3 + (syms.length : Int)).toNat = 3 + syms.length := by omega
  rw [hpos, Int.toNat_natCast, hav, if_neg (by omega), if_neg (by simp)]
  simp only [hmem, BitVec.ofNat_toNat, BitVec.setWidth_eq, funext hsyms]
  rfl

end

section
variable {buffer : Nat → Word} {vm : VM} {mainFound : Bool} {name : List Byte} {t : Nat}
  {ts : List Nat}

theorem copyName_words {ptr : Nat → Word} {name : List Byte} (w : List Word)
    (hw : [ptr 0, ptr 1, ptr 2, ptr 3] = w) (h : copyName (fun k => w.getD k 0) = .ok name) :
    copyName ptr = .ok name := by
  subst hw
  exact h

theorem parse_main (hname : copyName (fun k => buffer (t + k)) = .ok mainx20) :
    parseInsymbols buffer vm false (t :: ts) = parseInsymbols buffer
      { vm with symbols := .node mainx20 (buffer (t + 4)) vm.symbols
                entryPoint := buffer (t + 4) } true ts := by
  rw [parseInsymbols, hname]
  rfl

theorem parse_name (hname : copyName (fun k => buffer (t + k)) = .ok name)
    (hne : name ≠ mainx20) :
    parseInsymbols buffer vm mainFound (t :: ts) = parseInsymbols buffer
      { vm with symbols := .node name (buffer (t + 4)) vm.symbols } mainFound ts := by
  rw [parseInsymbols, hname]
  exact if_neg hne

end

/-! ## A small executable -/

/-- What a fresh block holds. -/
def blank : VM where
  reg := fun _ => 0
  memory := fun _ => 0
  entryPoint := 0
  progEnd := 0
  numProcessors := 0
  symbols := .null

/-- The insymbol section with one insymbol, `mainx20`, at `entry`. -/
def mainSection (entry : Word) : List Word := [0x6e69616d, 0x00303278, 0, 0, entry]

/-- An executable whose one insymbol is `mainx20`. -/
def executable (entry : Word) (code : List Word) : File where
  words := [5, 0, BitVec.ofNat 32 code.length] ++ mainSection entry ++ code
  rest := []
  short := File.short_nil

/-- The VM with this executable. -/
def VM.withExecutable (vm : VM) (entry : Word) (code : List Word) : VM :=
  { vm with
    memory := withCode vm.memory code
    entryPoint := entry
    progEnd := BitVec.ofNat 32 code.length
    symbols := .node mainx20 entry vm.symbols }

theorem load_executable {junk : Nat → Word} {vm : VM} {entry : Word} {code : List Word}
    (h : code.length ≤ MEM_SIZE) :
    loadExecutableFile junk vm (some (executable entry code)) =
      .ok ⟨1, none, vm.withExecutable entry code⟩ := by
  have hw : (executable entry code).words =
      [5, 0, BitVec.ofNat 32 code.length] ++ mainSection entry ++ code ++ [] := by simp [executable]
  have hname : copyName (fun k => symbuffer (mainSection entry) junk (0 + k)) = .ok mainx20 := by
    unfold copyName bytes16 symbuffer
    simp [mainSection]
    decide
  have hlen : (mainSection entry).length = 5 := rfl
  have hoff : offsets (mainSection entry).length = [0] := by
    rw [hlen]
    decide
  have hcode : (BitVec.ofNat 32 code.length).toInt = code.length := by
    unfold MEM_SIZE at h
    exact ofNat_toInt (by omega)
  rw [load_sections hw (by rw [hlen]; rfl) hcode h, hoff]
  exact (parse_main hname).trans rfl

end Cs720.Vm
