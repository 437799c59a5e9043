import Cs720.Lib.Bytes

/-! # The linker (`A2/P1/linkx20.c`)

An object file has three lengths, and then its insymbols, its outsymbols and its code. The `long`s
do not overflow, nor do the positions in the sections. The sections of the output are lists, which
grow as they are written. `junk` is what the buffer holds before. A use of the symbol sections past
their end is a fault, also where the next section is behind them. What is printed and the file names
are left out.
-/

namespace Cs720.Link

open Cs720.Lib

abbrev Word := BitVec 32

def FLAG_OUTSYM : Byte := 0b00000001
def FLAG_DEFINED : Byte := 0b00000010

/-- `sym_t` -/
structure Sym where
  address : Word
  name : Name
  flags : Byte

/-- `fheader_t` -/
structure FHeader where
  data : List Word
  insyms : List Sym
  outsyms : List Sym

def mainx20 : Name := ⟨[0x6d, 0x61, 0x69, 0x6e, 0x78, 0x32, 0x30], by decide, by decide⟩

/-- `data[k]` -/
def word (data : List Word) (k : Nat) : C Word :=
  match data[k]? with
  | some w => .ok w
  | none => .error .fault

/-- The name and the address at the position `t`. -/
def symbolAt (data : List Word) (t : Nat) : C (Name × Word) :=
  if t + 5 ≤ data.length then
    .ok (Name.ofWords fun k => data.getD (t + k) 0, data.getD (t + 4) 0)
  else .error .fault

/-! ## `extract_symbols` -/

structure Extracted where
  found : Bool
  insyms : List Sym
  outsyms : List Sym

/-- The loop over the positions `is`. -/
def extractFrom (data : List Word) (in_count : Int) : List Nat → Extracted → C Extracted
  | [], st => .ok st
  | i :: is, st => do
    let (name, address) ← symbolAt data (3 + i)
    if i < in_count then
      extractFrom data in_count is
        { st with found := st.found || name = mainx20
                  insyms := ⟨address, name, FLAG_DEFINED⟩ :: st.insyms }
    else
      extractFrom data in_count is { st with outsyms := ⟨address, name, FLAG_OUTSYM⟩ :: st.outsyms }

def extract_symbols (data : List Word) : C Extracted := do
  let in_count ← word data 0
  let out_count ← word data 1
  extractFrom data in_count.toInt (offsets (in_count + out_count).toInt) ⟨false, [], []⟩

/-! ## `generate_output_file` -/

/-- The sum of `data[k]` over the files. -/
def total (k : Nat) : List FHeader → C Nat
  | [] => .ok 0
  | cur :: fh => do
    let w ← word cur.data k
    return w.toNat + (← total k fh)

/-- The words of a symbol in the output. -/
def symbolWords (name : Name) (address : Word) : List Word := name.words ++ [address]

/-- The insymbols of a file. `insym_section` has the words up to `target`. -/
def insertInsyms (insym_words pc_offset : Nat) : List Sym → List Word → C (List Word)
  | [], insym_section => .ok insym_section
  | curs :: rest, insym_section =>
    if (offsets insym_section.length).any fun i =>
        Name.ofWords (fun k => insym_section.getD (i + k) 0) = curs.name then .error (.exit 1)
    else if insym_section.length + 5 ≤ insym_words then
      insertInsyms insym_words pc_offset rest
        (insym_section ++ symbolWords curs.name (curs.address + BitVec.ofNat 32 pc_offset))
    else .error .fault

/-- The words that `memcpy` copies from a file to the code section. -/
def objectCode (data : List Word) : C (List Word) := do
  let n₀ ← word data 0
  let n₁ ← word data 1
  let n₂ ← word data 2
  let code := (data.drop (n₀.toNat + n₁.toNat + 3)).take n₂.toNat
  if code.length = n₂.toNat then return code else .error .fault

/-- The first loop over the files. `pc_offset` is the length of the code so far. -/
def build (insym_words : Nat) : List FHeader → List Word → List Word → C (List Word × List Word)
  | [], insym_section, code_section => .ok (insym_section, code_section)
  | curf :: fh, insym_section, code_section => do
    let insym_section ← insertInsyms insym_words code_section.length curf.insyms insym_section
    let code ← objectCode curf.data
    build insym_words fh insym_section (code_section ++ code)

/-- The `switch` that rewrites an instruction. -/
def rewrite (instr new_addr : Word) : Word :=
  match (instr &&& 0xff).toNat with
  -- op addr, and op reg,addr
  | 0x0f | 0x14 | 0x01 | 0x02 | 0x04 => ((new_addr <<< 12) &&& 0xfffff000) ||| (instr &&& 0xfff)
  -- op reg,reg,addr
  | 0x11 | 0x12 | 0x13 | 0x15 => ((new_addr <<< 16) &&& 0xffff0000) ||| (instr &&& 0xffff)
  | _ => instr

/-- The search for the definition of an outsymbol, at the positions `is`. It does not stop at the
first. -/
def search (insym_section : List Word) (pc_offset : Nat) (curs : Sym) :
    List Nat → List Word → Byte → C (List Word × Byte)
  | [], code_section, flags => .ok (code_section, flags)
  | i :: is, code_section, flags => do
    let (name, symbol_definition) ← symbolAt insym_section i
    if name = curs.name then
      let pc := pc_offset + curs.address.toNat
      let instr ← word code_section pc
      let new_addr := symbol_definition - (BitVec.ofNat 32 pc + 1)
      search insym_section pc_offset curs is (code_section.set pc (rewrite instr new_addr))
        (flags ||| FLAG_DEFINED)
    else search insym_section pc_offset curs is code_section flags

structure Resolved where
  outsym_section : List Word
  code_section : List Word
  is_object : Bool

/-- The outsymbols of a file. -/
def resolveSyms (insym_section : List Word) (outsym_words pc_offset : Nat) :
    List Sym → Resolved → C Resolved
  | [], st => .ok st
  | curs :: rest, st => do
    let (code_section, flags) ←
      search insym_section pc_offset curs (offsets insym_section.length) st.code_section curs.flags
    if flags &&& FLAG_DEFINED = 0 then
      if st.outsym_section.length + 5 ≤ outsym_words then
        resolveSyms insym_section outsym_words pc_offset rest
          { outsym_section := st.outsym_section ++
              symbolWords curs.name (curs.address + BitVec.ofNat 32 pc_offset)
            code_section
            is_object := true }
      else .error .fault
    else resolveSyms insym_section outsym_words pc_offset rest { st with code_section }

/-- The second loop over the files. -/
def resolve (insym_section : List Word) (outsym_words : Nat) :
    List FHeader → Nat → Resolved → C Resolved
  | [], _, st => .ok st
  | curf :: fh, pc_offset, st => do
    let st ← resolveSyms insym_section outsym_words pc_offset curf.outsyms st
    let n₂ ← word curf.data 2
    resolve insym_section outsym_words fh (pc_offset + n₂.toNat) st

/-- What is written to the file, which is an executable or an object file. -/
structure Output where
  insyms : List Word
  outsyms : List Word
  code : List Word
  is_object : Bool

def Output.words (out : Output) : List Word :=
  [BitVec.ofNat 32 out.insyms.length, BitVec.ofNat 32 out.outsyms.length,
    BitVec.ofNat 32 out.code.length] ++ out.insyms ++ out.outsyms ++ out.code

def generate_output_file (junk : Nat → Word) (fh : List FHeader) (is_object : Bool) : C Output := do
  let insym_words ← total 0 fh
  let outsym_words ← total 1 fh
  let object_words ← total 2 fh
  if object_words = 0 then .error (.exit 50)
  else
    let (insym_section, code_section) ← build insym_words fh [] []
    let rest := (List.range insym_words).drop insym_section.length
    let insym_section := insym_section ++ rest.map junk
    let st ← resolve insym_section outsym_words fh 0 ⟨[], code_section, is_object⟩
    return ⟨insym_section, st.outsym_section, st.code_section, st.is_object⟩

/-! ## `main` -/

/-- The headers, and whether an entry point is found. -/
def readHeaders : List (List Word) → C (List FHeader × Bool)
  | [] => .ok ([], false)
  | data :: files => do
    let symbols ← extract_symbols data
    let (fh, found) ← readHeaders files
    return (⟨data, symbols.insyms, symbols.outsyms⟩ :: fh, symbols.found || found)

/-- `main` for these files, the last of the command line first. -/
def link (junk : Nat → Word) (files : List (List Word)) : C Output := do
  let (fh, found) ← readHeaders files
  generate_output_file junk fh !found

end Cs720.Link
