import Cs720.Lib.Fields
import Cs720.Lib.Run

/-! # The listings of sections and symbols (`A1/P1/binary_info.c`)

The machine is an x86-64. A `printf` of a section or a symbol is its arguments, and the titles are
left out, as are the option `-h` and how the file gets into `fbuf`. The numbers of a symbol table
come with the place and the order in which they were read.
-/

namespace Cs720.Elf

open Cs720.Lib

/-- The bytes of a file. Their number is a `long`. -/
structure Image where
  bytes : List Byte
  size : bytes.length < 2 ^ 63

/-- `_class` -/
inductive Class where
  | ELFCLASSNONE
  | ELFCLASS32
  | ELFCLASS64
  deriving DecidableEq, Repr

/-- The members of the headers in `elf.h`, and the sizes of the headers. -/
structure Layout where
  /-- The bits of an offset in the file. -/
  width : Nat
  ehdr : Nat
  e_shoff : Field
  e_shentsize : Field
  e_shnum : Field
  e_shstrndx : Field
  shdr : Nat
  sh_name : Field
  sh_type : Field
  sh_addr : Field
  sh_offset : Field
  sh_size : Field
  ehdr_ends : ∀ f ∈ [e_shoff, e_shentsize, e_shnum, e_shstrndx], f.offset + f.size ≤ ehdr
  shdr_ends : ∀ f ∈ [sh_name, sh_type, sh_addr, sh_offset, sh_size], f.offset + f.size ≤ shdr

/-- `Elf32_Ehdr` and `Elf32_Shdr` -/
def elf32 : Layout where
  width := 32
  ehdr := 52
  e_shoff := ⟨32, 4⟩
  e_shentsize := ⟨46, 2⟩
  e_shnum := ⟨48, 2⟩
  e_shstrndx := ⟨50, 2⟩
  shdr := 40
  sh_name := ⟨0, 4⟩
  sh_type := ⟨4, 4⟩
  sh_addr := ⟨12, 4⟩
  sh_offset := ⟨16, 4⟩
  sh_size := ⟨20, 4⟩
  ehdr_ends := by decide
  shdr_ends := by decide

/-- `Elf64_Ehdr` and `Elf64_Shdr` -/
def elf64 : Layout where
  width := 64
  ehdr := 64
  e_shoff := ⟨40, 8⟩
  e_shentsize := ⟨58, 2⟩
  e_shnum := ⟨60, 2⟩
  e_shstrndx := ⟨62, 2⟩
  shdr := 64
  sh_name := ⟨0, 4⟩
  sh_type := ⟨4, 4⟩
  sh_addr := ⟨16, 8⟩
  sh_offset := ⟨24, 8⟩
  sh_size := ⟨32, 8⟩
  ehdr_ends := by decide
  shdr_ends := by decide

def Class.layout (c : Class) : Layout := if c = .ELFCLASS32 then elf32 else elf64

def host : Order := .little

structure Globals where
  fbuf : Image
  valid : Bool
  class_ : Class
  section_name_table_offset : Nat
  section_name_table_size : Nat

def loaded (fbuf : Image) : Globals where
  fbuf := fbuf
  valid := false
  class_ := .ELFCLASSNONE
  section_name_table_offset := 2 ^ 64 - 1
  section_name_table_size := 0

/-! ## `main` -/

def EI_CLASS : Nat := 4
def EI_DATA : Nat := 5
def EI_VERSION : Nat := 6

def ELFDATA2LSB : Byte := 1
def ELFDATA2MSB : Byte := 2
def EV_CURRENT : Byte := 1

/-- `ident_buffer[k]` has to be `b`. -/
def expect (fbuf : Image) (k : Nat) (b : Byte) : C Unit := do
  if (← byteAt fbuf.bytes k) ≠ b then .error (.exit 2) else .ok ()

/-- The `switch` on `EI_CLASS`. -/
def classOf (c : Byte) : C Class :=
  if c = 1 then .ok .ELFCLASS32 else if c = 2 then .ok .ELFCLASS64 else .error (.exit 2)

def identify (g : Globals) : C Globals := do
  if g.fbuf.bytes.length = 0 then .error (.exit 1) else
    expect g.fbuf 0 0x7f
    expect g.fbuf 1 0x45
    expect g.fbuf 2 0x4c
    expect g.fbuf 3 0x46
    let class_ ← classOf (← byteAt g.fbuf.bytes EI_CLASS)
    let data ← byteAt g.fbuf.bytes EI_DATA
    if data ≠ ELFDATA2LSB ∧ data ≠ ELFDATA2MSB then .error (.exit 2) else
      expect g.fbuf EI_VERSION EV_CURRENT
      return { g with valid := true, class_ := class_ }

/-! ## `string_dump` -/

/-- `.shstrtab`: its `sh_offset` and its `sh_size`. -/
def shstrtab (L : Layout) (fbuf : List Byte) : C (Nat × Nat) := do
  let e_shoff ← L.e_shoff.get host fbuf 0
  let e_shentsize ← L.e_shentsize.get host fbuf 0
  let e_shstrndx ← L.e_shstrndx.get host fbuf 0
  let sht_offset := (e_shoff + (← asInt (e_shentsize * e_shstrndx))) % 2 ^ L.width
  let sh_offset ← L.sh_offset.get host fbuf sht_offset
  let sh_size ← L.sh_size.get host fbuf sht_offset
  return (sh_offset, sh_size)

/-- The loop. A zero is printed as a newline. -/
def names (fbuf : List Byte) (table tabsize : Nat) : C (List Byte) :=
  (List.range' 1 (tabsize - 1)).mapM fun i => do
    let b ← byteAt fbuf (table + i)
    let _ ← asInt (i + 1)
    return if b = 0 then 0x0a else b

/-- The globals, and what is printed. -/
def string_dump (g : Globals) (print : Bool) : C (Globals × List Byte) :=
  if ¬ g.valid then .ok (g, [])
  else do
    let (sh_offset, tabsize) ← shstrtab g.class_.layout g.fbuf.bytes
    let text ← names g.fbuf.bytes sh_offset tabsize
    return (
      { g with section_name_table_offset := sh_offset, section_name_table_size := tabsize },
      if print then text else [])

/-! ## `list_sect_headers` -/

/-- The numbers are those of `elf.h`. -/
def get_type_str (type : Nat) : String :=
  match type with
  | 0 => "NULL"
  | 1 => "PROGBITS"
  | 2 => "SYMTAB"
  | 3 => "STRTAB"
  | 4 => "RELA"
  | 5 => "HASH"
  | 6 => "DYNAMIC"
  | 7 => "NOTE"
  | 8 => "NOBITS"
  | 9 => "REL"
  | 10 => "SHLIB"
  | 11 => "DYNSYM"
  | 14 => "INIT_ARRAY"
  | 15 => "FINI_ARRAY"
  | 16 => "PREINIT_ARRAY"
  | 17 => "GROUP"
  | 18 => "SHNDX"
  | 0x6ffffff5 => "GNU_ATTRIBUTES"
  | 0x6ffffff6 => "GNU_HASH"
  | 0x6ffffff7 => "GNU_LIBLIST"
  | 0x6ffffff8 => "CHECKSUM"
  | 0x6ffffffa => "MOVE"
  | 0x6ffffffb => "COMDAT"
  | 0x6ffffffc => "SYMINFO"
  | 0x6ffffffd => "VERDEF"
  | 0x6ffffffe => "VERNEED"
  | 0x6fffffff => "VERSYM"
  | _ => "ILLEGAL_TYPE"

/-- What is printed of a section. -/
@[ext]
structure Entry where
  namestr : List Byte
  typestr : String
  sh_addr : Nat
  sh_offset : Nat
  sh_size : Nat
  deriving DecidableEq, Repr

structure Listing where
  e_shnum : Nat
  e_shoff : Nat
  rows : List (Nat × Entry)
  deriving DecidableEq, Repr

def row (L : Layout) (fbuf : List Byte) (table i shd : Nat) : C (Nat × Entry) := do
  let namestr ← stringAt fbuf (table + (← L.sh_name.get host fbuf shd))
  let typestr := get_type_str (← L.sh_type.get host fbuf shd)
  let sh_addr ← L.sh_addr.get host fbuf shd
  let sh_offset ← L.sh_offset.get host fbuf shd
  let sh_size ← L.sh_size.get host fbuf shd
  return (i, { namestr, typestr, sh_addr, sh_offset, sh_size })

def list32 (fbuf : List Byte) (table : Nat) : C Listing := do
  let e_shnum ← elf32.e_shnum.get host fbuf 0
  let e_shoff ← elf32.e_shoff.get host fbuf 0
  let rows ← (List.range e_shnum).mapM fun i => row elf32 fbuf table i e_shoff
  return { e_shnum, e_shoff, rows }

def list64 (fbuf : List Byte) (table : Nat) : C Listing := do
  let e_shnum ← elf64.e_shnum.get host fbuf 0
  let e_shoff ← elf64.e_shoff.get host fbuf 0
  let rows ← (List.range e_shnum).mapM fun i => do
    let e_shentsize ← elf64.e_shentsize.get host fbuf 0
    row elf64 fbuf table i (e_shoff + (← asInt (e_shentsize * i)))
  return { e_shnum, e_shoff, rows }

def listing (g : Globals) : C Listing :=
  if g.class_ = .ELFCLASS32 then list32 g.fbuf.bytes g.section_name_table_offset
  else list64 g.fbuf.bytes g.section_name_table_offset

def list_sect_headers (g : Globals) : C (Option Listing) :=
  if ¬ g.valid ∨ g.section_name_table_offset = 2 ^ 64 - 1 then .ok none
  else do return some (← listing g)

/-- The option `-sec`. -/
def sec (fbuf : Image) : C (Option Listing) := do
  let g ← identify (loaded fbuf)
  let (g, _) ← string_dump g false
  list_sect_headers g

/-! ## `symbol_dump` and `dynsym_dump` -/

/-- The members of the section headers and of the symbols in `elf.h`, and the size of a symbol. -/
structure SymLayout extends Layout where
  sh_link : Field
  sh_entsize : Field
  sym : Nat
  st_name : Field
  st_value : Field
  st_size : Field
  st_info : Field
  st_other : Field
  st_shndx : Field
  link_ends : ∀ f ∈ [sh_link, sh_entsize], f.offset + f.size ≤ shdr
  sym_ends : ∀ f ∈ [st_name, st_value, st_size, st_info, st_other, st_shndx],
    f.offset + f.size ≤ sym
  same_size : sh_entsize.size = sh_size.size

/-- `Elf32_Sym` -/
def sym32 : SymLayout where
  toLayout := elf32
  sh_link := ⟨24, 4⟩
  sh_entsize := ⟨36, 4⟩
  sym := 16
  st_name := ⟨0, 4⟩
  st_value := ⟨4, 4⟩
  st_size := ⟨8, 4⟩
  st_info := ⟨12, 1⟩
  st_other := ⟨13, 1⟩
  st_shndx := ⟨14, 2⟩
  link_ends := by decide
  sym_ends := by decide
  same_size := by decide

/-- `Elf64_Sym` -/
def sym64 : SymLayout where
  toLayout := elf64
  sh_link := ⟨40, 4⟩
  sh_entsize := ⟨56, 8⟩
  sym := 24
  st_name := ⟨0, 4⟩
  st_value := ⟨8, 8⟩
  st_size := ⟨16, 8⟩
  st_info := ⟨4, 1⟩
  st_other := ⟨5, 1⟩
  st_shndx := ⟨6, 2⟩
  link_ends := by decide
  sym_ends := by decide
  same_size := by decide

def Class.symLayout (c : Class) : SymLayout := if c = .ELFCLASS32 then sym32 else sym64

def SHT_SYMTAB : Nat := 2
def SHT_DYNSYM : Nat := 11

def st_type_text (st_info : Nat) : String :=
  match st_info % 16 with
  | 0 => "NOTYPE "
  | 1 => "OBJECT "
  | 2 => "FUNC   "
  | 3 => "SECTION"
  | 4 => "FILE   "
  | 5 => "COMMON "
  | 6 => "TLS    "
  | 10 => "IFUNC  "
  | _ => "ILLEGAL"

def st_bind_text (st_info : Nat) : String :=
  match st_info / 16 with
  | 0 => "LOCAL "
  | 1 => "GLOBAL"
  | 2 => "WEAK  "
  | 10 => "UNIQUE"
  | _ => "ILLEGL"

def st_other_text (st_other : Nat) : String :=
  match st_other % 4 with
  | 0 => "DEFAULT"
  | 1 => "INTERNAL"
  | 2 => "HIDDEN "
  | 3 => "PROTECTED"
  | _ => "ILLEGAL"

/-- The text for `st_shndx`. -/
inductive Ndx where
  | UND
  | ABS
  | index (ndx : Nat)
  deriving DecidableEq, Repr

def Ndx.of (ndx : Nat) : Ndx :=
  match ndx with
  | 0 => .UND
  | 0xfff1 => .ABS
  | _ => .index ndx

structure Sym where
  st_name : Read
  st_value : Read
  st_size : Read
  st_info : Read
  st_other : Read
  st_shndx : Read
  deriving DecidableEq, Repr

/-- What is printed of a symbol, and the symbol. -/
structure SymRow where
  i : Nat
  symbol : Sym
  type : String
  bind : String
  other : String
  ndx : Ndx
  name : List Byte
  deriving DecidableEq, Repr

def SymRow.of (i : Nat) (symbol : Sym) (name : List Byte) : SymRow where
  i := i
  symbol := symbol
  type := st_type_text symbol.st_info.value
  bind := st_bind_text symbol.st_info.value
  other := st_other_text symbol.st_other.value
  ndx := Ndx.of symbol.st_shndx.value
  name := name

def readSym (L : SymLayout) (fbuf : List Byte) (symbol : Nat) : C Sym := do
  let st_name ← L.st_name.read host fbuf symbol
  let st_value ← L.st_value.read host fbuf symbol
  let st_size ← L.st_size.read host fbuf symbol
  let st_info ← L.st_info.read host fbuf symbol
  let st_other ← L.st_other.read host fbuf symbol
  let st_shndx ← L.st_shndx.read host fbuf symbol
  return { st_name, st_value, st_size, st_info, st_other, st_shndx }

/-- An iteration of the loop over the symbols, up to `i++`. -/
def symRow (L : SymLayout) (fbuf : List Byte) (strtab_offset i symbol : Nat) : C SymRow := do
  let s ← readSym L fbuf symbol
  let name ← stringAt fbuf (strtab_offset + s.st_name.value)
  let _ ← asInt (i + 1)
  return .of i s name

/-- The header of the string table. `e_shentsize * sth_idx` is an `int`. -/
def strtabHeader (e_shoff e_shentsize sh_link : Nat) : C Nat :=
  let sth_idx := (BitVec.ofNat 32 sh_link).toInt
  let product := e_shentsize * sth_idx
  if -2 ^ 31 ≤ product ∧ product < 2 ^ 31 ∧ 0 ≤ e_shoff + product then
    .ok (e_shoff + product).toNat
  else .error .fault

/-- `int entries` -/
def entriesOf (sh_size sh_entsize : Nat) : C Int :=
  if sh_entsize = 0 then .error .fault else .ok (BitVec.ofNat 32 (sh_size / sh_entsize)).toInt

structure SymTable where
  sh_link : Read
  e_shentsize : Read
  strtab_offset : Read
  strtab_size : Read
  sh_size : Read
  sh_entsize : Read
  entries : Int
  sh_offset : Read
  rows : List SymRow
  deriving DecidableEq, Repr

/-- From the header of the symbol table on. -/
def dumpTable (L : SymLayout) (fbuf : List Byte) (e_shoff header : Nat) : C SymTable := do
  let sh_link ← L.sh_link.read host fbuf header
  let e_shentsize ← L.e_shentsize.read host fbuf 0
  let strtab_header ← strtabHeader e_shoff e_shentsize.value sh_link.value
  let strtab_offset ← L.sh_offset.read host fbuf strtab_header
  let strtab_size ← L.sh_size.read host fbuf strtab_header
  let sh_size ← L.sh_size.read host fbuf header
  let sh_entsize ← L.sh_entsize.read host fbuf header
  let entries ← entriesOf sh_size.value sh_entsize.value
  let sh_offset ← L.sh_offset.read host fbuf header
  -- `i * sh_entsize` has the type of `sh_entsize`.
  let rows ← (List.range entries.toNat).mapM fun k => symRow L fbuf strtab_offset.value (k + 1)
    (sh_offset.value + k * sh_entsize.value % 2 ^ (8 * L.sh_entsize.size))
  return { sh_link, e_shentsize, strtab_offset, strtab_size, sh_size, sh_entsize, entries,
           sh_offset, rows }

/-- There is no table if the search fails. -/
structure Dump where
  name : String
  e_shoff : Read
  e_shnum : Read
  table : Option SymTable
  deriving DecidableEq, Repr

def hasType (L : Layout) (type : Nat) (fbuf : List Byte) (ptr : Nat) : C Bool := do
  return (← L.sh_type.get host fbuf ptr) = type

def dump (L : SymLayout) (name : String) (type : Nat) (fbuf : List Byte) : C Dump := do
  let e_shoff ← L.e_shoff.read host fbuf 0
  let e_shnum ← L.e_shnum.read host fbuf 0
  match ← searchFrom (hasType L.toLayout type fbuf) L.shdr e_shnum.value e_shoff.value with
  | none => return { name, e_shoff, e_shnum, table := none }
  | some header => return { name, e_shoff, e_shnum,
                            table := some (← dumpTable L fbuf e_shoff.value header) }

def symbol_dump (g : Globals) : C (Option Dump) :=
  if ¬ g.valid then .ok none
  else do return some (← dump g.class_.symLayout ".symtab" SHT_SYMTAB g.fbuf.bytes)

def dynsym_dump (g : Globals) : C (Option Dump) :=
  if ¬ g.valid then .ok none
  else do return some (← dump g.class_.symLayout ".dynsym" SHT_DYNSYM g.fbuf.bytes)

/-- The option `-sym`. -/
def sym (fbuf : Image) : C (Option Dump) := do
  symbol_dump (← identify (loaded fbuf))

/-- The option `-dyn`. -/
def dyn (fbuf : Image) : C (Option Dump) := do
  dynsym_dump (← identify (loaded fbuf))

end Cs720.Elf
