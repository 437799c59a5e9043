import Cs720.Elf.Sections

/-! # The rows of the symbol tables -/

namespace Cs720.Elf

open Cs720.Lib

/-- The tables that can be dumped. -/
inductive Kind where
  | symtab
  | dynsym

namespace Kind

def name : Kind → String
  | .symtab => ".symtab"
  | .dynsym => ".dynsym"

def type : Kind → Nat
  | .symtab => SHT_SYMTAB
  | .dynsym => SHT_DYNSYM

def run : Kind → Image → C (Option Dump)
  | .symtab => sym
  | .dynsym => dyn

end Kind

namespace Object

variable (E : Object)

def symLayout : SymLayout := E.class_.symLayout

def reading (f : Field) (pos : Nat) : Read := f.reading E.order E.bytes pos

def e_shoff : Nat := E.ehdr E.layout.e_shoff

def typeAt (pos : Nat) : Nat := E.layout.sh_type.value E.order E.bytes pos

/-- The first section header of the type. -/
def first (type : Nat) : Option Nat :=
  (List.range E.e_shnum).find? fun k => E.typeAt (E.header k) = type

/-- The header of the string table of the table `k`. -/
def strtab (k : Nat) : Nat := E.header (E.shdr k E.symLayout.sh_link)

def entries (k : Nat) : Nat := E.shdr k E.layout.sh_size / E.shdr k E.symLayout.sh_entsize

/-- Where the symbol `i` of the table `k` is. -/
def symbolAt (k i : Nat) : Nat :=
  E.shdr k E.layout.sh_offset + i * E.shdr k E.symLayout.sh_entsize

def symbol (k i : Nat) : Sym where
  st_name := E.reading E.symLayout.st_name (E.symbolAt k i)
  st_value := E.reading E.symLayout.st_value (E.symbolAt k i)
  st_size := E.reading E.symLayout.st_size (E.symbolAt k i)
  st_info := E.reading E.symLayout.st_info (E.symbolAt k i)
  st_other := E.reading E.symLayout.st_other (E.symbolAt k i)
  st_shndx := E.reading E.symLayout.st_shndx (E.symbolAt k i)

/-- Where the name of the symbol is. -/
def symbolNameAt (k i : Nat) : Nat :=
  (E.reading E.layout.sh_offset (E.strtab k)).value + (E.symbol k i).st_name.value

/-- The row of the symbol. The first one has the number 1. -/
def symbolRow (k i : Nat) : SymRow :=
  .of (i + 1) (E.symbol k i) (cstring (E.bytes.drop (E.symbolNameAt k i)))

def symTable (k : Nat) : SymTable where
  sh_link := E.reading E.symLayout.sh_link (E.header k)
  e_shentsize := E.reading E.layout.e_shentsize 0
  strtab_offset := E.reading E.layout.sh_offset (E.strtab k)
  strtab_size := E.reading E.layout.sh_size (E.strtab k)
  sh_size := E.reading E.layout.sh_size (E.header k)
  sh_entsize := E.reading E.symLayout.sh_entsize (E.header k)
  entries := E.entries k
  sh_offset := E.reading E.layout.sh_offset (E.header k)
  rows := (List.range (E.entries k)).map (E.symbolRow k)

/-- What the file declares. -/
def symbols (t : Kind) : Dump where
  name := t.name
  e_shoff := E.reading E.layout.e_shoff 0
  e_shnum := E.reading E.layout.e_shnum 0
  table := (E.first t.type).map E.symTable

/-- The dump lists the first table of the type, each number in its place and in the order of the
file. -/
def Dumped (t : Kind) : Prop := t.run E.image = .ok (some (E.symbols t))

/-- The offsets of the table `k` are in range. -/
@[mk_iff]
structure TableInRange (k : Nat) : Prop where
  entsize : E.shdr k E.symLayout.sh_entsize ≠ 0
  strtab : E.strtab k + E.layout.shdr ≤ E.bytes.length
  symbols : ∀ i < E.entries k, E.symbolAt k i + E.symLayout.sym ≤ E.bytes.length
  names : ∀ i < E.entries k, IsString E.bytes (E.symbolNameAt k i)

@[mk_iff]
structure SymInRange (type : Nat) : Prop where
  ehdr : E.layout.ehdr ≤ E.bytes.length
  headers : ∀ k < E.e_shnum, E.header k + E.layout.shdr ≤ E.bytes.length
  table : ∀ k ∈ E.first type, E.TableInRange k

/-- The section headers are searched as an array of their structure, whatever `e_shentsize` is. That
leads to the first one of the type, or there is none in this array either. -/
def StepsTo (type : Nat) : Prop :=
  match E.first type with
  | some k => ∃ j < E.e_shnum, E.layout.shdr * j = E.e_shentsize * k ∧
      ∀ i < j, E.typeAt (E.e_shoff + E.layout.shdr * i) ≠ type
  | none => ∀ i < E.e_shnum, E.e_shoff + E.layout.shdr * i + E.layout.sh_type.offset +
      E.layout.sh_type.size ≤ E.bytes.length ∧ E.typeAt (E.e_shoff + E.layout.shdr * i) ≠ type

/-- The order is that of the host, the search leads to the table, and no `int` overflows. -/
@[mk_iff]
structure Regular (type : Nat) : Prop where
  order : E.order = host
  steps : E.StepsTo type
  entries : ∀ k ∈ E.first type, E.entries k < 2 ^ 31 - 1
  link : ∀ k ∈ E.first type, E.e_shentsize * E.shdr k E.symLayout.sh_link < 2 ^ 31

instance (k : Nat) : Decidable (E.TableInRange k) := decidable_of_iff' _ (E.tableInRange_iff k)

instance (type : Nat) : Decidable (E.SymInRange type) := decidable_of_iff' _ (E.symInRange_iff type)

variable {E}

theorem toLayout_symLayout : E.symLayout.toLayout = E.layout := by
  unfold symLayout layout Class.symLayout Class.layout
  split <;> rfl

theorem sh_link_lt (k : Nat) : E.shdr k E.symLayout.sh_link < 2 ^ 32 := by
  have hsize : E.symLayout.sh_link.size = 4 := by
    unfold symLayout Class.symLayout
    split <;> rfl
  refine (Field.value_lt _ _).trans_eq ?_
  rw [hsize]
  rfl

theorem first_some {type k : Nat} (h : E.first type = some k) :
    k < E.e_shnum ∧ E.typeAt (E.header k) = type ∧ ∀ i < k, E.typeAt (E.header i) ≠ type := by
  obtain ⟨htype, hk, hbefore⟩ := List.find?_range_eq_some.mp h
  exact ⟨List.mem_range.mp hk, of_decide_eq_true htype, fun i hi => by simpa using hbefore i hi⟩

theorem first_none {type : Nat} (h : E.first type = none) :
    ∀ k < E.e_shnum, E.typeAt (E.header k) ≠ type := fun k hk => by
  simpa using List.find?_range_eq_none.mp h k hk

/-! ## What is read -/

section
variable (ho : E.order = host)
include ho

theorem read_field {f : Field} {pos size : Nat} (hf : f.offset + f.size ≤ size)
    (h : pos + size ≤ E.bytes.length) : f.read host E.bytes pos = .ok (E.reading f pos) := by
  rw [Field.read_ok (by omega), reading, ho]

theorem read_ehdr {f : Field} (hf : f ∈ [E.layout.e_shoff, E.layout.e_shentsize, E.layout.e_shnum,
    E.layout.e_shstrndx]) (h : E.layout.ehdr ≤ E.bytes.length) :
    f.read host E.bytes 0 = .ok (E.reading f 0) :=
  read_field ho (E.layout.ehdr_ends f hf) (by omega)

theorem read_shdr {f : Field} {pos : Nat} (hf : f ∈ [E.layout.sh_name, E.layout.sh_type,
    E.layout.sh_addr, E.layout.sh_offset, E.layout.sh_size])
    (h : pos + E.layout.shdr ≤ E.bytes.length) :
    f.read host E.bytes pos = .ok (E.reading f pos) :=
  read_field ho (E.layout.shdr_ends f hf) h

theorem read_link {f : Field} {pos : Nat} (hf : f ∈ [E.symLayout.sh_link, E.symLayout.sh_entsize])
    (h : pos + E.layout.shdr ≤ E.bytes.length) :
    f.read host E.bytes pos = .ok (E.reading f pos) := by
  rw [← toLayout_symLayout] at h
  exact read_field ho (E.symLayout.link_ends f hf) h

theorem readSym_object {k i : Nat} (h : E.symbolAt k i + E.symLayout.sym ≤ E.bytes.length) :
    readSym E.symLayout E.bytes (E.symbolAt k i) = .ok (E.symbol k i) := by
  have hread {f : Field} (hf : f ∈ [E.symLayout.st_name, E.symLayout.st_value, E.symLayout.st_size,
      E.symLayout.st_info, E.symLayout.st_other, E.symLayout.st_shndx]) :
      f.read host E.bytes (E.symbolAt k i) = .ok (E.reading f (E.symbolAt k i)) :=
    read_field ho (E.symLayout.sym_ends f hf) h
  unfold readSym
  rw [hread (by simp), hread (by simp), hread (by simp), hread (by simp), hread (by simp),
    hread (by simp)]
  rfl

theorem hasType_ok {type ptr : Nat} {b : Bool} :
    hasType E.layout type E.bytes ptr = .ok b ↔
      ptr + E.layout.sh_type.offset + E.layout.sh_type.size ≤ E.bytes.length ∧
        b = decide (E.typeAt ptr = type) := by
  unfold hasType typeAt
  rw [bind_ok]
  constructor
  · rintro ⟨v, hv, h⟩
    obtain ⟨hend, rfl⟩ := Field.get_eq_ok.mp hv
    cases h
    rw [ho]
    exact ⟨hend, rfl⟩
  · rintro ⟨hend, rfl⟩
    rw [ho]
    exact ⟨_, Field.get_ok hend, rfl⟩

/-! ## The search -/

theorem search_none {type : Nat} (h : E.first type = none) :
    searchFrom (hasType E.layout type E.bytes) E.layout.shdr E.e_shnum E.e_shoff = .ok none ↔
      E.StepsTo type := by
  unfold StepsTo
  simp only [h, searchFrom_none, hasType_ok ho, eq_comm (a := false), decide_eq_false_iff_not,
    ne_eq]

theorem search_some {type k : Nat} (hr : E.SymInRange type) (h : E.first type = some k) :
    searchFrom (hasType E.layout type E.bytes) E.layout.shdr E.e_shnum E.e_shoff =
      .ok (some (E.header k)) ↔ E.StepsTo type := by
  obtain ⟨hk, htype, -⟩ := first_some h
  have hheader : E.header k = E.e_shoff + E.e_shentsize * k := rfl
  have hends := E.layout.shdr_ends E.layout.sh_type (by simp)
  have hwhole := hr.headers k hk
  unfold StepsTo
  simp only [h, searchFrom_some, hasType_ok ho]
  constructor
  · rintro ⟨j, hj, hplace, -, hbefore⟩
    exact ⟨j, hj, by omega, fun i hi => of_decide_eq_false (hbefore i hi).2.symm⟩
  · rintro ⟨j, hj, hplace, hbefore⟩
    refine ⟨j, hj, by omega, ⟨by omega, (decide_eq_true htype).symm⟩, fun i hi => ⟨?_, ?_⟩⟩
    · have hstep := Nat.mul_le_mul_left E.layout.shdr hi.le
      omega
    · exact (decide_eq_false (hbefore i hi)).symm

omit ho in
/-- Where the size of an entry is that of the structure, the search is right. -/
theorem stepsTo_of_shentsize {type : Nat} (hr : E.SymInRange type)
    (h : E.e_shentsize = E.layout.shdr) : E.StepsTo type := by
  have hends := E.layout.shdr_ends E.layout.sh_type (by simp)
  unfold StepsTo
  rw [← h]
  split
  · rename_i k hk
    obtain ⟨hlt, -, hbefore⟩ := first_some hk
    exact ⟨k, hlt, rfl, hbefore⟩
  · rename_i hnone
    intro i hi
    have hwhole : E.e_shoff + E.e_shentsize * i + E.layout.shdr ≤ E.bytes.length :=
      hr.headers i hi
    exact ⟨by omega, first_none hnone i hi⟩

end

/-! ## The arithmetic -/

theorem strtabHeader_ok {e_shoff e_shentsize sh_link : Nat} (hlink : sh_link < 2 ^ 32) :
    strtabHeader e_shoff e_shentsize sh_link = .ok (e_shoff + e_shentsize * sh_link) ↔
      e_shentsize * sh_link < 2 ^ 31 := by
  have hproduct : ((e_shentsize * sh_link : Nat) : Int) = e_shentsize * sh_link :=
    Int.natCast_mul _ _
  unfold strtabHeader
  constructor
  · intro h
    dsimp only at h
    split at h
    · rename_i hrange
      have heq := Except.ok.inj h
      omega
    · cases h
  · intro h
    have hidx : (e_shentsize : Int) * (BitVec.ofNat 32 sh_link).toInt = e_shentsize * sh_link := by
      rcases Nat.eq_zero_or_pos e_shentsize with hzero | hpos
      · rw [hzero, Int.natCast_zero, Int.zero_mul, Int.zero_mul]
      · have hle := Nat.le_mul_of_pos_left sh_link hpos
        rw [ofNat_toInt (by omega)]
    dsimp only
    rw [hidx, if_pos (by omega)]
    rfl

theorem entriesOf_ok {sh_size sh_entsize : Nat} (h : sh_entsize ≠ 0) :
    entriesOf sh_size sh_entsize = .ok (sh_size / sh_entsize : Nat) ↔
      sh_size / sh_entsize < 2 ^ 31 := by
  unfold entriesOf
  rw [if_neg h]
  constructor
  · intro he
    have heq := Except.ok.inj he
    have hlt := (BitVec.ofNat 32 (sh_size / sh_entsize)).toInt_lt
    omega
  · intro hlt
    rw [ofNat_toInt hlt]

/-- The multiplication in the loop does not wrap. -/
theorem symbolAt_loop {k i : Nat} (hi : i < E.entries k) :
    E.shdr k E.layout.sh_offset +
      i * E.shdr k E.symLayout.sh_entsize % 2 ^ (8 * E.symLayout.sh_entsize.size) =
        E.symbolAt k i := by
  have hsize : E.shdr k E.layout.sh_size < 2 ^ (8 * E.symLayout.sh_entsize.size) := by
    have hlt : E.shdr k E.layout.sh_size < 256 ^ E.layout.sh_size.size := Field.value_lt _ _
    rw [E.symLayout.same_size, toLayout_symLayout, Nat.pow_mul]
    exact hlt
  have hle : i * E.shdr k E.symLayout.sh_entsize ≤ E.shdr k E.layout.sh_size :=
    (Nat.mul_le_mul_right _ hi.le).trans (Nat.div_mul_le_self _ _)
  rw [Nat.mod_eq_of_lt (by omega)]
  rfl

/-! ## The table -/

section
variable (ho : E.order = host)
include ho

/-- The rows come out if the last number of a row is not the greatest `int`. -/
theorem rows_object {k : Nat} (hr : E.TableInRange k) :
    (List.range (E.entries k)).mapM (fun i => symRow E.symLayout E.bytes
        (E.reading E.layout.sh_offset (E.strtab k)).value (i + 1)
        (E.shdr k E.layout.sh_offset +
          i * E.shdr k E.symLayout.sh_entsize % 2 ^ (8 * E.symLayout.sh_entsize.size))) =
      .ok ((List.range (E.entries k)).map (E.symbolRow k)) ↔ E.entries k < 2 ^ 31 - 1 := by
  have hrow {i : Nat} (hi : i < E.entries k) : symRow E.symLayout E.bytes
      (E.reading E.layout.sh_offset (E.strtab k)).value (i + 1) (E.symbolAt k i) =
      if i + 1 + 1 < 2 ^ 31 then .ok (E.symbolRow k i) else .error .fault := by
    have hname : stringAt E.bytes ((E.reading E.layout.sh_offset (E.strtab k)).value +
        (E.symbol k i).st_name.value) = .ok (cstring (E.bytes.drop (E.symbolNameAt k i))) :=
      stringAt_ok (hr.names i hi)
    unfold symRow
    rw [readSym_object ho (hr.symbols i hi), ok_bind, hname, ok_bind, asInt_bind]
    rfl
  rw [mapM_eq_map]
  simp only [List.mem_range]
  constructor
  · intro h
    by_contra hlong
    have hlast := h (E.entries k - 1) (by omega)
    rw [symbolAt_loop (by omega), hrow (by omega), if_neg (by omega)] at hlast
    cases hlast
  · intro h i hi
    rw [symbolAt_loop hi, hrow hi, if_pos (by omega)]

theorem dumpTable_object {k : Nat} (hk : E.header k + E.layout.shdr ≤ E.bytes.length)
    (hehdr : E.layout.ehdr ≤ E.bytes.length) (hr : E.TableInRange k) :
    dumpTable E.symLayout E.bytes E.e_shoff (E.header k) = .ok (E.symTable k) ↔
      E.entries k < 2 ^ 31 - 1 ∧ E.e_shentsize * E.shdr k E.symLayout.sh_link < 2 ^ 31 := by
  have hlink : strtabHeader E.e_shoff (E.reading E.layout.e_shentsize 0).value
      (E.reading E.symLayout.sh_link (E.header k)).value = .ok (E.strtab k) ↔
      E.e_shentsize * E.shdr k E.symLayout.sh_link < 2 ^ 31 :=
    strtabHeader_ok (sh_link_lt k)
  have hentries : entriesOf (E.reading E.layout.sh_size (E.header k)).value
      (E.reading E.symLayout.sh_entsize (E.header k)).value = .ok (E.entries k : Int) ↔
      E.entries k < 2 ^ 31 :=
    entriesOf_ok hr.entsize
  unfold dumpTable
  rw [toLayout_symLayout, read_link ho (by simp) hk, read_ehdr ho (by simp) hehdr,
    read_shdr ho (by simp) hk, read_link ho (by simp) hk, read_shdr ho (by simp) hk]
  simp only [ok_bind]
  constructor
  · intro h
    obtain ⟨header, hheader, h⟩ := bind_ok.mp h
    obtain ⟨offset, hoffset, h⟩ := bind_ok.mp h
    obtain ⟨_, -, h⟩ := bind_ok.mp h
    obtain ⟨entries, -, h⟩ := bind_ok.mp h
    obtain ⟨rows, hrows, h⟩ := bind_ok.mp h
    have htable := Except.ok.inj h
    have hoff : offset = E.reading E.layout.sh_offset (E.strtab k) :=
      congrArg SymTable.strtab_offset htable
    have hcount : entries = E.entries k := congrArg SymTable.entries htable
    have hall : rows = (List.range (E.entries k)).map (E.symbolRow k) :=
      congrArg SymTable.rows htable
    have hplace := congrArg Read.place ((Field.eq_of_read hoffset).symm.trans hoff)
    obtain rfl : header = E.strtab k := Nat.add_right_cancel hplace
    rw [hoff, hcount, hall, Int.toNat_natCast] at hrows
    exact ⟨(rows_object ho hr).mp hrows, hlink.mp hheader⟩
  · rintro ⟨hlast, hint⟩
    rw [hlink.mpr hint, ok_bind, read_shdr ho (by simp) hr.strtab,
      read_shdr ho (by simp) hr.strtab, ok_bind, ok_bind, hentries.mpr (by omega), ok_bind,
      Int.toNat_natCast]
    exact bind_ok.mpr ⟨_, (rows_object ho hr).mpr hlast, rfl⟩

omit ho in
theorem place_of_dumpTable {L : SymLayout} {fbuf : List Byte} {e_shoff header : Nat} {T : SymTable}
    (h : dumpTable L fbuf e_shoff header = .ok T) :
    T.sh_link.place = header + L.sh_link.offset := by
  unfold dumpTable at h
  obtain ⟨sh_link, hlink, h⟩ := bind_ok.mp h
  obtain ⟨_, -, h⟩ := bind_ok.mp h
  obtain ⟨_, -, h⟩ := bind_ok.mp h
  obtain ⟨_, -, h⟩ := bind_ok.mp h
  obtain ⟨_, -, h⟩ := bind_ok.mp h
  obtain ⟨_, -, h⟩ := bind_ok.mp h
  obtain ⟨_, -, h⟩ := bind_ok.mp h
  obtain ⟨_, -, h⟩ := bind_ok.mp h
  obtain ⟨_, -, h⟩ := bind_ok.mp h
  obtain ⟨_, -, h⟩ := bind_ok.mp h
  cases h
  rw [Field.eq_of_read hlink]
  rfl

theorem dump_object {t : Kind} (hr : E.SymInRange t.type) :
    dump E.symLayout t.name t.type E.bytes = .ok (E.symbols t) ↔ E.StepsTo t.type ∧
      ∀ k ∈ E.first t.type, E.entries k < 2 ^ 31 - 1 ∧
        E.e_shentsize * E.shdr k E.symLayout.sh_link < 2 ^ 31 := by
  unfold dump symbols
  rw [toLayout_symLayout, read_ehdr ho (by simp) hr.ehdr, read_ehdr ho (by simp) hr.ehdr]
  simp only [ok_bind]
  rcases hfirst : E.first t.type with _ | k
  · constructor
    · intro h
      obtain ⟨found, hsearch, h⟩ := bind_ok.mp h
      cases found with
      | none => exact ⟨(search_none ho hfirst).mp hsearch, nofun⟩
      | some header =>
        obtain ⟨T, -, h⟩ := bind_ok.mp h
        cases h
    · rintro ⟨hsteps, -⟩
      exact bind_ok.mpr ⟨none, (search_none ho hfirst).mpr hsteps, rfl⟩
  · have htable := dumpTable_object ho (hr.headers k (first_some hfirst).1) hr.ehdr
      (hr.table k hfirst)
    constructor
    · intro h
      obtain ⟨found, hsearch, h⟩ := bind_ok.mp h
      cases found with
      | none => cases h
      | some header =>
        obtain ⟨T, hT, h⟩ := bind_ok.mp h
        obtain rfl : T = E.symTable k :=
          Option.some.inj (congrArg Dump.table (Except.ok.inj h))
        obtain rfl : header = E.header k := Nat.add_right_cancel (place_of_dumpTable hT).symm
        refine ⟨(search_some ho hr hfirst).mp hsearch, fun k' hk' => ?_⟩
        cases hk'
        exact htable.mp hT
    · rintro ⟨hsteps, hlimits⟩
      refine bind_ok.mpr ⟨_, (search_some ho hr hfirst).mpr hsteps, ?_⟩
      exact bind_ok.mpr ⟨_, htable.mpr (hlimits k rfl), rfl⟩

end

/-! ## The dumps -/

theorem run_object {t : Kind} {d : Dump} : t.run E.image = .ok (some d) ↔
    dump E.symLayout t.name t.type E.bytes = .ok d := by
  have hrun : t.run E.image =
      dump E.symLayout t.name t.type E.bytes >>= fun d => .ok (some d) := by
    cases t with
    | symtab =>
      show sym E.image = _
      unfold sym
      rw [identify_object, ok_bind]
      rfl
    | dynsym =>
      show dyn E.image = _
      unfold dyn
      rw [identify_object, ok_bind]
      rfl
  rw [hrun, bind_ok]
  constructor
  · rintro ⟨d', hd, h⟩
    cases h
    exact hd
  · intro hd
    exact ⟨d, hd, rfl⟩

/-- The machine reads in its own order. -/
theorem order_of_dump {L : SymLayout} {name : String} {type : Nat} {fbuf : List Byte} {d : Dump}
    (h : dump L name type fbuf = .ok d) : d.e_shoff.order = host := by
  unfold dump at h
  obtain ⟨e_shoff, hshoff, h⟩ := bind_ok.mp h
  obtain ⟨_, -, h⟩ := bind_ok.mp h
  obtain ⟨found, -, h⟩ := bind_ok.mp h
  cases found with
  | none =>
    cases h
    rw [Field.eq_of_read hshoff]
    rfl
  | some header =>
    obtain ⟨_, -, h⟩ := bind_ok.mp h
    cases h
    rw [Field.eq_of_read hshoff]
    rfl

/-- A dump lists what the file declares if and only if the file is regular. -/
theorem dumped_iff (t : Kind) (hr : E.SymInRange t.type) : E.Dumped t ↔ E.Regular t.type := by
  unfold Dumped
  rw [run_object, regular_iff]
  by_cases ho : E.order = host
  · rw [dump_object ho hr]
    exact ⟨fun h => ⟨ho, h.1, fun k hk => (h.2 k hk).1, fun k hk => (h.2 k hk).2⟩,
      fun h => ⟨h.2.1, fun k hk => ⟨h.2.2.1 k hk, h.2.2.2 k hk⟩⟩⟩
  · refine ⟨fun h => ?_, fun h => absurd h.1 ho⟩
    exact absurd (order_of_dump h) ho

theorem known32 : Class.ELFCLASS32 ≠ .ELFCLASSNONE := nofun

theorem known64 : Class.ELFCLASS64 ≠ .ELFCLASSNONE := nofun

/-- An image of class 32 with one symbol, `a`. Its section headers are 48 bytes apart. -/
def wide32 : Object where
  image := ⟨[0x7f, 0x45, 0x4c, 0x46, 1, 1, 1] ++ List.replicate 9 0 ++
    [1, 0, 3, 0, 1, 0, 0, 0, 0, 0, 0, 0, 0, 0, 0, 0, 52, 0, 0, 0, 0, 0, 0, 0] ++
    [52, 0, 0, 0, 0, 0, 48, 0, 2, 0, 0, 0] ++
    [0, 0, 0, 0, 3, 0, 0, 0, 0, 0, 0, 0, 0, 0, 0, 0, 156, 0, 0, 0, 3, 0, 0, 0] ++
    List.replicate 24 0 ++
    [0, 0, 0, 0, 2, 0, 0, 0, 0, 0, 0, 0, 0, 0, 0, 0, 140, 0, 0, 0, 16, 0, 0, 0] ++
    List.replicate 12 0 ++ [16, 0, 0, 0] ++
    [1, 0, 0, 0, 0, 16, 0, 0, 4, 0, 0, 0, 0x12, 0, 0, 0] ++ [0, 0x61, 0], by decide +kernel⟩
  class_ := .ELFCLASS32
  order := .little
  known := known32
  ident := by decide

/-- The same with headers of 40 bytes, in the other byte order. -/
def big32 : Object where
  image := ⟨[0x7f, 0x45, 0x4c, 0x46, 1, 2, 1] ++ List.replicate 9 0 ++
    [0, 1, 0, 8, 0, 0, 0, 1, 0, 0, 0, 0, 0, 0, 0, 0, 0, 0, 0, 52, 0, 0, 0, 0] ++
    [0, 52, 0, 0, 0, 0, 0, 40, 0, 2, 0, 0] ++
    [0, 0, 0, 0, 0, 0, 0, 3, 0, 0, 0, 0, 0, 0, 0, 0, 0, 0, 0, 148, 0, 0, 0, 3] ++
    List.replicate 16 0 ++
    [0, 0, 0, 0, 0, 0, 0, 2, 0, 0, 0, 0, 0, 0, 0, 0, 0, 0, 0, 132, 0, 0, 0, 16] ++
    List.replicate 12 0 ++ [0, 0, 0, 16] ++
    [0, 0, 0, 1, 0, 0, 16, 0, 0, 0, 0, 4, 0x12, 0, 0, 1] ++ [0, 0x61, 0], by decide +kernel⟩
  class_ := .ELFCLASS32
  order := .big
  known := known32
  ident := by decide

/-- The search fails in the one, and leaves the file in the other. -/
theorem dumped_outside :
    (wide32.SymInRange SHT_SYMTAB ∧ (wide32.symbols .symtab).table.map SymTable.entries = some 1 ∧
      (∃ d, sym wide32.image = .ok (some d) ∧ d.table = none) ∧ ¬ wide32.Dumped .symtab) ∧
    (big32.SymInRange SHT_SYMTAB ∧ (big32.symbols .symtab).table.map SymTable.entries = some 1 ∧
      sym big32.image = .error .fault ∧ ¬ big32.Dumped .symtab) := by
  have hsearch : ∃ d, sym wide32.image = .ok (some d) ∧ d.table = none :=
    ⟨⟨".symtab", ⟨32, .little, 52⟩, ⟨48, .little, 2⟩, none⟩, by decide +kernel, rfl⟩
  have hfault : sym big32.image = .error .fault := by decide +kernel
  refine ⟨⟨by decide +kernel, by decide +kernel, hsearch, fun h => ?_⟩,
    by decide +kernel, by decide +kernel, hfault, fun h => ?_⟩
  · obtain ⟨d, hd, hnone⟩ := hsearch
    have hsym : sym wide32.image = .ok (some (wide32.symbols .symtab)) := h
    rw [hsym] at hd
    cases hd
    revert hnone
    decide +kernel
  · have hsym : sym big32.image = .ok (some (big32.symbols .symtab)) := h
    rw [hsym] at hfault
    cases hfault

/-- One dynamic symbol in class 64. -/
def dyn64 : Object where
  image := ⟨[0x7f, 0x45, 0x4c, 0x46, 2, 1, 1] ++ List.replicate 9 0 ++
    [3, 0, 62, 0, 1, 0, 0, 0] ++ List.replicate 16 0 ++ [64, 0, 0, 0, 0, 0, 0, 0] ++
    [0, 0, 0, 0, 64, 0, 0, 0, 0, 0, 64, 0, 2, 0, 0, 0] ++
    [0, 0, 0, 0, 3, 0, 0, 0] ++ List.replicate 16 0 ++
    [216, 0, 0, 0, 0, 0, 0, 0, 3, 0, 0, 0, 0, 0, 0, 0] ++ List.replicate 24 0 ++
    [0, 0, 0, 0, 11, 0, 0, 0] ++ List.replicate 16 0 ++
    [192, 0, 0, 0, 0, 0, 0, 0, 24, 0, 0, 0, 0, 0, 0, 0] ++ List.replicate 16 0 ++
    [24, 0, 0, 0, 0, 0, 0, 0] ++
    [1, 0, 0, 0, 0x12, 0, 1, 0, 0, 16, 0, 0, 0, 0, 0, 0, 4, 0, 0, 0, 0, 0, 0, 0] ++
    [0, 0x61, 0], by decide +kernel⟩
  class_ := .ELFCLASS64
  order := .little
  known := known64
  ident := by decide

theorem dumped_dyn64 : dyn64.Dumped .dynsym := by
  have hr : dyn64.SymInRange (Kind.type .dynsym) := by decide +kernel
  refine (dumped_iff .dynsym hr).mpr ⟨rfl, ?_, by decide +kernel, by decide +kernel⟩
  exact stepsTo_of_shentsize hr (by decide +kernel)

end Object

end Cs720.Elf
