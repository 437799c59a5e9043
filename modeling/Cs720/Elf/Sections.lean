import Mathlib.Tactic.MkIffOfInductiveProp
import Cs720.Elf.Code

/-! # The rows of the section listing -/

namespace Cs720.Elf

open Cs720.Lib

/-- The byte `EI_CLASS`. -/
def Class.ident : Class → Byte
  | .ELFCLASSNONE => 0
  | .ELFCLASS32 => 1
  | .ELFCLASS64 => 2

/-- The byte `EI_DATA`. -/
def dataIdent : Order → Byte
  | .little => ELFDATA2LSB
  | .big => ELFDATA2MSB

/-- An ELF image, with the class and the byte order that it declares. -/
structure Object where
  image : Image
  class_ : Class
  order : Order
  known : class_ ≠ .ELFCLASSNONE
  ident : image.bytes.take 7 = [0x7f, 0x45, 0x4c, 0x46, class_.ident, dataIdent order, EV_CURRENT]

namespace Object

variable (E : Object)

def bytes : List Byte := E.image.bytes

def layout : Layout := E.class_.layout

def ehdr (f : Field) : Nat := f.value E.order E.bytes 0

def e_shnum : Nat := E.ehdr E.layout.e_shnum

def e_shentsize : Nat := E.ehdr E.layout.e_shentsize

def e_shstrndx : Nat := E.ehdr E.layout.e_shstrndx

/-- Where the section header `k` is. -/
def header (k : Nat) : Nat := E.ehdr E.layout.e_shoff + E.e_shentsize * k

/-- A member of the section header `k`. -/
def shdr (k : Nat) (f : Field) : Nat := f.value E.order E.bytes (E.header k)

/-- The string table of the section names. -/
def table : Nat := E.shdr E.e_shstrndx E.layout.sh_offset

def tabsize : Nat := E.shdr E.e_shstrndx E.layout.sh_size

/-- Where the name of the section `k` is. -/
def nameAt (k : Nat) : Nat := E.table + E.shdr k E.layout.sh_name

/-- What there is to print of the section `k`. -/
def entry (k : Nat) : Entry where
  namestr := cstring (E.bytes.drop (E.nameAt k))
  typestr := get_type_str (E.shdr k E.layout.sh_type)
  sh_addr := E.shdr k E.layout.sh_addr
  sh_offset := E.shdr k E.layout.sh_offset
  sh_size := E.shdr k E.layout.sh_size

/-- The section header `k` is in the file, and where it is is an offset of the class. -/
@[mk_iff]
structure Whole (k : Nat) : Prop where
  ends : E.header k + E.layout.shdr ≤ E.bytes.length
  offset : E.header k < 2 ^ E.layout.width

/-- The offsets are in range. -/
@[mk_iff]
structure InRange : Prop where
  ehdr : E.layout.ehdr ≤ E.bytes.length
  headers : ∀ k < E.e_shnum, E.Whole k
  index : E.Whole E.e_shstrndx
  table : E.table + E.tabsize ≤ E.bytes.length
  names : ∀ k < E.e_shnum, IsString E.bytes (E.nameAt k)

/-- The listing has a row for each header, with what is in it. -/
def Listed : Prop :=
  ∃ l, sec E.image = .ok (some l) ∧ l.rows = (List.range E.e_shnum).map fun i => (i, E.entry i)

/-- The loop comes to each header. In class 32 it stays at the first one. -/
def Steps : Prop :=
  if E.class_ = .ELFCLASS32 then ∀ i < E.e_shnum, E.entry i = E.entry 0
  else ∀ i < E.e_shnum, E.e_shentsize * i < 2 ^ 31

instance (k : Nat) : Decidable (E.Whole k) := decidable_of_iff' _ (E.whole_iff k)

instance : Decidable E.InRange := decidable_of_iff' _ E.inRange_iff

instance : Decidable E.Steps :=
  inferInstanceAs (Decidable (if E.class_ = .ELFCLASS32 then ∀ i < E.e_shnum, E.entry i = E.entry 0
    else ∀ i < E.e_shnum, E.e_shentsize * i < 2 ^ 31))

/-! ## The identification -/

def identified : Globals := { loaded E.image with valid := true, class_ := E.class_ }

variable {E}

theorem expect_ok {fbuf : Image} {k : Nat} {b : Byte} :
    expect fbuf k b = .ok () ↔ fbuf.bytes[k]? = some b := by
  unfold expect
  rw [bind_ok]
  constructor
  · rintro ⟨c, hc, h⟩
    split at h
    · cases h
    · rename_i heq
      rw [← not_not.mp heq]
      exact byteAt_ok.mp hc
  · intro h
    exact ⟨b, byteAt_ok.mpr h, if_neg (fun hne => hne rfl)⟩

theorem classOf_ok {b : Byte} {c : Class} :
    classOf b = .ok c ↔ c ≠ .ELFCLASSNONE ∧ b = c.ident := by
  unfold classOf
  constructor
  · intro h
    split at h
    · rename_i hb
      cases h
      exact ⟨nofun, hb⟩
    split at h
    · rename_i hb
      cases h
      exact ⟨nofun, hb⟩
    · cases h
  · rintro ⟨hc, rfl⟩
    cases c with
    | ELFCLASSNONE => exact absurd rfl hc
    | ELFCLASS32 => rfl
    | ELFCLASS64 => rfl

theorem data_ok {b : Byte} :
    ¬ (b ≠ ELFDATA2LSB ∧ b ≠ ELFDATA2MSB) ↔ ∃ o, b = dataIdent o := by
  constructor
  · intro h
    by_cases hb : b = ELFDATA2LSB
    · exact ⟨.little, hb⟩
    · exact ⟨.big, not_not.mp fun hne => h ⟨hb, hne⟩⟩
  · rintro ⟨o, rfl⟩
    cases o <;> decide

theorem ident_getElem {k : Nat} {b : Byte}
    (h : [0x7f, 0x45, 0x4c, 0x46, E.class_.ident, dataIdent E.order, EV_CURRENT][k]? = some b) :
    E.image.bytes[k]? = some b := by
  rw [← E.ident, List.getElem?_take] at h
  split at h
  · exact h
  · cases h

theorem identify_object : identify (loaded E.image) = .ok E.identified := by
  have hne : E.image.bytes.length ≠ 0 := by
    intro h
    have hi := E.ident
    rw [List.length_eq_zero_iff.mp h] at hi
    cases hi
  have h0 : expect E.image 0 0x7f = .ok () := expect_ok.mpr (ident_getElem rfl)
  have h1 : expect E.image 1 0x45 = .ok () := expect_ok.mpr (ident_getElem rfl)
  have h2 : expect E.image 2 0x4c = .ok () := expect_ok.mpr (ident_getElem rfl)
  have h3 : expect E.image 3 0x46 = .ok () := expect_ok.mpr (ident_getElem rfl)
  have hc : byteAt E.image.bytes EI_CLASS = .ok E.class_.ident :=
    byteAt_ok.mpr (ident_getElem rfl)
  have hclass : classOf E.class_.ident = .ok E.class_ := classOf_ok.mpr ⟨E.known, rfl⟩
  have hd : byteAt E.image.bytes EI_DATA = .ok (dataIdent E.order) :=
    byteAt_ok.mpr (ident_getElem rfl)
  have hdata := data_ok.mpr ⟨E.order, rfl⟩
  have hv : expect E.image EI_VERSION EV_CURRENT = .ok () := expect_ok.mpr (ident_getElem rfl)
  unfold identify loaded
  simp only [if_neg hne, h0, h1, h2, h3, hc, hclass, hd, if_neg hdata, hv, ok_bind]
  rfl

/-- `main` identifies the ELF images, and nothing else. -/
theorem identify_ok {fbuf : Image} {g : Globals} :
    identify (loaded fbuf) = .ok g ↔ ∃ E : Object, E.image = fbuf ∧ g = E.identified := by
  constructor
  · intro h
    unfold identify at h
    split at h
    · cases h
    obtain ⟨_, h0, h⟩ := bind_ok.mp h
    obtain ⟨_, h1, h⟩ := bind_ok.mp h
    obtain ⟨_, h2, h⟩ := bind_ok.mp h
    obtain ⟨_, h3, h⟩ := bind_ok.mp h
    obtain ⟨c, hc, h⟩ := bind_ok.mp h
    obtain ⟨class_, hclass, h⟩ := bind_ok.mp h
    obtain ⟨d, hd, h⟩ := bind_ok.mp h
    split at h
    · cases h
    rename_i hdata
    obtain ⟨_, hv, h⟩ := bind_ok.mp h
    cases h
    obtain ⟨hknown, rfl⟩ := classOf_ok.mp hclass
    obtain ⟨order, rfl⟩ := data_ok.mp hdata
    have hident : fbuf.bytes.take 7 =
        [0x7f, 0x45, 0x4c, 0x46, class_.ident, dataIdent order, EV_CURRENT] := by
      apply List.ext_getElem?
      intro k
      rw [List.getElem?_take]
      split
      · interval_cases k
        exacts [expect_ok.mp h0, expect_ok.mp h1, expect_ok.mp h2, expect_ok.mp h3,
          byteAt_ok.mp hc, byteAt_ok.mp hd, expect_ok.mp hv]
      · rename_i hk
        exact (List.getElem?_eq_none (Nat.not_lt.mp hk)).symm
    exact ⟨⟨fbuf, class_, order, hknown, hident⟩, rfl, rfl⟩
  · rintro ⟨E, rfl, rfl⟩
    exact identify_object

/-! ## `string_dump` -/

section
variable (ho : E.order = host) (hr : E.InRange)
include ho hr

theorem get_ehdr {f : Field} (hf : f ∈ [E.layout.e_shoff, E.layout.e_shentsize, E.layout.e_shnum,
    E.layout.e_shstrndx]) : f.get host E.bytes 0 = .ok (E.ehdr f) := by
  have hends := E.layout.ehdr_ends f hf
  have hlen := hr.ehdr
  rw [Field.get_ok (by omega), ehdr, ho]

omit hr in
theorem get_shdr {k : Nat} (hk : E.Whole k) {f : Field} (hf : f ∈ [E.layout.sh_name,
    E.layout.sh_type, E.layout.sh_addr, E.layout.sh_offset, E.layout.sh_size]) :
    f.get host E.bytes (E.header k) = .ok (E.shdr k f) := by
  have hends := E.layout.shdr_ends f hf
  have hlen := hk.ends
  rw [Field.get_ok (by omega), shdr, ho]

theorem shstrtab_object : shstrtab E.layout E.bytes =
    if E.e_shentsize * E.e_shstrndx < 2 ^ 31 then .ok (E.table, E.tabsize) else .error .fault := by
  unfold shstrtab
  rw [get_ehdr ho hr (by simp), get_ehdr ho hr (by simp), get_ehdr ho hr (by simp)]
  simp only [ok_bind, asInt_bind]
  have hsht : (E.ehdr E.layout.e_shoff + E.ehdr E.layout.e_shentsize *
      E.ehdr E.layout.e_shstrndx) % 2 ^ E.layout.width = E.header E.e_shstrndx :=
    Nat.mod_eq_of_lt hr.index.offset
  rw [hsht, get_shdr ho hr.index (by simp), get_shdr ho hr.index (by simp)]
  rfl

omit ho in
theorem names_object : (∃ t, names E.bytes E.table E.tabsize = .ok t) ↔ E.tabsize < 2 ^ 31 := by
  have htable := hr.table
  unfold names
  rw [mapM_exists]
  constructor
  · intro h
    by_contra hlong
    obtain ⟨b, hb⟩ := h (2 ^ 31 - 1) (List.mem_range'_1.mpr (by omega))
    obtain ⟨c, -, hb⟩ := bind_ok.mp hb
    obtain ⟨n, hn, -⟩ := bind_ok.mp hb
    have hlt := (asInt_ok.mp hn).1
    omega
  · intro h i hi
    have hi := List.mem_range'_1.mp hi
    have hlt : E.table + i < E.bytes.length := by omega
    have hb : byteAt E.bytes (E.table + i) = .ok E.bytes[E.table + i] :=
      byteAt_ok.mpr (List.getElem?_eq_getElem _)
    have hn : asInt (i + 1) = .ok (i + 1) := asInt_ok.mpr ⟨by omega, rfl⟩
    exact ⟨_, by rw [hb, ok_bind, hn]; rfl⟩

def dumped (E : Object) : Globals :=
  { E.identified with section_name_table_offset := E.table, section_name_table_size := E.tabsize }

theorem string_dump_object {g : Globals} {print : Bool} :
    (∃ text, string_dump E.identified print = .ok (g, text)) ↔
      E.tabsize < 2 ^ 31 ∧ E.e_shentsize * E.e_shstrndx < 2 ^ 31 ∧ g = E.dumped := by
  have hs : shstrtab E.identified.class_.layout E.identified.fbuf.bytes = _ :=
    shstrtab_object ho hr
  unfold string_dump
  rw [if_neg (fun h => h rfl), hs]
  split
  · rename_i hindex
    rw [ok_bind]
    constructor
    · rintro ⟨text, h⟩
      obtain ⟨t, ht, h⟩ := bind_ok.mp h
      cases h
      exact ⟨(names_object hr).mp ⟨t, ht⟩, hindex, rfl⟩
    · rintro ⟨htab, -, rfl⟩
      obtain ⟨t, ht⟩ := (names_object hr).mpr htab
      exact ⟨_, bind_ok.mpr ⟨t, ht, rfl⟩⟩
  · rename_i hindex
    constructor
    · rintro ⟨_, h⟩
      cases h
    · rintro ⟨-, h, -⟩
      exact absurd h hindex

/-! ## `list_sect_headers` -/

omit hr in
theorem row_object {k i : Nat} (hk : E.Whole k) (hn : IsString E.bytes (E.nameAt k)) :
    row E.layout E.bytes E.table i (E.header k) = .ok (i, E.entry k) := by
  unfold row
  rw [get_shdr ho hk (by simp), get_shdr ho hk (by simp), get_shdr ho hk (by simp),
    get_shdr ho hk (by simp), get_shdr ho hk (by simp)]
  have hname : stringAt E.bytes (E.table + E.shdr k E.layout.sh_name) =
      .ok (cstring (E.bytes.drop (E.nameAt k))) := stringAt_ok hn
  simp only [ok_bind]
  rw [hname]
  rfl

/-- In class 32 each row is that of the first header. -/
theorem list32_object (hc : E.class_ = .ELFCLASS32) :
    ∃ l, list32 E.bytes E.table = .ok l ∧
      l.rows = (List.range E.e_shnum).map fun i => (i, E.entry 0) := by
  have hL : elf32 = E.layout := by rw [layout, hc]; rfl
  have hrows : (List.range E.e_shnum).mapM (fun i => row E.layout E.bytes E.table i
      (E.ehdr E.layout.e_shoff)) = .ok ((List.range E.e_shnum).map fun i => (i, E.entry 0)) := by
    refine mapM_eq_map.mpr fun i hi => ?_
    have h0 : 0 < E.e_shnum := by
      have hlt := List.mem_range.mp hi
      omega
    exact row_object ho (hr.headers 0 h0) (hr.names 0 h0)
  unfold list32
  rw [hL, get_ehdr ho hr (by simp), get_ehdr ho hr (by simp)]
  simp only [ok_bind]
  rw [show E.ehdr E.layout.e_shnum = E.e_shnum from rfl, hrows]
  exact ⟨_, rfl, rfl⟩

theorem list64_object (hc : E.class_ = .ELFCLASS64) :
    (∃ l, list64 E.bytes E.table = .ok l ∧
      l.rows = (List.range E.e_shnum).map fun i => (i, E.entry i)) ↔
      ∀ i < E.e_shnum, E.e_shentsize * i < 2 ^ 31 := by
  have hL : elf64 = E.layout := by rw [layout, hc]; rfl
  have hnum : E.ehdr E.layout.e_shnum = E.e_shnum := rfl
  unfold list64
  rw [hL, get_ehdr ho hr (by simp), get_ehdr ho hr (by simp), get_ehdr ho hr (by simp)]
  simp only [ok_bind, asInt_bind, hnum]
  constructor
  · rintro ⟨l, hl, -⟩ i hi
    obtain ⟨rows, hrows, -⟩ := bind_ok.mp hl
    obtain ⟨r, hr⟩ := mapM_exists.mp ⟨rows, hrows⟩ i (List.mem_range.mpr hi)
    split at hr
    · assumption
    · cases hr
  · intro h
    rw [mapM_eq_map.mpr fun i hi => ?_]
    · exact ⟨_, rfl, rfl⟩
    have hi := List.mem_range.mp hi
    refine (if_pos (h i hi)).trans ?_
    exact row_object ho (hr.headers i hi) (hr.names i hi)

theorem listing_object :
    (∃ l, listing E.dumped = .ok l ∧
      l.rows = (List.range E.e_shnum).map fun i => (i, E.entry i)) ↔ E.Steps := by
  have hdumped : listing E.dumped =
      if E.class_ = .ELFCLASS32 then list32 E.bytes E.table else list64 E.bytes E.table := rfl
  unfold Steps
  rcases hc : E.class_ with _ | _ | _
  · exact absurd hc E.known
  · obtain ⟨l, hl, hrows⟩ := list32_object ho hr hc
    rw [hdumped, if_pos hc, hl, if_pos rfl]
    constructor
    · rintro ⟨_, h, hright⟩ i hi
      cases h
      have hrow := List.map_inj_left.mp (hright.symm.trans hrows) i (List.mem_range.mpr hi)
      exact congrArg Prod.snd hrow
    · intro h
      refine ⟨l, rfl, hrows.trans (List.map_congr_left fun i hi => ?_)⟩
      rw [h i (List.mem_range.mp hi)]
  · rw [hdumped, if_neg (hc ▸ nofun), if_neg nofun]
    exact list64_object ho hr hc

omit ho in
theorem list_sect_headers_object {l : Listing} :
    list_sect_headers E.dumped = .ok (some l) ↔ listing E.dumped = .ok l := by
  have htable : E.table ≠ 2 ^ 64 - 1 := by
    have hend := hr.table
    have hsize := E.image.size
    unfold bytes at hend
    omega
  unfold list_sect_headers
  rw [if_neg (by rintro (h | h); exacts [h rfl, htable h]), bind_ok]
  constructor
  · rintro ⟨_, hl, h⟩
    cases h
    exact hl
  · intro hl
    exact ⟨l, hl, rfl⟩

theorem sec_object {r : Option Listing} : sec E.image = .ok r ↔
    E.tabsize < 2 ^ 31 ∧ E.e_shentsize * E.e_shstrndx < 2 ^ 31 ∧
      list_sect_headers E.dumped = .ok r := by
  unfold sec
  rw [identify_object, ok_bind, bind_ok]
  constructor
  · rintro ⟨⟨g, text⟩, hd, hl⟩
    obtain ⟨htab, hindex, rfl⟩ := (string_dump_object ho hr).mp ⟨text, hd⟩
    exact ⟨htab, hindex, hl⟩
  · rintro ⟨htab, hindex, hl⟩
    obtain ⟨text, hd⟩ := (string_dump_object ho hr).mpr ⟨htab, hindex, rfl⟩
    exact ⟨_, hd, hl⟩

theorem listed_iff : E.Listed ↔
    E.tabsize < 2 ^ 31 ∧ E.e_shentsize * E.e_shstrndx < 2 ^ 31 ∧ E.Steps := by
  unfold Listed
  rw [← listing_object ho hr]
  constructor
  · rintro ⟨l, hl, hrows⟩
    obtain ⟨htab, hindex, hl⟩ := (sec_object ho hr).mp hl
    exact ⟨htab, hindex, l, (list_sect_headers_object hr).mp hl, hrows⟩
  · rintro ⟨htab, hindex, l, hl, hrows⟩
    exact ⟨l, (sec_object ho hr).mpr ⟨htab, hindex, (list_sect_headers_object hr).mpr hl⟩, hrows⟩

end

/-- An image of class 32 with two sections, the second of which has the names. -/
def two32 : Object where
  image := ⟨[0x7f, 0x45, 0x4c, 0x46, 1, 1, 1] ++ List.replicate 9 0 ++
    [1, 0, 3, 0, 1, 0, 0, 0, 0, 0, 0, 0, 0, 0, 0, 0, 52, 0, 0, 0, 0, 0, 0, 0] ++
    [52, 0, 0, 0, 0, 0, 40, 0, 2, 0, 1, 0] ++
    List.replicate 40 0 ++
    [1, 0, 0, 0, 3, 0, 0, 0, 0, 0, 0, 0, 0, 0, 0, 0, 132, 0, 0, 0, 3, 0, 0, 0] ++
    List.replicate 16 0 ++ [0, 0x61, 0], by decide +kernel⟩
  class_ := .ELFCLASS32
  order := .little
  known := by decide
  ident := by decide

/-- In class 32 the second row is that of the first header. -/
theorem listed_outside : two32.order = host ∧ two32.InRange ∧
    two32.entry 1 = ⟨[0x61], "STRTAB", 0, 132, 3⟩ ∧
    sec two32.image = .ok (some ⟨2, 52, [(0, ⟨[], "NULL", 0, 0, 0⟩), (1, ⟨[], "NULL", 0, 0, 0⟩)]⟩) ∧
    ¬ two32.Listed := by
  have hsec : sec two32.image =
      .ok (some ⟨2, 52, [(0, ⟨[], "NULL", 0, 0, 0⟩), (1, ⟨[], "NULL", 0, 0, 0⟩)]⟩) := by
    decide +kernel
  refine ⟨rfl, by decide +kernel, by decide +kernel, hsec, ?_⟩
  rintro ⟨l, hl, hrows⟩
  rw [hsec] at hl
  cases hl
  revert hrows
  decide +kernel

/-- The same in class 64. -/
def two64 : Object where
  image := ⟨[0x7f, 0x45, 0x4c, 0x46, 2, 1, 1] ++ List.replicate 9 0 ++
    [1, 0, 62, 0, 1, 0, 0, 0] ++ List.replicate 16 0 ++ [64, 0, 0, 0, 0, 0, 0, 0] ++
    [0, 0, 0, 0, 64, 0, 0, 0, 0, 0, 64, 0, 2, 0, 1, 0] ++
    List.replicate 64 0 ++
    [1, 0, 0, 0, 3, 0, 0, 0] ++ List.replicate 16 0 ++
    [192, 0, 0, 0, 0, 0, 0, 0, 3, 0, 0, 0, 0, 0, 0, 0] ++
    List.replicate 24 0 ++ [0, 0x61, 0], by decide +kernel⟩
  class_ := .ELFCLASS64
  order := .little
  known := by decide
  ident := by decide

theorem listed_two : two64.Listed :=
  (listed_iff rfl (by decide +kernel)).mpr
    ⟨by decide +kernel, by decide +kernel, by decide +kernel⟩

end Object

end Cs720.Elf
