import Cs720.Link.Object
import Cs720.Vm.Load

/-! # Loading the insymbols

The insymbols of a file are put in front of the list, so the last of a name is found.
-/

namespace Cs720.Vm

open Cs720.Lib Cs720.Link

/-- An executable: its insymbols, one of which is the entry point, and its code. -/
structure Program where
  insyms : List Entry
  code : List Word
  entry : Word
  main : insyms.filter (fun e => e.name.bytes = mainx20) = [⟨Link.mainx20, entry⟩]
  fits : code.length ≤ MEM_SIZE

theorem oneWord_fits : ([0] : List Word).length ≤ MEM_SIZE := by decide

/-- The file holds the program. -/
structure Program.In (p : Program) (fp : File) : Prop where
  layout : ∃ (n₀ n₂ : Word) (syms tail : List Word),
    fp.words = [n₀, 0, n₂] ++ syms ++ p.code ++ tail ∧ n₀.toInt = (syms.length : Int) ∧
      n₂.toInt = (p.code.length : Int) ∧ Lists syms p.insyms

/-- The file of the program, with nothing behind its sections. -/
def Program.file (p : Program) : File where
  words := [BitVec.ofNat 32 (5 * p.insyms.length), 0, BitVec.ofNat 32 p.code.length] ++
    sectionWords p.insyms ++ p.code
  rest := []
  short := File.short_nil

/-- The names fit in 16 bytes with the zero behind them. -/
def Short (l : List Entry) : Prop := ∀ e ∈ l, e.name.bytes.length < 16

instance decidableShort (l : List Entry) : Decidable (Short l) :=
  inferInstanceAs (Decidable (∀ e ∈ l, _))

/-- The list of symbols after the insymbols are put in front. -/
def Symbols.push (s : Symbols) : List Entry → Symbols
  | [] => s
  | e :: l => (Symbols.node e.name.bytes e.address s).push l

/-- The VM with the program loaded. -/
def VM.withProgram (vm : VM) (p : Program) : VM :=
  { vm with
    memory := withCode vm.memory p.code
    entryPoint := p.entry
    progEnd := BitVec.ofNat 32 p.code.length
    symbols := vm.symbols.push p.insyms }

/-! ## The loop over the insymbols -/

/-- The buffer has the insymbol at the position `t`. -/
structure HasEntry (buffer : Nat → Word) (t : Nat) (e : Entry) : Prop where
  name : Name.ofWords (fun k => buffer (t + k)) = e.name
  address : buffer (t + 4) = e.address

/-- The buffer has the insymbols, from the `a`-th on. -/
def HasEntries (buffer : Nat → Word) (a : Nat) (l : List Entry) : Prop :=
  ∀ k e, l[k]? = some e → HasEntry buffer (5 * (a + k)) e

def positions (a n : Nat) : List Nat := (List.range' a n).map (5 * ·)

section
variable {buffer : Nat → Word} {vm : VM} {mainFound : Bool} {a t : Nat} {e : Entry} {l : List Entry}
  {r : Loaded}

theorem hasEntries_cons : HasEntries buffer a (e :: l) ↔
    HasEntry buffer (5 * a) e ∧ HasEntries buffer (a + 1) l := by
  constructor
  · intro h
    refine ⟨h 0 e rfl, ?_⟩
    intro k d hd
    rw [show a + 1 + k = a + (k + 1) by omega]
    exact h (k + 1) d hd
  · rintro ⟨he, hl⟩ (_ | k) d hd
    · obtain rfl : e = d := by simpa using hd
      exact he
    · rw [show a + (k + 1) = a + 1 + k by omega]
      exact hl k d hd

theorem positions_succ (a n : Nat) : positions a (n + 1) = 5 * a :: positions (a + 1) n := by
  unfold positions
  rw [List.range'_succ, List.map_cons]

theorem copyName_short (h : HasEntry buffer t e) (hs : e.name.bytes.length < 16) :
    copyName (fun k => buffer (t + k)) = .ok e.name.bytes := by
  rw [← h.name] at hs ⊢
  exact if_pos hs

theorem copyName_long (h : HasEntry buffer t e) (hs : ¬ e.name.bytes.length < 16) :
    copyName (fun k => buffer (t + k)) = .error .fault := by
  rw [← h.name] at hs
  exact if_neg hs

/-- The rest of the insymbols, after `mainx20`. -/
theorem parse_rest (h : HasEntries buffer a l) (hs : Short l)
    (hm : l.filter (fun e => e.name.bytes = mainx20) = []) :
    parseInsymbols buffer vm true (positions a l.length) =
      .ok ⟨1, none, { vm with symbols := vm.symbols.push l }⟩ := by
  induction l generalizing a vm with
  | nil => rfl
  | cons e l ih =>
    rw [hasEntries_cons] at h
    obtain ⟨he, hl⟩ := h
    obtain ⟨hse, hsl⟩ := List.forall_mem_cons.mp hs
    have hne : e.name.bytes ≠ mainx20 := by
      intro hmain
      rw [List.filter_cons_of_pos (by simpa using hmain)] at hm
      cases hm
    rw [List.filter_cons_of_neg (by simpa using hne)] at hm
    rw [List.length_cons, positions_succ, parse_name (copyName_short he hse) hne, he.address,
      ih hl hsl hm]
    rfl

theorem parse_short {entry : Word} (h : HasEntries buffer a l) (hs : Short l)
    (hm : l.filter (fun e => e.name.bytes = mainx20) = [⟨Link.mainx20, entry⟩]) :
    parseInsymbols buffer vm false (positions a l.length) =
      .ok ⟨1, none, { vm with symbols := vm.symbols.push l, entryPoint := entry }⟩ := by
  induction l generalizing a vm with
  | nil => cases hm
  | cons e l ih =>
    rw [hasEntries_cons] at h
    obtain ⟨he, hl⟩ := h
    obtain ⟨hse, hsl⟩ := List.forall_mem_cons.mp hs
    rw [List.length_cons, positions_succ]
    by_cases hmain : e.name.bytes = mainx20
    · rw [List.filter_cons_of_pos (by simpa using hmain)] at hm
      obtain ⟨rfl, hrest⟩ := List.cons.inj hm
      rw [parse_main (copyName_short he hse), he.address, parse_rest hl hsl hrest]
      rfl
    · rw [List.filter_cons_of_neg (by simpa using hmain)] at hm
      rw [parse_name (copyName_short he hse) hmain, he.address, ih hl hsl hm]
      rfl

/-- A load that succeeds has copied each name. -/
theorem short_of_parse (h : HasEntries buffer a l)
    (hr : parseInsymbols buffer vm mainFound (positions a l.length) = .ok r)
    (hsuccess : r.success = 1) : Short l := by
  induction l generalizing a vm mainFound with
  | nil => exact List.forall_mem_nil _
  | cons e l ih =>
    rw [hasEntries_cons] at h
    obtain ⟨he, hl⟩ := h
    rw [List.length_cons, positions_succ, parseInsymbols, bind_ok] at hr
    obtain ⟨name, hname, hr⟩ := hr
    have hse : e.name.bytes.length < 16 := by
      by_contra hlong
      rw [copyName_long he hlong] at hname
      cases hname
    refine List.forall_mem_cons.mpr ⟨hse, ?_⟩
    dsimp only at hr
    split at hr
    · split at hr
      · cases hr
        exact absurd hsuccess (show ¬ (0 : Int) = 1 by decide)
      · exact ih hl hr
    · exact ih hl hr

end

/-! ## Loading a program -/

section
variable {junk : Nat → Word} {vm : VM} {fp : File} {p : Program} {syms : List Word} {l : List Entry}
  {label : List Byte}

variable (junk) in
theorem hasEntries_symbuffer (h : Lists syms l) : HasEntries (symbuffer syms junk) 0 l := by
  intro k e hk
  obtain ⟨hname, haddr⟩ := h.entry k e hk
  obtain ⟨hlt, -⟩ := List.getElem?_eq_some_iff.mp hk
  have hlen := h.length
  have hget (j : Nat) (hj : j < 5) :
      symbuffer syms junk (5 * (0 + k) + j) = syms.getD (5 * k + j) 0 := by
    unfold symbuffer
    rw [if_pos (by omega), Nat.zero_add]
  refine ⟨?_, ?_⟩
  · rw [← hname]
    exact Name.ofWords_congr fun j hj => hget j (by omega)
  · rw [← haddr]
    exact hget 4 (by omega)

theorem in_file (hsize : 5 * p.insyms.length < 2 ^ 31) : p.In p.file := by
  have hfits := p.fits
  unfold MEM_SIZE at hfits
  refine ⟨_, _, sectionWords p.insyms, [], (List.append_nil _).symm, ?_, ofNat_toInt (by omega),
    lists_sectionWords _⟩
  rw [length_sectionWords]
  exact ofNat_toInt hsize

variable (junk vm) in
/-- The load reads the sections, and then the insymbols are parsed. -/
theorem load_in (h : p.In fp) : ∃ buffer, HasEntries buffer 0 p.insyms ∧
    loadExecutableFile junk vm (some fp) = parseInsymbols buffer
      { vm with memory := withCode vm.memory p.code
                progEnd := BitVec.ofNat 32 p.code.length } false
      (positions 0 p.insyms.length) := by
  obtain ⟨n₀, n₂, syms, tail, hw, hs, hc, hlists⟩ := h.layout
  refine ⟨_, hasEntries_symbuffer junk hlists, ?_⟩
  rw [load_sections hw hs hc p.fits, hlists.length, offsets_five]
  rfl

theorem withProgram_memory {k : Nat} {w : Word} (hk : p.code[k]? = some w) :
    (vm.withProgram p).memory (BitVec.ofNat 32 k) = w := by
  have hfits := p.fits
  unfold MEM_SIZE at hfits
  obtain ⟨hlt, -⟩ := List.getElem?_eq_some_iff.mp hk
  have hnat : (BitVec.ofNat 32 k).toNat = k := by
    rw [BitVec.toNat_ofNat, Nat.mod_eq_of_lt (by omega)]
  unfold VM.withProgram withCode
  dsimp only
  rw [hnat, if_pos hlt, List.getD_eq_getElem?_getD, hk, Option.getD_some]

theorem withProgram_progEnd : (vm.withProgram p).progEnd.toNat = p.code.length := by
  have hfits := p.fits
  unfold MEM_SIZE at hfits
  unfold VM.withProgram
  rw [BitVec.toNat_ofNat, Nat.mod_eq_of_lt (by omega)]

theorem load_program (h : p.In fp) (hs : Short p.insyms) :
    loadExecutableFile junk vm (some fp) = .ok ⟨1, none, vm.withProgram p⟩ := by
  obtain ⟨buffer, hentries, hload⟩ := load_in junk vm h
  rw [hload, parse_short hentries hs p.main]
  rfl

theorem short_of_load (h : p.In fp) {r : Loaded}
    (hr : loadExecutableFile junk vm (some fp) = .ok r) (hsuccess : r.success = 1) :
    Short p.insyms := by
  obtain ⟨buffer, hentries, hload⟩ := load_in junk vm h
  rw [hload] at hr
  exact short_of_parse hentries hr hsuccess

variable (l label) in
/-- The label is found among the new symbols, or else among the old ones. -/
theorem find_push (s : Symbols) :
    (∃ e ∈ l, e.name.bytes = label ∧ (s.push l).find label = .ok (some e.address)) ∨
      (∀ e ∈ l, e.name.bytes ≠ label) ∧ (s.push l).find label = s.find label := by
  induction l generalizing s with
  | nil => exact .inr ⟨List.forall_mem_nil _, rfl⟩
  | cons e l ih =>
    rcases ih (.node e.name.bytes e.address s) with ⟨d, hd, hname, hfind⟩ | ⟨hne, hfind⟩
    · exact .inl ⟨d, List.mem_cons_of_mem _ hd, hname, hfind⟩
    · rw [Symbols.find] at hfind
      by_cases hname : e.name.bytes = label
      · rw [if_pos hname] at hfind
        exact .inl ⟨e, List.mem_cons_self, hname, hfind⟩
      · rw [if_neg hname] at hfind
        exact .inr ⟨List.forall_mem_cons.mpr ⟨hname, hne⟩, hfind⟩

end

/-! ## How many symbols there are -/

def Symbols.names : Symbols → List (List Byte)
  | .null | .wild => []
  | .node name _ next => name :: next.names

section
variable {junk buffer : Nat → Word} {vm : VM} {fp : File} {r : Loaded} {mainFound : Bool}
  {ts : List Nat}

theorem mem_names {s : Symbols} {label : List Byte} {a : Word}
    (h : s.find label = .ok (some a)) : label ∈ s.names := by
  induction s with
  | null => cases h
  | wild => cases h
  | node name address next ih =>
    rw [Symbols.find] at h
    split at h
    · rename_i hname
      exact hname ▸ List.mem_cons_self
    · exact List.mem_cons_of_mem _ (ih h)

theorem length_names_parse (h : parseInsymbols buffer vm mainFound ts = .ok r) :
    r.vm.symbols.names.length ≤ vm.symbols.names.length + ts.length := by
  induction ts generalizing vm mainFound with
  | nil =>
    unfold parseInsymbols at h
    split at h <;> cases h <;> exact le_rfl
  | cons t ts ih =>
    rw [parseInsymbols, bind_ok] at h
    obtain ⟨name, -, h⟩ := h
    dsimp only at h
    rw [List.length_cons]
    split at h
    · split at h
      · cases h
        change vm.symbols.names.length + 1 ≤ _
        omega
      · have hle : _ ≤ vm.symbols.names.length + 1 + ts.length := ih h
        omega
    · have hle : _ ≤ vm.symbols.names.length + 1 + ts.length := ih h
      omega

end

/-! ## What a load does -/

/-- The lengths of the sections, as the file has them. -/
def lengths (fp : File) : Nat → Word := fp.fread 0 3 fun _ => 0

/-- The position of the code. -/
def codePos (fp : File) : Nat :=
  if 3 + (lengths fp 0).toInt < 0 then 3 else (3 + (lengths fp 0).toInt).toNat

def codeCount (fp : File) : Nat := ((lengths fp 2).signExtend 64).toNat

def wordsRead (fp : File) : Nat := fp.available (codePos fp) (codeCount fp)

/-- The VM after the code is read. -/
def VM.withRead (vm : VM) (fp : File) : VM :=
  { vm with
    memory := fun a =>
      fp.fread (codePos fp) (codeCount fp) (fun k => vm.memory (BitVec.ofNat 32 k)) a.toNat
    progEnd := BitVec.ofNat 32 (wordsRead fp) }

/-- The insymbols cannot be read: their length is negative, and there is something to read. -/
def NoBuffer (fp : File) : Prop :=
  (lengths fp 0).toInt < 0 ∧ (3 < fp.words.length ∨ fp.words.length = 3 ∧ fp.rest ≠ [])

instance decidableNoBuffer (fp : File) : Decidable (NoBuffer fp) :=
  inferInstanceAs (Decidable (_ ∧ _))

section
variable {junk : Nat → Word} {vm : VM} {fp : File} {r : Loaded}

theorem load_eq : loadExecutableFile junk vm (some fp) =
    if lengths fp 1 ≠ 0 then .ok ⟨0, some VMX20_FILE_CONTAINS_OUTSYMBOLS, vm⟩
    else if NoBuffer fp then .error .fault
    else if MEM_SIZE < wordsRead fp then .error .fault
    else if wordsRead fp ≠ codeCount fp then .ok ⟨0, some VMX20_FILE_IS_NOT_VALID, vm.withRead fp⟩
    else parseInsymbols (fp.fread 3 (lengths fp 0).toInt.toNat junk) (vm.withRead fp) false
      (offsets (lengths fp 0).toInt) := by
  unfold loadExecutableFile loading
  simp only [apply_ite Loading.result, File.putAll_stores]
  rfl

/-- The sections are read: every check before the insymbols is passed. -/
structure SectionsRead (fp : File) : Prop where
  outsyms : lengths fp 1 = 0
  buffer : ¬ NoBuffer fp
  fits : wordsRead fp ≤ MEM_SIZE
  code : wordsRead fp = codeCount fp

theorem sectionsRead_of_load (h : loadExecutableFile junk vm (some fp) = .ok r)
    (hsuccess : r.success = 1) : SectionsRead fp := by
  have hfail (n : Int) (vm' : VM) : (.ok ⟨0, some n, vm'⟩ : C Loaded) ≠ .ok r := by
    intro heq
    cases heq
    exact absurd hsuccess (show ¬ (0 : Int) = 1 by decide)
  rw [load_eq] at h
  split at h
  · exact absurd h (hfail _ _)
  rename_i houtsyms
  split at h
  · cases h
  rename_i hbuffer
  split at h
  · cases h
  rename_i hfits
  split at h
  · exact absurd h (hfail _ _)
  rename_i hcode
  exact ⟨not_not.mp houtsyms, hbuffer, Nat.not_lt.mp hfits, not_not.mp hcode⟩

variable (junk vm) in
/-- With the sections read, the load parses the insymbols, as many as the first length says. -/
theorem load_sectionsRead (h : SectionsRead fp) : loadExecutableFile junk vm (some fp) =
    parseInsymbols (fp.fread 3 (lengths fp 0).toInt.toNat junk) (vm.withRead fp) false
      (offsets (lengths fp 0).toInt) := by
  rw [load_eq, if_neg (not_not_intro h.outsyms), if_neg h.buffer, if_neg (Nat.not_lt.mpr h.fits),
    if_neg (not_not_intro h.code)]

theorem parsed_of_load (h : loadExecutableFile junk vm (some fp) = .ok r)
    (hsuccess : r.success = 1) : parseInsymbols (fp.fread 3 (lengths fp 0).toInt.toNat junk)
      (vm.withRead fp) false (offsets (lengths fp 0).toInt) = .ok r := by
  rw [← load_sectionsRead junk vm (sectionsRead_of_load h hsuccess)]
  exact h

end

end Cs720.Vm
