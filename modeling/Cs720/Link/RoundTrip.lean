import Cs720.Link.Linked
import Cs720.Vm.Executable

/-! # Loading what the linker writes

The linker supports names of 16 bytes. The loader copies a name to 16 bytes with the zero behind it.
-/

namespace Cs720.Link

open Cs720.Lib Cs720.Vm

/-- The file that the linker writes. -/
def Output.file (out : Output) : File := ⟨out.words, [], File.short_nil⟩

/-- The code is in memory, the entry point is that of `mainx20`, and each insymbol is found. -/
structure Usable (os : List Object) (out : Output) (vm : VM) : Prop where
  memory : ∀ k w, out.code[k]? = some w → vm.memory (BitVec.ofNat 32 k) = w
  progEnd : vm.progEnd.toNat = out.code.length
  entryPoint : (⟨mainx20, vm.entryPoint⟩ : Entry) ∈ defs 0 os
  symbols : ∀ d ∈ defs 0 os, getAddress vm d.name.bytes = .ok (some d.address)

/-- The load succeeds, and the program can be used. -/
def LoadsTo (os : List Object) (out : Output) (result : C Loaded) : Prop :=
  ∃ r, result = .ok r ∧ r.success = 1 ∧ Usable os out r.vm

/-! ## The executable -/

section
variable {l : List Entry} {os : List Object} {out : Output}

theorem bytes_mainx20 {name : Name} : name.bytes = Vm.mainx20 ↔ name = mainx20 := by
  rw [Name.ext_iff]
  rfl

theorem filter_main (hd : Distinct l) (h : (l.any fun e => e.name = mainx20) = true) :
    ∃ a, l.filter (fun e => e.name.bytes = Vm.mainx20) = [⟨mainx20, a⟩] := by
  simp only [bytes_mainx20]
  induction l with
  | nil => cases h
  | cons e l ih =>
    unfold Distinct at hd ih
    rw [List.map_cons, List.nodup_cons] at hd
    by_cases he : e.name = mainx20
    · have hrest : l.filter (fun d => d.name = mainx20) = [] := by
        rw [List.filter_eq_nil_iff]
        intro d hmem hname
        rw [decide_eq_true_eq] at hname
        exact hd.1 (he.trans hname.symm ▸ List.mem_map_of_mem hmem)
      refine ⟨e.address, ?_⟩
      rw [List.filter_cons_of_pos (by simpa using he), hrest, ← he]
    · rw [List.filter_cons_of_neg (by simpa using he)]
      refine ih hd.2 ?_
      simpa [he] using h

/-- The linked program, if the link gives an executable. -/
theorem linked_program (hd : Distinct (os.flatMap Object.insyms))
    (hexe : (linked os).is_object = false) (hfits : (codes os).length ≤ MEM_SIZE) :
    ∃ p : Program, p.insyms.Perm (defs 0 os) ∧ p.code = (linked os).code ∧
      (linked os).file = p.file := by
  have hobject : (!os.any Object.hasMain || !(merged os).outsyms.isEmpty) = false := hexe
  rw [Bool.or_eq_false_iff, Bool.not_eq_false', Bool.not_eq_false', List.isEmpty_iff,
    any_hasMain 0, ← merged_insyms.any_eq] at hobject
  obtain ⟨hmain, houts⟩ := hobject
  have hdist : Distinct (merged os).insyms := distinct_extracted hd
  obtain ⟨entry, hentry⟩ := filter_main hdist hmain
  refine ⟨⟨(merged os).insyms, (merged os).code, entry, hentry, ?_⟩, merged_insyms, rfl, ?_⟩
  · rwa [length_merged]
  · unfold Output.file linked Program.file
    dsimp only
    rw [File.mk.injEq, output_words]
    unfold Object.words Object.header
    rw [houts]
    simp [sectionWords]

end

/-! ## The load -/

section
variable {os : List Object} {out : Output} {p : Program} {vm : VM} {buffer : Nat → Word}
  {r : Loaded}

theorem lengths_file : lengths p.file 0 = BitVec.ofNat 32 (5 * p.insyms.length) := by
  unfold lengths File.fread Program.file File.available
  simp

theorem usable_program (hd : Distinct (defs 0 os)) (hperm : p.insyms.Perm (defs 0 os))
    (hcode : p.code = out.code) : Usable os out (vm.withProgram p) := by
  refine ⟨?_, ?_, ?_, ?_⟩
  · rw [← hcode]
    exact fun _ _ => withProgram_memory
  · rw [← hcode]
    exact withProgram_progEnd
  · rw [← hperm.mem_iff]
    have hmem : (⟨mainx20, p.entry⟩ : Entry) ∈ p.insyms.filter fun e => e.name.bytes = Vm.mainx20 := by
      rw [p.main]
      exact List.mem_singleton_self _
    exact List.mem_of_mem_filter hmem
  · intro d hmem
    rcases find_push p.insyms d.name.bytes vm.symbols with
      ⟨e, he, hname, hfind⟩ | ⟨hne, -⟩
    · have heq : e = d := List.inj_on_of_nodup_map hd (hperm.mem_iff.mp he) hmem (Name.ext hname)
      rw [← heq]
      exact hname ▸ hfind
    · exact absurd rfl (hne d (hperm.mem_iff.mpr hmem))

theorem size_of_offsets {n : Nat} (h : n ≤ (offsets (BitVec.ofNat 32 (5 * n)).toInt).length) :
    5 * n < 2 ^ 31 := by
  have hlen (z : Int) : (offsets z).length = (z.toNat + 4) / 5 := by
    unfold offsets
    rw [List.length_map, List.length_range]
  rw [hlen] at h
  have hmod := Nat.mod_add_div (5 * n) (2 ^ 32)
  rcases Nat.lt_or_ge (5 * n % 2 ^ 32) (2 ^ 31) with hlt | hge
  · rw [BitVec.toInt_eq_toNat_of_lt (by rw [BitVec.toNat_ofNat]; omega), Int.toNat_natCast,
      BitVec.toNat_ofNat] at h
    omega
  · have hneg : (BitVec.ofNat 32 (5 * n)).toInt < 0 := by
      rw [BitVec.toInt_eq_toNat_cond, BitVec.toNat_ofNat]
      omega
    omega

/-- A load that finds all insymbols has read the length of their section. -/
theorem size_of_load (hd : Distinct (defs 0 os)) (hnull : vm.symbols = .null)
    (hlen : lengths out.file 0 = BitVec.ofNat 32 (5 * (defs 0 os).length))
    (hload : loadExecutableFile buffer vm (some out.file) = .ok r) (hsuccess : r.success = 1)
    (hfind : ∀ d ∈ defs 0 os, getAddress r.vm d.name.bytes = .ok (some d.address)) :
    5 * (defs 0 os).length < 2 ^ 31 := by
  have hparse := length_names_parse (parsed_of_load hload hsuccess)
  have hnames : (((defs 0 os).map Entry.name).map Name.bytes).Subperm r.vm.symbols.names := by
    refine List.Nodup.subperm (hd.map fun _ _ => Name.ext) ?_
    intro label hlabel
    rw [List.map_map] at hlabel
    obtain ⟨d, hmem, rfl⟩ := List.mem_map.mp hlabel
    exact mem_names (hfind d hmem)
  have hle := hnames.length_le
  have hsymbols : (vm.withRead out.file).symbols.names.length = 0 := by
    rw [show (vm.withRead out.file).symbols = vm.symbols from rfl, hnull]
    rfl
  rw [List.length_map, List.length_map] at hle
  rw [hsymbols, hlen, Nat.zero_add] at hparse
  exact size_of_offsets (hle.trans hparse)

theorem short_perm {l l' : List Entry} (h : (l.map Entry.name).Perm (l'.map Entry.name)) :
    Short l ↔ Short l' := by
  have hnames (l : List Entry) : Short l ↔ ∀ name ∈ l.map Entry.name, name.bytes.length < 16 := by
    unfold Short
    rw [List.forall_mem_map]
  rw [hnames, hnames]
  exact forall_congr' fun name => by rw [h.mem_iff]

/-- A linked executable can be loaded if and only if each name is shorter than 16 bytes, and the
length of the insymbols is an `int`. -/
theorem round_trip {junk : Nat → Word} {files : List (List Word)}
    (h : List.Forall₂ Holds files os) (hwf : ∀ o ∈ os, o.WellFormed)
    (hd : Distinct (os.flatMap Object.insyms)) (hlink : link junk files = .ok out)
    (hexe : out.is_object = false) (hfits : (codes os).length ≤ MEM_SIZE)
    (hnull : vm.symbols = .null) :
    LoadsTo os out (loadExecutableFile buffer vm (some out.file)) ↔
      Short (os.flatMap Object.insyms) ∧ 5 * (os.flatMap Object.insyms).length < 2 ^ 31 := by
  have hcode : codes os ≠ [] := by
    intro hcode
    rw [link_empty h hcode] at hlink
    cases hlink
  rw [link_holds h hwf hd hcode] at hlink
  obtain rfl : linked os = out := Except.ok.inj hlink
  obtain ⟨p, hperm, hpcode, hfile⟩ := linked_program hd hexe hfits
  have hdist : Distinct (defs 0 os) := distinct_defs.mpr hd
  have hnames : ((os.flatMap Object.insyms).map Entry.name).Perm (p.insyms.map Entry.name) := by
    rw [← names_defs]
    exact (hperm.map _).symm
  have hshort : Short (os.flatMap Object.insyms) ↔ Short p.insyms := short_perm hnames
  have hlen : (os.flatMap Object.insyms).length = p.insyms.length := by
    simpa using hnames.length_eq
  rw [hshort, hlen]
  constructor
  · rintro ⟨r, hload, hsuccess, husable⟩
    have hsize : 5 * p.insyms.length < 2 ^ 31 := by
      rw [hperm.length_eq]
      refine size_of_load hdist hnull ?_ hload hsuccess husable.symbols
      rw [← hperm.length_eq, hfile]
      exact lengths_file
    rw [hfile] at hload
    exact ⟨short_of_load (in_file hsize) hload hsuccess, hsize⟩
  · rintro ⟨hs, hsize⟩
    rw [hfile]
    exact ⟨_, load_program (in_file hsize) hs, rfl, usable_program hdist hperm hpcode⟩

end

/-- Two `halt`s: the entry point is the first one, another insymbol the second. -/
def halts (name : Name) : Object := ⟨[⟨mainx20, 0⟩, ⟨name, 1⟩], [], [0, 0]⟩

/-- A name of 16 bytes. -/
def longName : Name := ⟨List.replicate 16 0x61, by decide, by decide⟩

theorem holds_halts (name : Name) : List.Forall₂ Holds [(halts name).words] [halts name] :=
  .cons (holds_words (show 5 * (2 + 0) < 2 ^ 31 by decide) (show 2 < 2 ^ 32 by decide)) .nil

theorem wellFormed_halts (name : Name) : ∀ o ∈ [halts name], o.WellFormed := by
  rw [List.forall_mem_singleton]
  exact ⟨nofun, List.nodup_nil⟩

theorem link_halts {name : Name} (h : Distinct ([halts name].flatMap Object.insyms)) :
    link (fun _ => 0) [(halts name).words] = .ok (linked [halts name]) :=
  link_holds (holds_halts name) (wellFormed_halts name) h (by simp [codes, halts])

theorem round_trip_short : LoadsTo [halts nameF] (linked [halts nameF])
    (loadExecutableFile (fun _ => 0) blank (some (linked [halts nameF]).file)) := by
  have hlink : link (fun _ => 0) [(halts nameF).words] = .ok (linked [halts nameF]) :=
    link_halts (by decide)
  exact (round_trip (holds_halts nameF) (wellFormed_halts nameF) (by decide) hlink (by decide)
    (by decide) rfl).mpr (by decide)

/-- The program with the long name, in the order in which the linker writes its insymbols. -/
def longProgram : Program where
  insyms := [⟨longName, 1⟩, ⟨mainx20, 0⟩]
  code := [0, 0]
  entry := 0
  main := by decide
  fits := by decide

/-- The zero behind a name of 16 bytes is written behind its block. -/
theorem round_trip_long :
    link (fun _ => 0) [(halts longName).words] = .ok (linked [halts longName]) ∧
    (linked [halts longName]).is_object = false ∧
    loadExecutableFile (fun _ => 0) blank (some (linked [halts longName]).file) = .error .fault ∧
    ¬ LoadsTo [halts longName] (linked [halts longName])
      (loadExecutableFile (fun _ => 0) blank (some (linked [halts longName]).file)) := by
  have hfault : loadExecutableFile (fun _ => 0) blank (some (linked [halts longName]).file) =
      .error .fault := by
    have hfile : longProgram.In (linked [halts longName]).file := in_file (by decide)
    obtain ⟨buffer, hentries, hload⟩ := load_in (fun _ => 0) blank hfile
    obtain ⟨hlong, -⟩ := hasEntries_cons.mp hentries
    rw [hload, show longProgram.insyms.length = 1 + 1 from rfl, positions_succ, parseInsymbols,
      copyName_long hlong (by decide), error_bind]
  refine ⟨link_halts (by decide), by decide, hfault, ?_⟩
  rw [hfault]
  rintro ⟨r, hr, -⟩
  cases hr

end Cs720.Link
