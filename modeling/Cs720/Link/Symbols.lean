import Cs720.Link.Incremental

/-! # The symbol sections of the output

The addresses in the files are numbers here, and the sums do not wrap.
-/

namespace Cs720.Link

open Cs720.Lib

/-- The name, and the address when `offset` words are laid out before the file. -/
def Entry.placed (offset : Nat) (e : Entry) : Name × Nat := (e.name, offset + e.address.toNat)

/-- Symbols of all objects, with their places. -/
def positions (symbols : Object → List Entry) : Nat → List Object → List (Name × Nat)
  | _, [] => []
  | offset, o :: os =>
    (symbols o).map (Entry.placed offset) ++ positions symbols (offset + o.code.length) os

/-- A file defines the name. -/
def Defined (os : List Object) (name : Name) : Prop :=
  name ∈ (os.flatMap Object.insyms).map Entry.name

instance (os : List Object) (name : Name) : Decidable (Defined os name) :=
  inferInstanceAs (Decidable (_ ∈ _))

/-- The outsymbols that no file defines. -/
def unresolvedPositions (os : List Object) : List (Name × Nat) :=
  (positions Object.outsyms 0 os).filter fun s => ¬ Defined os s.1

/-- The output lists each insymbol, and each outsymbol that no file defines. -/
structure Tables (os : List Object) (out : Output) : Prop where
  insyms : ∃ l, Lists out.insyms l ∧
    (l.map (Entry.placed 0)).Perm (positions Object.insyms 0 os)
  outsyms : ∃ l, Lists out.outsyms l ∧
    (l.map (Entry.placed 0)).Perm (unresolvedPositions os)
  header : (out.words.take 3).map BitVec.toNat =
    [out.insyms.length, out.outsyms.length, out.code.length]
  named : out.is_object = true ↔
    (∃ s ∈ positions Object.outsyms 0 os, ¬ Defined os s.1) ∨ ¬ Defined os mainx20

/-- Duplicates are an error, and otherwise the sections are right. -/
structure LinksSymbols (os : List Object) (result : C Output) : Prop where
  duplicate : result = .error (.exit 1) ↔ ¬ Distinct (os.flatMap Object.insyms)
  output : Distinct (os.flatMap Object.insyms) → ∃ out, result = .ok out ∧ Tables os out

/-- The lengths and the addresses fit a word, and the outsymbols that are resolved are in the
code. -/
structure InRange (os : List Object) : Prop where
  code : (codes os).length < 2 ^ 32
  outsyms : 5 * (unresolvedPositions os).length < 2 ^ 32
  insyms : ∀ s ∈ positions Object.insyms 0 os, s.2 < 2 ^ 32
  resolved : ∀ s ∈ positions Object.outsyms 0 os, Defined os s.1 → s.2 < (codes os).length
  unresolved : ∀ s ∈ positions Object.outsyms 0 os, ¬ Defined os s.1 → s.2 < 2 ^ 32

/-! ## Places -/

section
variable {os : List Object} {offset : Nat} {l : List Entry} {ps : List (Name × Nat)} {name : Name}

def Ref.place (r : Ref) : Name × Nat := (r.name, r.pos)

theorem places_refs : (refs offset os).map Ref.place = positions Object.outsyms offset os := by
  induction os generalizing offset with
  | nil => rfl
  | cons o os ih =>
    rw [refs, List.map_append, ih, List.map_map, positions]
    rfl

/-- The addresses that the linker writes, if they fit. -/
theorem placed_defs (h : ∀ s ∈ positions Object.insyms offset os, s.2 < 2 ^ 32) :
    (defs offset os).map (Entry.placed 0) = positions Object.insyms offset os := by
  induction os generalizing offset with
  | nil => rfl
  | cons o os ih =>
    obtain ⟨ho, hos⟩ := List.forall_mem_append.mp h
    rw [defs, List.map_append, ih hos, List.map_map, positions]
    congr 1
    refine List.map_congr_left fun e he => ?_
    have hlt : offset + e.address.toNat < 2 ^ 32 := ho _ (List.mem_map_of_mem he)
    simp only [Function.comp_apply, Entry.placed, Entry.shift]
    congr 1
    rw [BitVec.toNat_add, BitVec.toNat_ofNat, Nat.add_mod_mod, Nat.zero_add, Nat.add_comm,
      Nat.mod_eq_of_lt hlt]

theorem placed_entry {r : Ref} (h : r.pos < 2 ^ 32) : r.entry.placed 0 = r.place := by
  unfold Entry.placed Ref.place
  rw [entry_toNat h, Nat.zero_add]
  rfl

theorem placed_lt (h : (l.map (Entry.placed 0)).Perm ps) : ∀ s ∈ ps, s.2 < 2 ^ 32 := by
  intro s hs
  obtain ⟨e, -, rfl⟩ := List.mem_map.mp (h.mem_iff.mpr hs)
  have hlt := e.address.isLt
  simp only [Entry.placed]
  omega

variable (offset) in
theorem definition_isSome : (definition (defs offset os) name).isSome ↔ Defined os name := by
  have hnames : (defs offset os).map Entry.name = (os.flatMap Object.insyms).map Entry.name :=
    names_defs
  unfold definition Defined
  rw [Option.isSome_map, List.find?_isSome, ← hnames, List.mem_map]
  simp

theorem definition_isNone : (definition (defs offset os) name).isNone ↔ ¬ Defined os name := by
  rw [← definition_isSome offset, Option.not_isSome_iff_eq_none,
    Option.isNone_iff_eq_none]

theorem inCode_iff {n : Nat} : InCode (defs 0 os) (refs 0 os) n ↔
    ∀ s ∈ positions Object.outsyms 0 os, Defined os s.1 → s.2 < n := by
  unfold InCode
  simp only [definition_isSome, ← places_refs, List.forall_mem_map]
  rfl

theorem places_unresolved : (unresolved (defs 0 os) (refs 0 os)).map Ref.place =
    (positions Object.outsyms 0 os).filter fun s => ¬ Defined os s.1 := by
  rw [← places_refs, List.filter_map]
  congr 1
  refine List.filter_congr fun r _ => ?_
  rw [Bool.eq_iff_iff, definition_isNone, Function.comp_apply, decide_eq_true_eq]
  rfl

theorem placed_unresolved
    (h : ∀ s ∈ positions Object.outsyms 0 os, ¬ Defined os s.1 → s.2 < 2 ^ 32) :
    ((unresolved (defs 0 os) (refs 0 os)).map Ref.entry).map (Entry.placed 0) =
      (positions Object.outsyms 0 os).filter fun s => ¬ Defined os s.1 := by
  rw [← places_unresolved, List.map_map]
  refine List.map_congr_left fun r hr => placed_entry ?_
  have hmem : r.place ∈ (positions Object.outsyms 0 os).filter fun s => ¬ Defined os s.1 := by
    rw [← places_unresolved]
    exact List.mem_map_of_mem hr
  obtain ⟨hpos, hno⟩ := List.mem_filter.mp hmem
  exact h _ hpos (of_decide_eq_true hno)

/-! ## The lengths -/

theorem length_positions (symbols : Object → List Entry) :
    (positions symbols offset os).length = (os.map fun o => (symbols o).length).sum := by
  induction os generalizing offset with
  | nil => rfl
  | cons o os ih =>
    rw [positions, List.length_append, List.length_map, ih, List.map_cons, List.sum_cons]

end

/-- The words of all insymbol sections of the files. -/
def insymWords (os : List Object) : Nat := 5 * (os.map fun o => o.insyms.length).sum

section
variable {os : List Object}

theorem linked_insyms (h : ∀ s ∈ positions Object.insyms 0 os, s.2 < 2 ^ 32) :
    ((merged os).insyms.map (Entry.placed 0)).Perm (positions Object.insyms 0 os) := by
  rw [← placed_defs h]
  exact merged_insyms.map _

theorem linked_outsyms (hd : Distinct (os.flatMap Object.insyms))
    (h : ∀ s ∈ positions Object.outsyms 0 os, ¬ Defined os s.1 → s.2 < 2 ^ 32) :
    ((merged os).outsyms.map (Entry.placed 0)).Perm (unresolvedPositions os) := by
  unfold unresolvedPositions
  rw [← placed_unresolved h]
  exact (merged_outsyms hd).map _

theorem linked_named (hd : Distinct (os.flatMap Object.insyms)) : (linked os).is_object = true ↔
    (∃ s ∈ positions Object.outsyms 0 os, ¬ Defined os s.1) ∨ ¬ Defined os mainx20 := by
  have hmain : os.any Object.hasMain = true ↔ Defined os mainx20 := by
    rw [any_hasMain 0, ← definition_isSome 0]
    unfold definition
    simp
  have hout : (merged os).outsyms = [] ↔ ¬ ∃ s ∈ positions Object.outsyms 0 os, ¬ Defined os s.1 := by
    rw [← List.length_eq_zero_iff, (merged_outsyms hd).length_eq, List.length_map,
      ← List.length_map (f := Ref.place), places_unresolved, List.length_eq_zero_iff,
      List.filter_eq_nil_iff]
    simp
  have hobject : (linked os).is_object = true ↔
      ¬ os.any Object.hasMain = true ∨ (merged os).outsyms ≠ [] := by
    simp [linked, Object.output]
  rw [hobject, hmain, ne_eq, hout, not_not, or_comm]

/-- The sections that the linker writes are right. -/
theorem linked_tables (hint : insymWords os < 2 ^ 31) (hd : Distinct (os.flatMap Object.insyms))
    (h : InRange os) : Tables os (linked os) where
  insyms := ⟨_, lists_sectionWords _, linked_insyms h.insyms⟩
  outsyms := ⟨_, lists_sectionWords _, linked_outsyms hd h.unresolved⟩
  header := by
    have hins := (linked_insyms h.insyms).length_eq
    have houts := (linked_outsyms hd h.unresolved).length_eq
    have hunresolved := h.outsyms
    have hcode := h.code
    rw [List.length_map, length_positions] at hins
    rw [List.length_map] at houts
    unfold insymWords at hint
    rw [linked, output_words]
    have hwords : (merged os).words.take 3 = (merged os).header := rfl
    rw [hwords]
    unfold Object.header Object.output
    simp only [List.map_cons, List.map_nil, BitVec.toNat_ofNat, length_sectionWords]
    rw [Nat.mod_eq_of_lt (by omega), Nat.mod_eq_of_lt (by omega),
      Nat.mod_eq_of_lt (by rw [length_merged]; exact hcode)]
  named := linked_named hd

theorem header_lt {out : Output} (h : Tables os out) :
    out.outsyms.length < 2 ^ 32 ∧ out.code.length < 2 ^ 32 := by
  have hheader := h.header
  injection hheader with _ hheader
  injection hheader with hsecond hheader
  injection hheader with hthird
  exact ⟨hsecond ▸ (BitVec.ofNat 32 _).isLt, hthird ▸ (BitVec.ofNat 32 _).isLt⟩

theorem inRange_of_tables (hpos : InCode (defs 0 os) (refs 0 os) (codes os).length)
    (h : Tables os (linked os)) : InRange os where
  code := by
    have hlen : (linked os).code.length = (codes os).length := length_merged
    rw [← hlen]
    exact (header_lt h).2
  outsyms := by
    obtain ⟨l, hlists, hl⟩ := h.outsyms
    have hlen := hl.length_eq
    rw [List.length_map] at hlen
    rw [← hlen, ← hlists.length]
    exact (header_lt h).1
  insyms := by
    obtain ⟨l, -, hl⟩ := h.insyms
    exact placed_lt hl
  resolved := inCode_iff.mp hpos
  unresolved := by
    obtain ⟨l, -, hl⟩ := h.outsyms
    intro s hs hno
    exact placed_lt hl s (List.mem_filter.mpr ⟨hs, decide_eq_true hno⟩)

end

/-- The linker does as it should with the symbols if and only if there are duplicates or all is in
range. The loops count the words of the insymbols in an `int`. -/
theorem symbols_iff (junk : Nat → Word) {files : List (List Word)} {os : List Object}
    (h : List.Forall₂ Holds files os) (hcode : codes os ≠ []) (hint : insymWords os < 2 ^ 31) :
    LinksSymbols os (link junk files) ↔
      (Distinct (os.flatMap Object.insyms) → InRange os) := by
  by_cases hd : Distinct (os.flatMap Object.insyms)
  · constructor
    · rintro ⟨-, hout⟩ -
      obtain ⟨out, hlink, htables⟩ := hout hd
      have hpos : InCode (defs 0 os) (refs 0 os) (codes os).length := by
        by_contra hpos
        rw [link_fault h hd hpos hcode] at hlink
        cases hlink
      rw [link_inCode h hd hpos hcode] at hlink
      cases hlink
      exact inRange_of_tables hpos htables
    · intro hrange
      have hlink : link junk files = .ok (linked os) :=
        link_inCode h hd (inCode_iff.mpr (hrange hd).resolved) hcode
      rw [hlink]
      exact ⟨⟨nofun, absurd hd⟩, fun _ => ⟨_, rfl, linked_tables hint hd (hrange hd)⟩⟩
  · rw [link_duplicate h hd hcode]
    exact ⟨fun _ h => absurd h hd, fun _ => ⟨⟨fun _ => hd, fun _ => rfl⟩, fun h => absurd h hd⟩⟩

/-- An outsymbol that the file itself defines, at the word `n`. -/
def selfF (n : Nat) : Object := ⟨[⟨nameF, 0⟩], [⟨nameF, BitVec.ofNat 32 n⟩], [0x00000013]⟩

theorem holds_selfF (n : Nat) : List.Forall₂ Holds [(selfF n).words] [selfF n] :=
  .cons (holds_words (show 5 * (1 + 1) < 2 ^ 31 by decide) (show 1 < 2 ^ 32 by decide)) .nil

theorem symbols_self : LinksSymbols [selfF 0] (link (fun _ => 0) [(selfF 0).words]) := by
  refine (symbols_iff (fun _ => 0) (holds_selfF 0) (by decide) (by decide)).mpr fun _ => ?_
  constructor <;> decide

/-- The word 1 is behind the code. -/
theorem symbols_outside : List.Forall₂ Holds [(selfF 1).words] [selfF 1] ∧
    codes [selfF 1] ≠ [] ∧ Distinct ([selfF 1].flatMap Object.insyms) ∧
    link (fun _ => 0) [(selfF 1).words] = .error .fault ∧
    ¬ LinksSymbols [selfF 1] (link (fun _ => 0) [(selfF 1).words]) := by
  have hlink : link (fun _ => 0) [(selfF 1).words] = .error .fault := rfl
  refine ⟨holds_selfF 1, by decide, by decide, hlink, fun h => ?_⟩
  obtain ⟨out, hout, -⟩ := h.output (by decide)
  rw [hlink] at hout
  cases hout

end Cs720.Link
