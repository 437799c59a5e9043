import Cs720.Link.Code

/-! # Object files and what linking them means

The objects are placed one after another. A definition keeps its name and is shifted by the place of
its object; a reference is the position of an instruction in the joined code.
-/

namespace Cs720.Link

open Cs720.Lib

/-- An insymbol or an outsymbol. -/
@[ext]
structure Entry where
  name : Name
  address : Word
  deriving DecidableEq

/-- "f" -/
def nameF : Name := ⟨[0x66], by decide, by decide⟩

structure Object where
  insyms : List Entry
  outsyms : List Entry
  code : List Word

/-- The words are the section with these entries. -/
structure Lists (ws : List Word) (l : List Entry) : Prop where
  length : ws.length = 5 * l.length
  entry : ∀ k e, l[k]? = some e →
    Name.ofWords (fun j => ws.getD (5 * k + j) 0) = e.name ∧ ws.getD (5 * k + 4) 0 = e.address

/-- The lengths, as the header of a file has them. -/
def Object.header (o : Object) : List Word :=
  [BitVec.ofNat 32 (5 * o.insyms.length), BitVec.ofNat 32 (5 * o.outsyms.length),
    BitVec.ofNat 32 o.code.length]

/-- The section with these entries that the linker writes. -/
def sectionWords (l : List Entry) : List Word := l.flatMap fun e => symbolWords e.name e.address

def Object.words (o : Object) : List Word :=
  o.header ++ sectionWords o.insyms ++ sectionWords o.outsyms ++ o.code

/-- The file holds the object. The linker adds the lengths of its symbol sections as `int`s. -/
structure Holds (data : List Word) (o : Object) : Prop where
  layout : ∃ ins outs tail, data = o.header ++ ins ++ outs ++ o.code ++ tail ∧
    Lists ins o.insyms ∧ Lists outs o.outsyms
  symbols : 5 * (o.insyms.length + o.outsyms.length) < 2 ^ 31
  code : o.code.length < 2 ^ 32

/-- The width of the address field of an instruction, if it has one. -/
def addressWidth (instr : Word) : Option Nat :=
  match (instr &&& 0xff).toNat with
  | 0x0f | 0x14 | 0x01 | 0x02 | 0x04 => some 20
  | 0x11 | 0x12 | 0x13 | 0x15 => some 16
  | _ => none

/-- Each outsymbol is at an instruction with an address, and no two are at the same. -/
structure Object.WellFormed (o : Object) : Prop where
  address : ∀ e ∈ o.outsyms, ∃ instr, o.code[e.address.toNat]? = some instr ∧
    (addressWidth instr).isSome
  once : (o.outsyms.map Entry.address).Nodup

/-! ## Linking -/

def Entry.shift (offset : Nat) (e : Entry) : Entry := ⟨e.name, e.address + BitVec.ofNat 32 offset⟩

structure Ref where
  name : Name
  pos : Nat

def Entry.ref (offset : Nat) (e : Entry) : Ref := ⟨e.name, offset + e.address.toNat⟩

/-- The outsymbol of a reference that stays. -/
def Ref.entry (r : Ref) : Entry := ⟨r.name, BitVec.ofNat 32 r.pos⟩

/-- The definitions in objects that are placed from `offset` on. -/
def defs : Nat → List Object → List Entry
  | _, [] => []
  | offset, o :: os => o.insyms.map (Entry.shift offset) ++ defs (offset + o.code.length) os

def refs : Nat → List Object → List Ref
  | _, [] => []
  | offset, o :: os => o.outsyms.map (Entry.ref offset) ++ refs (offset + o.code.length) os

def codes (os : List Object) : List Word := os.flatMap Object.code

/-- The relocated address of the definition of `name`. -/
def definition (ds : List Entry) (name : Name) : Option Word :=
  (ds.find? fun d => d.name = name).map Entry.address

/-- The code with the instruction of a reference rewritten, if there is a definition. -/
def patch (ds : List Entry) (code : List Word) (r : Ref) : List Word :=
  match definition ds r.name with
  | some a => code.set r.pos (rewrite (code.getD r.pos 0) (a - (BitVec.ofNat 32 r.pos + 1)))
  | none => code

def unresolved (ds : List Entry) (rs : List Ref) : List Ref :=
  rs.filter fun r => (definition ds r.name).isNone

/-- The objects as one. -/
def joined (os : List Object) : Object where
  insyms := defs 0 os
  outsyms := (unresolved (defs 0 os) (refs 0 os)).map Ref.entry
  code := (refs 0 os).foldl (patch (defs 0 os)) (codes os)

/-- What the linker writes for the object. -/
def Object.output (o : Object) (is_object : Bool) : Output :=
  ⟨sectionWords o.insyms, sectionWords o.outsyms, o.code, is_object⟩

/-! ## Sections -/

section
variable {l l' : List Entry} {ws pre post : List Word} {e : Entry} {k : Nat}

theorem length_symbolWords (name : Name) (a : Word) : (symbolWords name a).length = 5 := rfl

theorem sectionWords_append : sectionWords (l ++ l') = sectionWords l ++ sectionWords l' :=
  List.flatMap_append

theorem length_sectionWords : (sectionWords l).length = 5 * l.length := by
  induction l with
  | nil => rfl
  | cons e l ih =>
    unfold sectionWords at ih ⊢
    rw [List.flatMap_cons, List.length_append, ih, length_symbolWords, List.length_cons]
    omega

theorem lists_cons (h : Lists ws l) : Lists (symbolWords e.name e.address ++ ws) (e :: l) := by
  have hlen := length_symbolWords e.name e.address
  refine ⟨?_, ?_⟩
  · rw [List.length_append, h.length, hlen, List.length_cons]
    omega
  rintro (_ | k) d hd
  · obtain rfl : e = d := by simpa using hd
    refine ⟨?_, rfl⟩
    refine (Name.ofWords_congr ?_).trans (Name.ofWords_words e.name)
    intro j hj
    rw [Nat.mul_zero, Nat.zero_add, symbolWords, List.append_assoc,
      List.getD_append _ _ _ _ (by rw [Name.length_words]; exact hj)]
  · rw [List.getElem?_cons_succ] at hd
    obtain ⟨hname, haddr⟩ := h.entry k d hd
    have hget (j : Nat) : (symbolWords e.name e.address ++ ws).getD (5 * (k + 1) + j) 0 =
        ws.getD (5 * k + j) 0 := by
      rw [List.getD_append_right _ _ _ _ (by omega), hlen]
      congr 1
      omega
    simp only [hget]
    exact ⟨hname, haddr⟩

theorem lists_sectionWords (l : List Entry) : Lists (sectionWords l) l := by
  induction l with
  | nil => exact ⟨rfl, by simp⟩
  | cons e l ih => exact lists_cons ih

theorem symbolAt_lists (h : Lists ws l) (hk : l[k]? = some e) :
    symbolAt (pre ++ ws ++ post) (pre.length + 5 * k) = .ok (e.name, e.address) := by
  obtain ⟨hlt, -⟩ := List.getElem?_eq_some_iff.mp hk
  obtain ⟨hname, haddr⟩ := h.entry k e hk
  have hlen := h.length
  have hget (j : Nat) (hj : j < 5) :
      (pre ++ ws ++ post).getD (pre.length + 5 * k + j) 0 = ws.getD (5 * k + j) 0 := by
    rw [List.append_assoc, List.getD_append_right _ _ _ _ (by omega),
      List.getD_append _ _ _ _ (by omega)]
    congr 1
    omega
  have hofWords : Name.ofWords (fun j => (pre ++ ws ++ post).getD (pre.length + 5 * k + j) 0) =
      Name.ofWords fun j => ws.getD (5 * k + j) 0 :=
    Name.ofWords_congr fun j hj => hget j (by omega)
  unfold symbolAt
  rw [if_pos (by simp; omega), hofWords, hname, hget 4 (by omega), haddr]

theorem holds_words {o : Object} (hsym : 5 * (o.insyms.length + o.outsyms.length) < 2 ^ 31)
    (hcode : o.code.length < 2 ^ 32) : Holds o.words o :=
  ⟨⟨_, _, [], (List.append_nil _).symm, lists_sectionWords _, lists_sectionWords _⟩, hsym, hcode⟩

theorem output_words {o : Object} {is_object : Bool} : (o.output is_object).words = o.words := by
  unfold Output.words Object.output Object.words Object.header
  rw [length_sectionWords, length_sectionWords]

end

end Cs720.Link
