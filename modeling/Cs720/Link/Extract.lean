import Cs720.Lib.Run
import Cs720.Link.Object

/-! # The symbols of a file (`extract_symbols`)

They are put in front of the lists, so their order is reversed.
-/

namespace Cs720.Link

open Cs720.Lib

def Entry.insym (e : Entry) : Sym := ⟨e.address, e.name, FLAG_DEFINED⟩

def Entry.outsym (e : Entry) : Sym := ⟨e.address, e.name, FLAG_OUTSYM⟩

/-- The object with its symbols in the order in which the linker has them. -/
def Object.extracted (o : Object) : Object := ⟨o.insyms.reverse, o.outsyms.reverse, o.code⟩

def Object.hasMain (o : Object) : Bool := o.insyms.any fun e => e.name = mainx20

/-- The header is that of a file with the object. -/
structure Header (fh : FHeader) (o : Object) : Prop where
  word₀ : word fh.data 0 = .ok (BitVec.ofNat 32 (5 * o.insyms.length))
  word₁ : word fh.data 1 = .ok (BitVec.ofNat 32 (5 * o.outsyms.length))
  word₂ : word fh.data 2 = .ok (BitVec.ofNat 32 o.code.length)
  code : objectCode fh.data = .ok o.code
  insyms : fh.insyms = o.insyms.map Entry.insym
  outsyms : fh.outsyms = o.outsyms.map Entry.outsym
  symbols : 5 * (o.insyms.length + o.outsyms.length) < 2 ^ 31
  size : o.code.length < 2 ^ 32

section
variable {data : List Word} {n a : Nat} {is : List Nat} {st : Extracted} {o : Object}

/-- The insymbols at the positions from `a` on. -/
theorem extract_insyms (l : List Entry)
    (hat : ∀ k e, l[k]? = some e → symbolAt data (3 + 5 * (a + k)) = .ok (e.name, e.address))
    (hn : a + l.length ≤ n) :
    extractFrom data ((5 * n : Nat) : Int) ((List.range' a l.length).map (5 * ·) ++ is) st =
      extractFrom data ((5 * n : Nat) : Int) is
        ⟨st.found || l.any fun e => e.name = mainx20, (l.map Entry.insym).reverse ++ st.insyms,
          st.outsyms⟩ := by
  induction l generalizing a st with
  | nil => simp
  | cons e l ih =>
    rw [List.length_cons] at hn
    rw [List.length_cons, List.range'_succ, List.map_cons, List.cons_append, extractFrom,
      show 3 + 5 * a = 3 + 5 * (a + 0) by omega, hat 0 e rfl, ok_bind]
    dsimp only
    rw [if_pos (by omega), ih ?_ (by omega)]
    · simp [Entry.insym, Bool.or_assoc]
    · intro k d hd
      rw [← hat (k + 1) d hd]
      congr 1
      omega

/-- The outsymbols at the positions from `a` on. -/
theorem extract_outsyms (l : List Entry)
    (hat : ∀ k e, l[k]? = some e → symbolAt data (3 + 5 * (a + k)) = .ok (e.name, e.address))
    (hn : n ≤ a) :
    extractFrom data ((5 * n : Nat) : Int) ((List.range' a l.length).map (5 * ·)) st =
      .ok ⟨st.found, st.insyms, (l.map Entry.outsym).reverse ++ st.outsyms⟩ := by
  induction l generalizing a st with
  | nil => rfl
  | cons e l ih =>
    rw [List.length_cons, List.range'_succ, List.map_cons, extractFrom,
      show 3 + 5 * a = 3 + 5 * (a + 0) by omega, hat 0 e rfl, ok_bind]
    dsimp only
    rw [if_neg (by omega), ih ?_ (by omega)]
    · simp [Entry.outsym]
    · intro k d hd
      rw [← hat (k + 1) d hd]
      congr 1
      omega

/-- The header. -/
theorem word_header (h : Holds data o) :
    word data 0 = .ok (BitVec.ofNat 32 (5 * o.insyms.length)) ∧
      word data 1 = .ok (BitVec.ofNat 32 (5 * o.outsyms.length)) ∧
      word data 2 = .ok (BitVec.ofNat 32 o.code.length) := by
  obtain ⟨ins, outs, tail, rfl, -⟩ := h.layout
  exact ⟨rfl, rfl, rfl⟩

theorem extract_holds (h : Holds data o) : extract_symbols data =
    .ok ⟨o.hasMain, o.extracted.insyms.map Entry.insym, o.extracted.outsyms.map Entry.outsym⟩ := by
  obtain ⟨ins, outs, tail, hdata, hins, houts⟩ := h.layout
  have hsym := h.symbols
  have hlen : o.header.length = 3 := rfl
  have hinsym (k : Nat) (e : Entry) (hk : o.insyms[k]? = some e) :
      symbolAt data (3 + 5 * (0 + k)) = .ok (e.name, e.address) := by
    rw [hdata, List.append_assoc, List.append_assoc, Nat.zero_add, ← hlen]
    exact symbolAt_lists hins hk
  have houtsym (k : Nat) (e : Entry) (hk : o.outsyms[k]? = some e) :
      symbolAt data (3 + 5 * (o.insyms.length + k)) = .ok (e.name, e.address) := by
    have hpre : (o.header ++ ins).length = 3 + 5 * o.insyms.length := by
      rw [List.length_append, hlen, hins.length]
    rw [hdata, List.append_assoc, Nat.mul_add, ← Nat.add_assoc, ← hpre]
    exact symbolAt_lists houts hk
  obtain ⟨h₀, h₁, -⟩ := word_header h
  unfold extract_symbols
  rw [h₀, ok_bind, h₁, ok_bind, ← BitVec.ofNat_add, ← Nat.mul_add, ofNat_toInt (by omega),
    ofNat_toInt (by omega), offsets_five, ← List.range'_append_1, List.map_append, Nat.zero_add,
    extract_insyms o.insyms hinsym (by omega), extract_outsyms o.outsyms houtsym (by omega)]
  simp [Object.hasMain, Object.extracted]

theorem header_holds (h : Holds data o) :
    Header ⟨data, o.extracted.insyms.map Entry.insym, o.extracted.outsyms.map Entry.outsym⟩
      o.extracted := by
  obtain ⟨ins, outs, tail, hdata, hins, houts⟩ := h.layout
  have hsym := h.symbols
  have hsize := h.code
  obtain ⟨h₀, h₁, h₂⟩ := word_header h
  have hcode : (data.drop (5 * o.insyms.length + 5 * o.outsyms.length + 3)).take o.code.length =
      o.code := by
    have hpre : (o.header ++ ins ++ outs).length =
        5 * o.insyms.length + 5 * o.outsyms.length + 3 := by
      rw [List.length_append, List.length_append, hins.length, houts.length]
      unfold Object.header
      simp only [List.length_cons, List.length_nil]
      omega
    rw [hdata, List.append_assoc (o.header ++ ins ++ outs), ← hpre, List.drop_left, List.take_left]
  refine ⟨?_, ?_, h₂, ?_, rfl, rfl, ?_, hsize⟩
  · rw [h₀]
    simp [Object.extracted]
  · rw [h₁]
    simp [Object.extracted]
  · unfold objectCode
    rw [h₀, ok_bind, h₁, ok_bind, h₂, ok_bind]
    simp only [BitVec.toNat_ofNat]
    rw [Nat.mod_eq_of_lt (by omega), Nat.mod_eq_of_lt (by omega), Nat.mod_eq_of_lt (by omega), hcode,
      if_pos rfl]
    rfl
  · simpa [Object.extracted] using hsym

end

/-- The headers of the files, with their objects. -/
theorem readHeaders_holds {files : List (List Word)} {os : List Object}
    (h : List.Forall₂ Holds files os) :
    ∃ fh, readHeaders files = .ok (fh, os.any Object.hasMain) ∧
      List.Forall₂ Header fh (os.map Object.extracted) := by
  induction h with
  | nil => exact ⟨[], rfl, .nil⟩
  | cons hd _ ih =>
    obtain ⟨fh, hfh, hheaders⟩ := ih
    refine ⟨_, ?_, .cons (header_holds hd) hheaders⟩
    rw [readHeaders, extract_holds hd, ok_bind, hfh, ok_bind]
    rfl

end Cs720.Link
