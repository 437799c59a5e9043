import Cs720.Lib.Fields
import Cs720.Link.Incremental
import Cs720.Link.Meaning
import Cs720.Vm.ParseCode

/-! # The report of the disassembler (`main` in `A1/P2/dsx20.c`)

The file is given as its words, and a word behind them is a fault. A name is read to 16 bytes and
printed as a C string, so one of 16 bytes is read past its end.
-/

namespace Cs720.Link

open Cs720.Lib Cs720.Vm

/-! ## The code -/

/-- What is printed: the two symbol sections and the object code. -/
structure Report where
  insyms : List Entry
  outsyms : List Entry
  obj_len : Word
  code : List String

/-- The loop in `read_insymbols` and in `read_outsymbols`. -/
def readSymbols (data : List Word) (start count : Nat) : C (List Entry) :=
  (List.range count).mapM fun i => do
    let (name, address) ← symbolAt data (start + 5 * i)
    return ⟨name, address⟩

def read_insymbols (data : List Word) (count : Nat) : C (List Entry) := readSymbols data 3 count

def read_outsymbols (data : List Word) (start count : Nat) : C (List Entry) :=
  readSymbols data start count

/-- A loop that prints symbols. -/
def printSymbols (l : List Entry) : C (List Entry) := if Short l then .ok l else .error .fault

/-- What `parse_code` gives, if the option is `-r`. -/
def dataArr (n : Nat) (is_recursive : Bool) (ptr : List Word) (obj_len : Word) :
    C (Option (Nat → BitVec 8)) :=
  if is_recursive then do
    let data ← parse_code n ptr obj_len
    return some fun pc => data.getD pc 0
  else return none

/-- `main`, when the file is read. -/
def report (n : Nat) (is_recursive : Bool) (data : List Word) : C Report := do
  let insym_count := (← word data 0).toNat / 5
  let outsym_count := (← word data 1).toNat / 5
  let obj_len ← word data 2
  let insyms ← read_insymbols data insym_count
  let start ← asInt (3 + insym_count * 5)
  let outsyms ← read_outsymbols data start outsym_count
  let insyms ← printSymbols insyms
  let outsyms ← printSymbols outsyms
  let obj_start ← asInt (start + outsym_count * 5)
  let ptr := data.drop obj_start
  let data_arr ← dataArr n is_recursive ptr obj_len
  let code ← (List.range obj_len.toInt.toNat).mapM fun pc => word ptr pc
  return ⟨insyms, outsyms, obj_len, print_code (outsyms.map Entry.address) data_arr code⟩

/-! ## What is read from an object file -/

section
variable {data pre post ws : List Word} {o : Object} {l : List Entry}

theorem readSymbols_lists (h : Lists ws l) :
    readSymbols (pre ++ ws ++ post) pre.length l.length = .ok l := by
  refine mapM_range fun k e hk => ?_
  rw [symbolAt_lists h hk]
  rfl

/-- The sizes of the sections are `int`s. -/
structure Sized (o : Object) : Prop where
  symbols : 3 + 5 * (o.insyms.length + o.outsyms.length) < 2 ^ 31
  code : o.code.length < 2 ^ 31

theorem count_five {k : Nat} (h : 5 * k < 2 ^ 32) : (BitVec.ofNat 32 (5 * k)).toNat / 5 = k := by
  rw [BitVec.toNat_ofNat]
  omega

/-- The report shows what the file holds. -/
theorem report_holds (h : Holds data o) (hsize : Sized o) (hshort : Short (o.insyms ++ o.outsyms))
    (n : Nat) (is_recursive : Bool) : ∃ tail, report n is_recursive data = (do
      let data_arr ← dataArr n is_recursive (o.code ++ tail) (BitVec.ofNat 32 o.code.length)
      return ⟨o.insyms, o.outsyms, BitVec.ofNat 32 o.code.length,
        print_code (o.outsyms.map Entry.address) data_arr o.code⟩) := by
  obtain ⟨hsymbols, hcode⟩ := hsize
  obtain ⟨h₀, h₁, h₂⟩ := word_header h
  obtain ⟨ins, outs, tail, hdata, hins, houts⟩ := h.layout
  have hheader : o.header.length = 3 := rfl
  have hread : read_insymbols data o.insyms.length = .ok o.insyms := by
    rw [hdata, List.append_assoc, List.append_assoc]
    exact readSymbols_lists hins
  have hread' : read_outsymbols data (3 + o.insyms.length * 5) o.outsyms.length =
      .ok o.outsyms := by
    have hpre : (o.header ++ ins).length = 3 + o.insyms.length * 5 := by
      rw [List.length_append, hheader, hins.length, Nat.mul_comm]
    rw [hdata, List.append_assoc, ← hpre]
    exact readSymbols_lists houts
  have hptr : data.drop (3 + o.insyms.length * 5 + o.outsyms.length * 5) = o.code ++ tail := by
    have hpre : (o.header ++ ins ++ outs).length =
        3 + o.insyms.length * 5 + o.outsyms.length * 5 := by
      rw [List.length_append, List.length_append, hheader, hins.length, houts.length]
      omega
    rw [hdata, List.append_assoc, ← hpre, List.drop_left]
  have hwords : (List.range o.code.length).mapM (fun pc => word (o.code ++ tail) pc) =
      .ok o.code := by
    refine mapM_range fun k w hk => ?_
    obtain ⟨hlt, -⟩ := List.getElem?_eq_some_iff.mp hk
    unfold word
    rw [List.getElem?_append_left hlt, hk]
  have hins' : Short o.insyms := fun e he => hshort e (List.mem_append_left _ he)
  have houts' : Short o.outsyms := fun e he => hshort e (List.mem_append_right _ he)
  refine ⟨tail, ?_⟩
  unfold report printSymbols
  rw [h₀, ok_bind, h₁, ok_bind, h₂, ok_bind, count_five (by omega), count_five (by omega), hread,
    ok_bind, asInt_bind, if_pos (by omega), hread', ok_bind, if_pos hins', ok_bind, if_pos houts',
    ok_bind, asInt_bind, if_pos (by omega), hptr, ofNat_toInt hcode, Int.toNat_natCast]
  dsimp only
  rw [hwords]
  rfl

end

/-! ## The lines -/

/-- The line of an instruction. -/
def lineText (k : Nat) (w : Word) (name operands : String) : String :=
  zeros7 k ++ "   " ++ w.toHex ++ "   " ++ left8 name ++ "    " ++ operands

/-- The operands, without the address. -/
def undefinedOperands : Instr → String
  | .call _ | .jmp _ => "[undefined]"
  | .load r _ | .store r _ | .ldaddr r _ => regName r ++ ", " ++ "[undefined]"
  | .blt r s _ | .bgt r s _ | .beq r s _ | .cmpxchg r s _ =>
    regName r ++ ", " ++ regName s ++ ", " ++ "[undefined]"
  | i => i.operands

section
variable {outs : List Word} {k : Nat} {w : Word} {code : List Word}

theorem printLine_defined (hout : is_outsymbol outs (BitVec.ofNat 32 k) = false) :
    printLine outs none k w = lineText k w (decode w (BitVec.ofNat 32 k)).name
      (decode w (BitVec.ofNat 32 k)).operands := printLine_eq rfl hout rfl

theorem printLine_undefined (hout : is_outsymbol outs (BitVec.ofNat 32 k) = true) :
    printLine outs none k w = lineText k w (decode w (BitVec.ofNat 32 k)).name
      (undefinedOperands (decode w (BitVec.ofNat 32 k))) := by
  unfold printLine printAddr lineText
  simp only [hout, Option.any_none, ← op_name_eq w (BitVec.ofNat 32 k), Bool.false_eq_true,
    if_false, Bool.not_true, mask_op, mask8_ushift, mask12_ushift, EXTENDBIT20_mask, int16_ushift]
  unfold op_format decode
  cases ins (w.setWidth 8) <;>
    simp [-String.reduceAppend, undefinedOperands, Instr.operands, regName, String.append_assoc,
      comma_r, paren_r]

theorem print_code_at (hw : code[k]? = some w) :
    (print_code outs none code)[k]? = some (printLine outs none k w) := by
  unfold print_code
  rw [List.getElem?_mapIdx, hw]
  rfl

end

/-! ## The report of what the linker writes -/

/-- The report is that of the objects, placed one after another. -/
structure Reports (os : List Object) (r : Report) : Prop where
  insyms : r.insyms.Perm (defs 0 os)
  outsyms : r.outsyms.Perm ((unresolved (defs 0 os) (refs 0 os)).map Ref.entry)
  length : r.code.length = (codes os).length
  own : ∀ k w, (codes os)[k]? = some w → (∀ p ∈ refs 0 os, p.pos ≠ k) →
    r.code[k]? = some (lineText k w (decode w (BitVec.ofNat 32 k)).name
      (decode w (BitVec.ofNat 32 k)).operands)
  resolved : ∀ p d, Resolves os p d → ∃ w w' ins, (codes os)[p.pos]? = some w ∧
    SameFields w w' ∧ ins = retarget d.address (decode w (BitVec.ofNat 32 p.pos)) ∧
    r.code[p.pos]? = some (lineText p.pos w' ins.name ins.operands)
  undefined : ∀ p ∈ unresolved (defs 0 os) (refs 0 os), ∃ w ins, (codes os)[p.pos]? = some w ∧
    ins = decode w (BitVec.ofNat 32 p.pos) ∧
    r.code[p.pos]? = some (lineText p.pos w ins.name (undefinedOperands ins))

section
variable {os : List Object} {k : Nat}

/-- A line is an outsymbol if and only if it has a reference that stays. -/
theorem isOutsymbol_iff (hd : Distinct (os.flatMap Object.insyms)) (hwf : ∀ o ∈ os, o.WellFormed)
    (hsize : (codes os).length < 2 ^ 31) (hk : k < (codes os).length) :
    is_outsymbol ((merged os).outsyms.map Entry.address) (BitVec.ofNat 32 k) = true ↔
      ∃ p ∈ unresolved (defs 0 os) (refs 0 os), p.pos = k := by
  unfold is_outsymbol
  rw [List.any_eq_true]
  simp only [beq_iff_eq, List.mem_map, (merged_outsyms hd).mem_iff]
  constructor
  · rintro ⟨_, ⟨_, ⟨p, hp, rfl⟩, rfl⟩, heq⟩
    have hpos := refs_lt hwf (mem_unresolved.mp hp).1
    refine ⟨p, hp, ?_⟩
    have hnat := congrArg BitVec.toNat heq
    rw [entry_toNat (by omega), BitVec.toNat_ofNat] at hnat
    omega
  · rintro ⟨p, hp, rfl⟩
    exact ⟨_, ⟨_, ⟨p, hp, rfl⟩, rfl⟩, rfl⟩

theorem reports_linked (hd : Distinct (os.flatMap Object.insyms)) (hwf : ∀ o ∈ os, o.WellFormed)
    (hfits : Fits os) (hsize : (codes os).length < 2 ^ 31) (obj_len : Word) :
    Reports os ⟨(merged os).insyms, (merged os).outsyms, obj_len,
      print_code ((merged os).outsyms.map Entry.address) none (merged os).code⟩ := by
  refine ⟨merged_insyms, merged_outsyms hd, ?_, ?_, ?_, ?_⟩
  · unfold print_code
    rw [List.length_mapIdx, length_merged]
  · intro k w hw hother
    obtain ⟨hlt, -⟩ := List.getElem?_eq_some_iff.mp hw
    have hout : is_outsymbol ((merged os).outsyms.map Entry.address)
        (BitVec.ofNat 32 k) = false := by
      rw [Bool.eq_false_iff, Ne, isOutsymbol_iff hd hwf hsize hlt]
      rintro ⟨p, hp, hpos⟩
      exact hother p (mem_unresolved.mp hp).1 hpos
    rw [print_code_at ((merged_ne hother).trans hw), printLine_defined hout]
  · intro p d hres
    obtain ⟨w, hw, hwidth, hout⟩ := linked_ref hd hwf hres
    obtain ⟨hlt, -⟩ := List.getElem?_eq_some_iff.mp hw
    have hnot : is_outsymbol ((merged os).outsyms.map Entry.address)
        (BitVec.ofNat 32 p.pos) = false := by
      rw [Bool.eq_false_iff, Ne, isOutsymbol_iff hd hwf hsize hlt]
      rintro ⟨q, hq, hpos⟩
      obtain ⟨hmem, hnone⟩ := mem_unresolved.mp hq
      obtain rfl : q = p := List.inj_on_of_nodup_map (refs_nodup hwf) hmem hres.1 hpos
      rw [Option.eq_none_iff_forall_ne_some] at hnone
      refine hnone d.address ?_
      rw [definition_iff (distinct_defs.mpr hd), ← hres.2.2]
      exact hres.2.1
    refine ⟨w, rewrite w (d.address - (BitVec.ofNat 32 p.pos + 1)), _, hw, rewrite_fields hwidth,
      rfl, ?_⟩
    have hword : (merged os).code[p.pos]? = _ := hout
    rw [print_code_at hword, printLine_defined hnot, decode_rewrite hwidth (hfits p d hres w hw)]
  · intro p hp
    obtain ⟨hmem, hnone⟩ := mem_unresolved.mp hp
    obtain ⟨-, w, hw, -⟩ := refs_bounds hwf hmem
    rw [Nat.sub_zero] at hw
    obtain ⟨hlt, -⟩ := List.getElem?_eq_some_iff.mp hw
    have hword : (merged os).code[p.pos]? = some w := by
      rw [merged_at hd hwf hmem, patchWord_none hnone, Option.map_id]
      exact hw
    have hout := (isOutsymbol_iff hd hwf hsize hlt).mpr ⟨p, hp, rfl⟩
    exact ⟨w, _, hw, rfl, by rw [print_code_at hword, printLine_undefined hout]⟩

theorem names_refs (offset : Nat) :
    (refs offset os).map Ref.name = (os.flatMap Object.outsyms).map Entry.name := by
  induction os generalizing offset with
  | nil => rfl
  | cons o os ih =>
    rw [refs, List.map_append, ih, List.map_map, List.flatMap_cons, List.map_append]
    rfl

/-- The sizes of the joined symbol sections, and the names in them. -/
theorem merged_symbols (hd : Distinct (os.flatMap Object.insyms)) :
    (merged os).insyms.length = (os.flatMap Object.insyms).length ∧
      (merged os).outsyms.length ≤ (os.flatMap Object.outsyms).length ∧
      (Short (os.flatMap Object.insyms ++ os.flatMap Object.outsyms) →
        Short ((merged os).insyms ++ (merged os).outsyms)) := by
  have hins : (merged os).insyms.length = (os.flatMap Object.insyms).length := by
    rw [merged_insyms.length_eq, ← List.length_map (f := Entry.name), names_defs, List.length_map]
  refine ⟨hins, ?_, fun hshort e he => ?_⟩
  · have hrefs : (refs 0 os).length = (os.flatMap Object.outsyms).length := by
      rw [← List.length_map (f := Ref.name), names_refs, List.length_map]
    rw [(merged_outsyms hd).length_eq, List.length_map, ← hrefs]
    exact List.length_filter_le _ _
  · rw [List.mem_append, merged_insyms.mem_iff, (merged_outsyms hd).mem_iff] at he
    rcases he with he | he
    · have hname : e.name ∈ (defs 0 os).map Entry.name := List.mem_map_of_mem he
      rw [names_defs] at hname
      obtain ⟨d, hd, heq⟩ := List.mem_map.mp hname
      rw [← heq]
      exact hshort d (List.mem_append_left _ hd)
    · obtain ⟨p, hp, rfl⟩ := List.mem_map.mp he
      have hname : p.name ∈ (refs 0 os).map Ref.name :=
        List.mem_map_of_mem (mem_unresolved.mp hp).1
      rw [names_refs] at hname
      obtain ⟨d, hd, heq⟩ := List.mem_map.mp hname
      change p.name.bytes.length < 16
      rw [← heq]
      exact hshort d (List.mem_append_right _ hd)

end

/-- Of an output of the linker the disassembler shows the definitions with their relocated
addresses, the references that stay, and for each other reference the address of its definition. -/
theorem linked_report {junk : Nat → Word} {files : List (List Word)} {os : List Object}
    {out : Output} (h : List.Forall₂ Holds files os) (hwf : ∀ o ∈ os, o.WellFormed)
    (hd : Distinct (os.flatMap Object.insyms)) (hlink : link junk files = .ok out)
    (hfits : Fits os) (hshort : Short (os.flatMap Object.insyms ++ os.flatMap Object.outsyms))
    (hsymbols : 3 + 5 * ((os.flatMap Object.insyms).length +
      (os.flatMap Object.outsyms).length) < 2 ^ 31)
    (hcode : (codes os).length < 2 ^ 31) (n : Nat) :
    ∃ r, report n false out.words = .ok r ∧ Reports os r := by
  have hne : codes os ≠ [] := by
    intro hempty
    rw [link_empty h hempty] at hlink
    cases hlink
  rw [link_holds h hwf hd hne] at hlink
  obtain rfl : linked os = out := Except.ok.inj hlink
  obtain ⟨hins, houts, hnames⟩ := merged_symbols hd
  have hlen : (merged os).code.length = (codes os).length := length_merged
  have hholds : Holds (linked os).words (merged os) := by
    unfold linked
    rw [output_words]
    exact holds_words (by omega) (by omega)
  obtain ⟨tail, hreport⟩ := report_holds hholds ⟨by omega, by omega⟩ (hnames hshort) n false
  exact ⟨_, hreport, reports_linked hd hwf hfits hcode _⟩

/-- A branch to `f`, which is behind it. -/
theorem linked_report_near : ∃ out r w,
    link (fun _ => 0) [branchF.words, (farF 0).words] = .ok out ∧
    report 0 false out.words = .ok r ∧
    r.code[0]? = some (lineText 0 w (Instr.beq 0 0 1).name (Instr.beq 0 0 1).operands) := by
  have hd := distinct_branchF 0
  have hholds := holds_branchF (n := 0) (by decide)
  have hfits : Fits [branchF, farF 0] := by
    rintro r d ⟨hr, hd, -⟩ w hw
    obtain rfl : r = ⟨nameF, 0⟩ := by simpa [refs, branchF, farF, Entry.ref] using hr
    obtain rfl : d = ⟨nameF, 1⟩ := by simpa [defs, branchF, farF, Entry.shift] using hd
    obtain rfl : w = 0x13 := (Option.some.inj hw).symm
    constructor <;> decide
  have hlink : link (fun _ => 0) [branchF.words, (farF 0).words] = .ok (linked [branchF, farF 0]) :=
    link_holds hholds (wellFormed_branchF 0) hd (by decide)
  obtain ⟨r, hreport, hreports⟩ := linked_report hholds (wellFormed_branchF 0) hd hlink hfits
    (by decide) (by decide) (by decide) 0
  obtain ⟨w, w', ins, hw, -, rfl, hline⟩ := hreports.resolved ⟨nameF, 0⟩ ⟨nameF, 1⟩
    ⟨by simp [refs, branchF, Entry.ref], by simp [defs, branchF, farF, Entry.shift], rfl⟩
  obtain rfl : w = 0x13 := (Option.some.inj hw).symm
  exact ⟨_, r, w', hlink, hreport, hline⟩

end Cs720.Link
