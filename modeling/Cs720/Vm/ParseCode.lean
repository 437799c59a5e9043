import Mathlib.Data.List.Count
import Mathlib.Logic.Relation
import Cs720.Lib.Loop
import Cs720.Vm.Agree

/-! # Recursive disassembly (`parse_code` in `A1/P2/dsx20.c`)

An `int` is an `Int`. An access outside of the block that `calloc` gives, or behind the object code,
is a fault. `calloc` fails for a negative number of entries, and then the first store is one.
-/

namespace Cs720.Vm

open Cs720.Lib

def D_INS : BitVec 8 := 1

/-- `l[i]` -/
def entry {α : Type} (l : List α) (i : Int) : C α :=
  if i < 0 then .error .fault
  else match l[i.toNat]? with
  | none => .error .fault
  | some a => .ok a

/-- `data[i] = d` -/
def storeAt (data : List (BitVec 8)) (i : Int) (d : BitVec 8) : C (List (BitVec 8)) :=
  if i < 0 ∨ (data.length : Int) ≤ i then .error .fault else .ok (data.set i.toNat d)

structure Scan where
  pc : Int
  data : List (BitVec 8)
  deriving DecidableEq

/-- `target` -/
def scanTarget (cur : Word) (pc : Int) : Int :=
  match op_format ((cur &&& 0xff).setWidth 8) with
  | .addr | .regAddr =>
    -- assume addr == 0 is undefined for now
    if cur >>> 12 = 0 then -1 else (EXTENDBIT20 (cur >>> 12) + BitVec.ofInt 32 pc + 1).toInt
  | .regRegAddr =>
    -- assume addr == 0 is undefined for now
    if cur >>> 16 = 0 then -1 else ((cur >>> 16).setWidth 16).toInt + pc + 1
  | _ => -1

/-- `jmp`, `halt` and `ret` do not guarantee an instruction after. -/
def leaves (cur : Word) : Bool :=
  let op := ins ((cur &&& 0xff).setWidth 8)
  op == .jmp || op == .halt || op == .ret

def jumps (cur : Word) : Bool :=
  let op := ins ((cur &&& 0xff).setWidth 8)
  op == .jmp || op == .beq || op == .blt || op == .bgt || op == .call

def markNext (cur : Word) (s : Scan) : C (List (BitVec 8)) :=
  -- only jmp,halt,ret don't guarantee an instruction after
  if leaves cur then .ok s.data else storeAt s.data (s.pc + 1) D_INS

/-- `target < pc && data[target] == D_DATA` -/
def goesBack (target pc : Int) (data : List (BitVec 8)) : C Bool :=
  if target < pc then return (← entry data target) == D_DATA else return false

def markTarget (target pc : Int) (data : List (BitVec 8)) : C Scan := do
  let back ← goesBack target pc data
  let data ← storeAt data target D_INS
  return ⟨if back then target - 1 else pc, data⟩

def scanIns (cur : Word) (s : Scan) : C Scan := do
  let target := scanTarget cur s.pc
  let data ← markNext cur s
  if jumps cur ∧ target ≠ -1 then markTarget target s.pc data else return ⟨s.pc, data⟩

/-- The body of the loop, with `pc++`. -/
def scanLine (ptr : List Word) (count : Int) (s : Scan) :
    C (Flow Scan (List (BitVec 8))) :=
  if s.pc < count then do
    let cur ← entry ptr s.pc
    let d ← entry s.data s.pc
    let s ← if s.pc = 0 ∨ d = D_INS then scanIns cur s else .ok s
    return .next ⟨s.pc + 1, s.data⟩
  else return .done s.data

/-- `calloc`, then the store to the first entry. -/
def callocData (size : Word) : C (List (BitVec 8)) :=
  if size.toInt < 0 then .error .fault else storeAt (.replicate size.toNat D_DATA) 0 D_INS

/-- `ptr` is the object code. -/
def parse_code (n : Nat) (ptr : List Word) (count : Word) : C (List (BitVec 8)) := do
  let data ← callocData (count + 1)
  loop (scanLine ptr count.toInt) n ⟨0, data⟩

/-! ## The rules of `dsx20.h` -/

/-- The next word is an instruction too. -/
def Falls (w : Word) : Prop :=
  match ins (w.setWidth 8) with
  | .jmp | .halt | .ret => False
  | _ => True

/-- Where the word at line `i` jumps to. -/
def target? (w : Word) (i : Nat) : Option Int :=
  match ins (w.setWidth 8) with
  | .jmp | .call => some (i + 1 + (disp20 w).toInt)
  | .beq | .blt | .bgt => some (i + 1 + (disp16 w).toInt)
  | _ => none

/-- One line makes another an instruction, where only the words with `p` jump. -/
inductive Edge (code : List Word) (p : Word → Prop) : Nat → Nat → Prop
  | next {i : Nat} {w : Word} (hw : code[i]? = some w) (hf : Falls w)
      (hi : i + 1 < code.length) : Edge code p i (i + 1)
  | target {i j : Nat} {w : Word} (hw : code[i]? = some w) (hp : p w)
      (ht : target? w i = some (j : Int)) : Edge code p i j

def ReachedBy (code : List Word) (p : Word → Prop) : Nat → Prop :=
  Relation.ReflTransGen (Edge code p) 0

def Reached (code : List Word) : Nat → Prop := ReachedBy code fun _ => True

structure Closed (code : List Word) (S : Set Nat) : Prop where
  start : 0 ∈ S
  next : ∀ i w, i ∈ S → code[i]? = some w → Falls w → i + 1 < code.length → i + 1 ∈ S
  target : ∀ i w, i ∈ S → code[i]? = some w → ∀ j : Nat, target? w i = some (j : Int) → j ∈ S

theorem reached_least (code : List Word) : IsLeast {S | Closed code S} {i | Reached code i} := by
  constructor
  · refine ⟨Relation.ReflTransGen.refl, ?_, ?_⟩
    · intro i w hi hw hf hlt
      exact hi.tail (.next hw hf hlt)
    · intro i w hi hw j ht
      exact hi.tail (.target hw trivial ht)
  · intro S hS i hi
    induction hi with
    | refl => exact hS.start
    | tail _ he ih =>
      cases he with
      | next hw hf hlt => exact hS.next _ _ ih hw hf hlt
      | target hw _ ht => exact hS.target _ _ ih hw _ ht

/-! ## Targets -/

theorem disp20_eq_zero {w : Word} : disp20 w = 0 ↔ w >>> 12 = 0 := by
  rw [← EXTENDBIT20_ushift]
  constructor
  · intro h
    unfold EXTENDBIT20 at h
    split at h
    · have h31 : (w >>> 12 ||| (0xfff00000 : Word))[31] = true := by simp
      rw [h] at h31
      simp at h31
    · exact h
  · intro h
    rw [h]
    rfl

theorem disp16_eq_zero {w : Word} : disp16 w = 0 ↔ w >>> 16 = 0 := by
  rw [← int16_ushift]
  constructor
  · intro h
    have h16 : (w >>> 16).setWidth 16 = 0 := by
      apply BitVec.eq_of_toInt_eq
      rw [← BitVec.toInt_signExtend_of_le (v := 32) (by decide), h]
      rfl
    ext i hi
    have hbit := congrArg (fun b => b.getLsbD i) h16
    simp at hbit
    rcases Nat.lt_or_ge i 16 with hi16 | hi16
    · simpa using hbit hi16
    · simp [BitVec.getLsbD_of_ge w (16 + i) (by omega)]
  · intro h
    rw [h]
    rfl

theorem toInt_int16 (w : Word) : ((w >>> 16).setWidth 16).toInt = (disp16 w).toInt := by
  rw [← int16_ushift, BitVec.toInt_signExtend_of_le (by decide)]

theorem falls_iff {w : Word} : Falls w ↔ leaves w = false := by
  unfold Falls leaves
  rw [mask_op]
  cases ins (w.setWidth 8) <;> simp

theorem jumps_of_target {w : Word} {i : Nat} {t : Int} (h : target? w i = some t) :
    jumps w = true := by
  unfold target? at h
  unfold jumps
  rw [mask_op]
  cases hop : ins (w.setWidth 8) <;> simp_all

theorem addr_value (w : Word) (i : Nat) : (EXTENDBIT20 (w >>> 12) + BitVec.ofInt 32 i + 1).toInt =
    (i + 1 + (disp20 w).toInt).bmod (2 ^ 32) := by
  have hsum : (disp20 w + BitVec.ofInt 32 i + 1).toInt =
      ((disp20 w).toInt + i + 1).bmod (2 ^ 32) := by
    rw [BitVec.toInt_add, BitVec.toInt_add, BitVec.toInt_ofInt]
    simp
  rw [EXTENDBIT20_ushift, hsum]
  congr 1
  omega

/-- The address in the upper 20 bits, 0 for an outsymbol. -/
theorem addr_target {w : Word} {i : Nat} (h1 : i + 1 + (disp20 w).toInt < 2 ^ 31) :
    (if w >>> 12 = 0 then (-1 : Int)
      else (EXTENDBIT20 (w >>> 12) + BitVec.ofInt 32 i + 1).toInt) =
      if disp20 w = 0 then -1 else i + 1 + (disp20 w).toInt := by
  have h0 : -2 ^ 31 ≤ (disp20 w).toInt := BitVec.le_toInt _
  rw [addr_value, Int.bmod_eq_of_le (by omega) (by omega)]
  simp only [disp20_eq_zero]

theorem regRegAddr_target {w : Word} {i : Nat} :
    (if w >>> 16 = 0 then (-1 : Int) else ((w >>> 16).setWidth 16).toInt + i + 1) =
      if disp16 w = 0 then -1 else i + 1 + (disp16 w).toInt := by
  simp only [← disp16_eq_zero, toInt_int16]
  split <;> omega

/-- The displacement of a word that jumps. -/
def displacement (w : Word) : Word :=
  if op_format (w.setWidth 8) = .addr then disp20 w else disp16 w

theorem target_of_jumps {w : Word} (i : Nat) (h : jumps w = true) :
    target? w i = some (i + 1 + (displacement w).toInt) := by
  unfold jumps at h
  unfold target? displacement op_format
  rw [mask_op] at h
  cases hop : ins (w.setWidth 8) <;> simp [hop] at h ⊢

/-- The target of a jump is not known if the displacement is 0. -/
theorem scanTarget_of_jumps {w : Word} {i : Nat} (h : jumps w = true)
    (h1 : i + 1 + (displacement w).toInt < 2 ^ 31) :
    scanTarget w i = if displacement w = 0 then -1 else i + 1 + (displacement w).toInt := by
  unfold jumps at h
  unfold displacement op_format at *
  unfold scanTarget op_format
  rw [mask_op] at *
  cases hop : ins (w.setWidth 8) <;> simp [hop] at h <;>
    simp only [hop, if_true, if_false, reduceCtorEq] at h1 ⊢
  case call => exact addr_target h1
  case jmp => exact addr_target h1
  all_goals exact regRegAddr_target

/-- A jump to the next line, whose displacement is 0. -/
def JmpZero (w : Word) : Prop := ins (w.setWidth 8) = .jmp ∧ disp20 w = 0

instance : DecidablePred JmpZero := fun _ => inferInstanceAs (Decidable (_ ∧ _))

theorem falls_or_jmpZero {w : Word} (h : jumps w = true) (hz : displacement w = 0) :
    Falls w ∨ JmpZero w := by
  unfold jumps at h
  unfold displacement op_format at hz
  unfold Falls JmpZero
  rw [mask_op] at h
  cases hop : ins (w.setWidth 8) <;> simp [hop] at h hz ⊢
  exact hz

theorem displacement_of_jmpZero {w : Word} (h : JmpZero w) : displacement w = 0 := by
  unfold displacement op_format
  simp [h.1, h.2]

/-! ## Marks -/

def Marked (data : List (BitVec 8)) (i : Nat) : Prop := data[i]? = some D_INS

instance (data : List (BitVec 8)) : DecidablePred (Marked data) :=
  fun _ => inferInstanceAs (Decidable (_ = _))

theorem entry_nat {α : Type} {l : List α} {i : Nat} {a : α} (h : l[i]? = some a) :
    entry l i = .ok a := by
  unfold entry
  rw [if_neg (by omega), Int.toNat_natCast, h]

theorem storeAt_nat {data : List (BitVec 8)} {i : Nat} {d : BitVec 8} (h : i < data.length) :
    storeAt data i d = .ok (data.set i d) := by
  unfold storeAt
  rw [if_neg (by omega), Int.toNat_natCast]

/-- The lines with `P` have been marked. -/
structure Grown (data data' : List (BitVec 8)) (P : Nat → Prop) : Prop where
  length : data'.length = data.length
  values : (∀ d ∈ data, d = D_DATA ∨ d = D_INS) → ∀ d ∈ data', d = D_DATA ∨ d = D_INS
  marked : ∀ j, Marked data' j ↔ Marked data j ∨ P j

theorem grown_refl (data : List (BitVec 8)) : Grown data data fun _ => False :=
  ⟨rfl, id, by simp⟩

theorem grown_set (data : List (BitVec 8)) {i : Nat} (h : i < data.length) :
    Grown data (data.set i D_INS) (· = i) := by
  refine ⟨List.length_set, ?_, ?_⟩
  · intro hv d hd
    rcases List.mem_or_eq_of_mem_set hd with hd | rfl
    · exact hv d hd
    · exact Or.inr rfl
  · intro j
    unfold Marked
    rw [List.getElem?_set]
    split
    · rename_i hij
      subst hij
      simp [h]
    · rename_i hij
      simp [Ne.symm hij]

theorem Grown.trans {a b c : List (BitVec 8)} {P Q : Nat → Prop} (h : Grown a b P)
    (h' : Grown b c Q) : Grown a c fun j => P j ∨ Q j := by
  refine ⟨h'.length.trans h.length, fun hv => h'.values (h.values hv), fun j => ?_⟩
  rw [h'.marked, h.marked, or_assoc]

theorem Grown.congr {a b : List (BitVec 8)} {P Q : Nat → Prop} (h : Grown a b P)
    (hPQ : ∀ j, P j ↔ Q j) : Grown a b Q :=
  ⟨h.length, h.values, fun j => by rw [h.marked, hPQ]⟩

/-! ## One line -/

/-- The lines that the word at line `i` makes instructions, as `parse_code` has it. -/
def Marks (w : Word) (i j : Nat) : Prop :=
  Falls w ∧ j = i + 1 ∨ ¬ JmpZero w ∧ target? w i = some (j : Int)

theorem marks_next {w : Word} {i j : Nat}
    (h : jumps w = false ∨ displacement w = 0 ∨ i + 1 + (displacement w).toInt = -1) :
    Falls w ∧ j = i + 1 ↔ Marks w i j := by
  refine ⟨Or.inl, ?_⟩
  rintro (h' | ⟨hz, ht⟩)
  · exact h'
  · have hj := jumps_of_target ht
    rw [target_of_jumps i hj] at ht
    have ht := Option.some.inj ht
    rcases h with h | h | h
    · rw [h] at hj
      contradiction
    · refine ⟨(falls_or_jmpZero hj h).resolve_right hz, ?_⟩
      rw [h] at ht
      simp at ht
      omega
    · omega

theorem marks_target {w : Word} {i t j : Nat} (hz : displacement w ≠ 0)
    (ht : target? w i = some (t : Int)) :
    (Falls w ∧ j = i + 1) ∨ j = t ↔ Marks w i j := by
  have hjz : ¬ JmpZero w := fun h => hz (displacement_of_jmpZero h)
  unfold Marks
  rw [ht]
  simp [hjz, eq_comm]

theorem next_marked (w : Word) (data : List (BitVec 8)) {i : Nat} (hi : i + 1 < data.length) :
    ∃ data', markNext w ⟨i, data⟩ = .ok data' ∧
      Grown data data' fun j => Falls w ∧ j = i + 1 := by
  unfold markNext
  rw [falls_iff]
  rcases hl : leaves w with - | -
  · refine ⟨_, ?_, (grown_set data hi).congr (by simp)⟩
    rw [if_neg (by simp), ← storeAt_nat hi]
    rfl
  · exact ⟨data, rfl, (grown_refl data).congr (by simp)⟩

theorem goesBack_nat {data : List (BitVec 8)} {i t : Nat}
    (hv : ∀ d ∈ data, d = D_DATA ∨ d = D_INS) (ht : t < data.length) :
    goesBack t i data = .ok (decide (t < i ∧ ¬ Marked data t)) := by
  have hget := List.getElem?_eq_getElem ht
  have hm : Marked data t ↔ data[t] = D_INS := by
    unfold Marked
    rw [hget, Option.some.injEq]
  unfold goesBack
  rw [entry_nat hget]
  by_cases hlt : t < i
  · rw [if_pos (by omega)]
    simp only [hlt, hm]
    rcases hv _ (List.getElem_mem ht) with h | h <;> rw [h] <;> rfl
  · rw [if_neg (by omega)]
    simp only [hlt]
    rfl

theorem markTarget_nat {data : List (BitVec 8)} {i t : Nat}
    (hv : ∀ d ∈ data, d = D_DATA ∨ d = D_INS) (ht : t < data.length) :
    markTarget t i data =
      .ok ⟨if t < i ∧ ¬ Marked data t then t - 1 else i, data.set t D_INS⟩ := by
  unfold markTarget
  rw [goesBack_nat hv ht, storeAt_nat ht]
  simp only [bind, Except.bind, decide_eq_true_eq]
  rfl

theorem scanLine_unmarked {code : List Word} {data : List (BitVec 8)} {i : Nat} {w : Word}
    (hw : code[i]? = some w) (hi : i < data.length) (h0 : Marked data 0) (hm : ¬ Marked data i) :
    scanLine code code.length ⟨i, data⟩ = .ok (.next ⟨i + 1, data⟩) := by
  have hlt : i < code.length := (List.getElem?_eq_some_iff.mp hw).1
  have hskip : ¬ ((i : Int) = 0 ∨ data[i] = D_INS) := by
    rintro (h | h)
    · obtain rfl : i = 0 := by simpa using h
      exact hm h0
    · exact hm (by rw [Marked, List.getElem?_eq_getElem hi, h])
  unfold scanLine
  simp only [entry_nat hw, entry_nat (List.getElem?_eq_getElem hi)]
  rw [if_pos (by simpa using hlt)]
  simp only [bind, Except.bind]
  rw [if_neg hskip]
  rfl

/-- A marked line `i` has been scanned, and the scan goes on at `k`. -/
structure Scanned (data : List (BitVec 8)) (w : Word) (i k : Nat) (data' : List (BitVec 8)) :
    Prop where
  grown : Grown data data' (Marks w i)
  before : ∀ j < k, Marked data' j → Marked data j ∨ j = i
  goesOn : k = i + 1 ∨ k < i ∧ Marked data' k ∧ ¬ Marked data k

/-- The target of line `i` has an entry, or it is -1, which stands for no target. -/
def LineFits (code : List Word) (i : Nat) : Prop :=
  ∀ w t, code[i]? = some w → target? w i = some t → t = -1 ∨ 0 ≤ t ∧ t ≤ code.length

section
variable {code : List Word} {data : List (BitVec 8)} {i : Nat} {w : Word}

theorem scanIns_jumps (hi : i < code.length) (hlen : data.length = code.length + 1)
    (hv : ∀ d ∈ data, d = D_DATA ∨ d = D_INS) (hn : code.length < 2 ^ 31) (hj : jumps w = true)
    (hz : displacement w ≠ 0) (h0 : 0 ≤ i + 1 + (displacement w).toInt)
    (h1 : i + 1 + (displacement w).toInt ≤ code.length) :
    ∃ (k : Nat) (data' : List (BitVec 8)),
      scanIns w ⟨i, data⟩ = .ok ⟨(k : Int) - 1, data'⟩ ∧ Scanned data w i k data' := by
  obtain ⟨data₁, hdata₁, hg⟩ := next_marked w data (by omega : i + 1 < data.length)
  have htarget := target_of_jumps i hj
  have hscan : scanTarget w i = _ := scanTarget_of_jumps hj (by omega)
  rw [if_neg hz] at hscan
  obtain ⟨t, ht⟩ := Int.eq_ofNat_of_zero_le h0
  rw [ht] at hscan htarget
  have hlt : t < data₁.length := by rw [hg.length]; omega
  have hset := grown_set data₁ hlt
  have hgt := (hg.trans hset).congr fun j => marks_target hz htarget
  have hold : ∀ j, Marked data₁ j → j ≤ i → Marked data j := by
    intro j hm hji
    rcases (hg.marked j).mp hm with h | ⟨-, rfl⟩
    · exact h
    · omega
  unfold scanIns
  rw [hdata₁]
  simp only [bind, Except.bind]
  rw [if_pos ⟨hj, by rw [hscan]; omega⟩, hscan, markTarget_nat (hg.values hv) hlt]
  split
  · rename_i hback
    refine ⟨t, _, rfl, hgt, ?_, Or.inr ⟨hback.1, ?_, ?_⟩⟩
    · intro j hjt hm
      rcases (hset.marked j).mp hm with h | rfl
      · exact Or.inl (hold j h (by omega))
      · omega
    · exact (hset.marked t).mpr (Or.inr rfl)
    · exact fun h => hback.2 ((hg.marked t).mpr (Or.inl h))
  · rename_i hback
    refine ⟨i + 1, _, by simp, hgt, ?_, Or.inl rfl⟩
    intro j hji hm
    rcases (hset.marked j).mp hm with h | rfl
    · exact Or.inl (hold j h (by omega))
    · rcases Nat.lt_or_ge j i with hlt' | hge
      · exact Or.inl (hold j (by_contra fun h => hback ⟨hlt', h⟩) (by omega))
      · exact Or.inr (by omega)

theorem scanIns_goesOn (hi : i < code.length) (hlen : data.length = code.length + 1)
    (hn : code.length < 2 ^ 31)
    (hj : jumps w = false ∨ displacement w = 0 ∨ i + 1 + (displacement w).toInt = -1) :
    ∃ data', scanIns w ⟨i, data⟩ = .ok ⟨i, data'⟩ ∧ Scanned data w i (i + 1) data' := by
  obtain ⟨data₁, hdata₁, hg⟩ := next_marked w data (by omega : i + 1 < data.length)
  refine ⟨data₁, ?_, hg.congr fun j => marks_next hj, ?_, Or.inl rfl⟩
  · have hnot : ¬ (jumps w = true ∧ scanTarget w i ≠ -1) := by
      rintro ⟨hjw, hs⟩
      rcases hj with hj | hz | hminus
      · rw [hj] at hjw
        contradiction
      · have hnext : i + 1 + (displacement w).toInt = i + 1 := by simp [hz]
        exact hs ((scanTarget_of_jumps hjw (by omega)).trans (if_pos hz))
      · rw [scanTarget_of_jumps hjw (by omega), hminus, ite_self] at hs
        exact hs rfl
    unfold scanIns
    rw [hdata₁]
    simp only [bind, Except.bind]
    rw [if_neg hnot]
    rfl
  · intro j hj' hm'
    rcases (hg.marked j).mp hm' with h | ⟨-, rfl⟩
    · exact Or.inl h
    · omega

/-- A line that is marked: what it marks, and where the scan goes on. -/
theorem scanIns_marked (hw : code[i]? = some w) (hlen : data.length = code.length + 1)
    (hv : ∀ d ∈ data, d = D_DATA ∨ d = D_INS) (hn : code.length < 2 ^ 31)
    (hfits : LineFits code i) :
    ∃ (k : Nat) (data' : List (BitVec 8)),
      scanIns w ⟨i, data⟩ = .ok ⟨(k : Int) - 1, data'⟩ ∧ Scanned data w i k data' := by
  have hi : i < code.length := (List.getElem?_eq_some_iff.mp hw).1
  by_cases hstay : jumps w = false ∨ displacement w = 0 ∨ i + 1 + (displacement w).toInt = -1
  · obtain ⟨data', hs, h⟩ := scanIns_goesOn hi hlen hn hstay
    exact ⟨i + 1, data', by simpa using hs, h⟩
  · simp only [not_or, Bool.not_eq_false] at hstay
    obtain ⟨hj, hz, hminus⟩ := hstay
    obtain ⟨h0, h1⟩ := (hfits w _ hw (target_of_jumps i hj)).resolve_left hminus
    exact scanIns_jumps hi hlen hv hn hj hz h0 h1

end

/-! ## The scan -/

/-- Every target of a reachable line is a line. -/
def TargetsIn (code : List Word) : Prop :=
  ∀ i w t, Reached code i → code[i]? = some w → target? w i = some t → 0 ≤ t ∧ t < code.length

/-- Reachable with no jump of displacement 0. -/
def Seen (code : List Word) : Nat → Prop := ReachedBy code fun w => ¬ JmpZero w

theorem Seen.reached {code : List Word} {i : Nat} (h : Seen code i) : Reached code i := by
  refine Relation.ReflTransGen.mono ?_ 0 i h
  intro a b he
  cases he with
  | next hw hf hi => exact .next hw hf hi
  | target hw _ ht => exact .target hw trivial ht

structure ScanInv (code : List Word) (s : Scan) : Prop where
  length : s.data.length = code.length + 1
  values : ∀ d ∈ s.data, d = D_DATA ∨ d = D_INS
  pc : 0 ≤ s.pc ∧ s.pc ≤ code.length
  start : Marked s.data 0
  seen : ∀ i < code.length, Marked s.data i → Seen code i
  closed : ∀ i : Nat, i < s.pc → Marked s.data i → ∀ j, Edge code (fun w => ¬ JmpZero w) i j →
    Marked s.data j

theorem TargetsIn.fits {code : List Word} {s : Scan} (h : TargetsIn code) (hs : ScanInv code s)
    (i : Nat) (_ : s.pc = i) (hm : Marked s.data i) : LineFits code i := by
  intro w t hw ht
  have hi : i < code.length := (List.getElem?_eq_some_iff.mp hw).1
  obtain ⟨h0, h1⟩ := h i w t (hs.seen i hi hm).reached hw ht
  exact Or.inr ⟨h0, by omega⟩

/-- The lines that are still data. -/
def unmarked (code : List Word) (data : List (BitVec 8)) : Finset Nat :=
  (Finset.range (code.length + 1)).filter fun i => ¬ Marked data i

/-- The scan goes back only after a line has been marked. -/
def scanMeasure (code : List Word) (s : Scan) : Nat :=
  (unmarked code s.data).card * (code.length + 1) + (code.length - s.pc.toNat)

theorem unmarked_anti (code : List Word) {data data' : List (BitVec 8)}
    (h : ∀ j, Marked data j → Marked data' j) :
    unmarked code data' ⊆ unmarked code data := by
  intro j hj
  rw [unmarked, Finset.mem_filter] at hj ⊢
  exact ⟨hj.1, fun hm => hj.2 (h j hm)⟩

theorem scanMeasure_lt {code : List Word} {data data' : List (BitVec 8)} {i k : Nat}
    (hi : i < code.length) (h : ∀ j, Marked data j → Marked data' j)
    (hk : k = i + 1 ∨ k < i ∧ Marked data' k ∧ ¬ Marked data k) :
    scanMeasure code ⟨k, data'⟩ < scanMeasure code ⟨i, data⟩ := by
  have hsub := unmarked_anti code h
  unfold scanMeasure
  simp only [Int.toNat_natCast]
  rcases hk with rfl | ⟨hki, hm, hn⟩
  · have := Nat.mul_le_mul_right (code.length + 1) (Finset.card_le_card hsub)
    omega
  · have hmem : k ∈ unmarked code data := by
      rw [unmarked, Finset.mem_filter, Finset.mem_range]
      exact ⟨by omega, hn⟩
    have hlt : (unmarked code data').card < (unmarked code data).card := by
      refine Finset.card_lt_card ⟨hsub, fun h' => ?_⟩
      exact (Finset.mem_filter.mp (h' hmem)).2 hm
    have := Nat.mul_le_mul_right (code.length + 1) (Nat.succ_le_of_lt hlt)
    rw [Nat.succ_mul] at this
    omega

/-- What a line marks is what its edges lead to. -/
theorem marks_of_edge {code : List Word} {w : Word} {i j : Nat} (hw : code[i]? = some w)
    (h : Edge code (fun w => ¬ JmpZero w) i j) : Marks w i j := by
  cases h with
  | next hw' hf _ =>
    rw [hw] at hw'
    cases hw'
    exact Or.inl ⟨hf, rfl⟩
  | target hw' hp ht =>
    rw [hw] at hw'
    cases hw'
    exact Or.inr ⟨hp, ht⟩

theorem edge_of_marks {code : List Word} {w : Word} {i j : Nat} (hw : code[i]? = some w)
    (hj : j < code.length) (h : Marks w i j) : Edge code (fun w => ¬ JmpZero w) i j := by
  rcases h with ⟨hf, rfl⟩ | ⟨hp, ht⟩
  · exact .next hw hf hj
  · exact .target hw hp ht

/-- One iteration from `s` to `s'`. No line is marked behind it. -/
structure Advances (code : List Word) (s s' : Scan) : Prop where
  line : scanLine code code.length s = .ok (.next s')
  inv : ScanInv code s'
  measure : scanMeasure code s' < scanMeasure code s
  behind : ∀ j : Nat, j < s'.pc → Marked s'.data j → Marked s.data j ∧ j ≤ s.pc

theorem scanInv_step {code : List Word} {s : Scan} (hn : code.length < 2 ^ 31)
    (hfits : ∀ i : Nat, s.pc = i → Marked s.data i → LineFits code i) (hs : ScanInv code s)
    (hlt : s.pc < code.length) : ∃ s', Advances code s s' := by
  obtain ⟨pc, data⟩ := s
  obtain ⟨i, rfl⟩ := Int.eq_ofNat_of_zero_le hs.pc.1
  have hi : i < code.length := by simpa using hlt
  have hw := List.getElem?_eq_getElem hi
  have hlen : data.length = code.length + 1 := hs.length
  by_cases hm : Marked data i
  · have hseen : Seen code i := hs.seen i hi hm
    obtain ⟨k, data', hscan, hg, hold, hk⟩ := scanIns_marked hw hlen hs.values hn (hfits i rfl hm)
    have hk' : k ≤ i + 1 := by omega
    have hline : scanLine code code.length ⟨i, data⟩ = .ok (.next ⟨k, data'⟩) := by
      unfold scanLine
      simp only [entry_nat hw, entry_nat hm]
      rw [if_pos (by simpa using hlt)]
      simp only [bind, Except.bind]
      rw [if_pos (Or.inr trivial), hscan]
      simp
      rfl
    have hbehind : ∀ j : Nat, (j : Int) < k → Marked data' j → Marked data j ∧ (j : Int) ≤ i := by
      intro j hjk hmj
      refine ⟨?_, by omega⟩
      rcases hold j (by omega) hmj with h | rfl
      · exact h
      · exact hm
    refine ⟨_, hline, ⟨hg.length.trans hlen, hg.values hs.values, ?_, ?_, ?_, ?_⟩,
      scanMeasure_lt hi (fun j hj => (hg.marked j).mpr (Or.inl hj)) hk, hbehind⟩
    · simp
      omega
    · exact (hg.marked 0).mpr (Or.inl hs.start)
    · intro j hj hmj
      rcases (hg.marked j).mp hmj with h | h
      · exact hs.seen j hj h
      · exact hseen.tail (edge_of_marks hw hj h)
    · intro j hjk hmj l he
      have hj : j < k := by simpa using hjk
      rw [hg.marked]
      rcases Nat.lt_or_ge j i with hji | hji
      · exact Or.inl (hs.closed j (by simpa using hji) (hbehind j (by omega) hmj).1 l he)
      · obtain rfl : j = i := by omega
        exact Or.inr (marks_of_edge hw he)
  · refine ⟨_, scanLine_unmarked hw (by omega) hs.start hm, ?_,
      scanMeasure_lt hi (fun j hj => hj) (Or.inl rfl), fun j hj hmj => ⟨hmj, Int.lt_add_one_iff.mp hj⟩⟩
    refine ⟨hlen, hs.values, by simp; omega, hs.start, hs.seen, ?_⟩
    intro j hj hmj
    rcases Nat.lt_or_ge j i with h | h
    · exact hs.closed j (by simpa using h) hmj
    · obtain rfl : j = i := by simp at hj; omega
      exact absurd hmj hm

theorem scanInv_start (code : List Word) :
    ScanInv code ⟨0, (List.replicate (code.length + 1) D_DATA).set 0 D_INS⟩ := by
  have hg := grown_set (.replicate (code.length + 1) D_DATA) (by simp : 0 < _)
  have hnot : ∀ i, ¬ Marked (List.replicate (code.length + 1) D_DATA) i := by
    intro i h
    unfold Marked at h
    obtain ⟨hi, h⟩ := List.getElem?_eq_some_iff.mp h
    rw [List.getElem_replicate] at h
    exact absurd h (by decide)
  have hzero : ∀ i, Marked ((List.replicate (code.length + 1) D_DATA).set 0 D_INS) i ↔ i = 0 := by
    intro i
    rw [hg.marked i]
    simp [hnot]
  refine ⟨by simp, ?_, ⟨le_refl _, by simp⟩, (hzero 0).mpr rfl, ?_, ?_⟩
  · apply hg.values
    intro d hd
    exact Or.inl (List.eq_of_mem_replicate hd)
  · intro i _ hm
    obtain rfl := (hzero i).mp hm
    exact Relation.ReflTransGen.refl
  · intro i hi
    have hi : (i : Int) < 0 := hi
    omega

/-- At the end every line is closed under the edges. -/
theorem scanInv_done {code : List Word} {s : Scan} (hs : ScanInv code s) (hge : code.length ≤ s.pc)
    {i : Nat} (hi : i < code.length) : Marked s.data i ↔ Seen code i := by
  refine ⟨hs.seen i hi, fun h => ?_⟩
  clear hi
  induction h with
  | refl => exact hs.start
  | tail hij he ih =>
    rename_i j l
    have hj : j < code.length := by
      cases he with
      | next hw _ _ => exact (List.getElem?_eq_some_iff.mp hw).1
      | target hw _ _ => exact (List.getElem?_eq_some_iff.mp hw).1
    exact hs.closed j (by omega) ih l he

theorem callocData_eq {size : Word} (h0 : 0 < size.toNat) (h1 : size.toNat < 2 ^ 31) :
    callocData size = .ok ((List.replicate size.toNat D_DATA).set 0 D_INS) := by
  unfold callocData
  rw [if_neg, ← storeAt_nat (by simpa using h0)]
  · rfl
  · rw [BitVec.toInt_eq_toNat_of_lt (by omega)]
    omega

theorem parse_code_eq {code : List Word} {count : Word} (hlen : code.length = count.toNat)
    (hn : code.length + 1 < 2 ^ 31) (n : Nat) :
    parse_code n code count = loop (scanLine code code.length) n
      ⟨0, (List.replicate (code.length + 1) D_DATA).set 0 D_INS⟩ := by
  have hcount : count.toInt = code.length := by
    rw [BitVec.toInt_eq_toNat_of_lt (by omega), hlen]
  have hsize : (count + 1).toNat = code.length + 1 := by
    rw [BitVec.toNat_add, hlen]
    exact Nat.mod_eq_of_lt (by simp; omega)
  unfold parse_code
  rw [hcount, callocData_eq (by omega) (by omega), hsize]
  rfl

theorem parse_code_unique {n n' : Nat} {code : List Word} {count : Word}
    {data data' : List (BitVec 8)} (h : parse_code n code count = .ok data)
    (h' : parse_code n' code count = .ok data') : data = data' := by
  unfold parse_code at h h'
  obtain ⟨d, hd, hloop⟩ := bind_ok.mp h
  obtain ⟨d', hd', hloop'⟩ := bind_ok.mp h'
  rw [hd] at hd'
  cases hd'
  exact loop_unique hloop hloop'

/-- The lines that end up marked. -/
theorem parse_code_marks {code : List Word} {count : Word} (hlen : code.length = count.toNat)
    (hn : code.length + 1 < 2 ^ 31) (htargets : TargetsIn code) :
    ∃ n data, parse_code n code count = .ok data ∧
      ∀ i < code.length, Marked data i ↔ Seen code i := by
  have hstep : ∀ s, ScanInv code s →
      (∃ s', scanLine code code.length s = .ok (.next s') ∧ ScanInv code s' ∧
        scanMeasure code s' < scanMeasure code s) ∨
      ∃ data, scanLine code code.length s = .ok (.done data) ∧
        ∀ i < code.length, Marked data i ↔ Seen code i := by
    intro s hs
    by_cases hlt : s.pc < code.length
    · obtain ⟨s', hline, hs', hμ, -⟩ := scanInv_step (by omega) (htargets.fits hs) hs hlt
      exact Or.inl ⟨s', hline, hs', hμ⟩
    · exact Or.inr ⟨s.data, if_neg hlt, fun i hi => scanInv_done hs (by omega) hi⟩
  obtain ⟨data, hdata, hmarks⟩ := loop_total _ _ (scanMeasure code) hstep (Nat.lt_succ_self _)
    (scanInv_start code)
  exact ⟨_, data, (parse_code_eq hlen hn _).trans hdata, hmarks⟩

/-- A negative number of entries is not allocated. -/
theorem parse_code_fault {code : List Word} {count : Word} (hn : 2 ^ 31 ≤ count.toNat + 1)
    (n : Nat) : parse_code n code count = .error .fault := by
  have hcalloc : callocData (count + 1) = .error .fault := by
    by_cases hmax : count = -1
    · rw [hmax]
      rfl
    · have hlt : count.toNat + 1 < 2 ^ 32 := by
        have hne : count.toNat ≠ (-1 : Word).toNat := fun h => hmax (BitVec.eq_of_toNat_eq h)
        have := count.isLt
        simp at hne
        omega
      have htoNat : (count + 1).toNat = count.toNat + 1 := by
        rw [BitVec.toNat_add]
        exact Nat.mod_eq_of_lt hlt
      unfold callocData
      rw [if_pos]
      rw [BitVec.toInt_eq_toNat_cond, htoNat]
      split <;> omega
  unfold parse_code
  rw [hcalloc]
  rfl

/-- The marked lines are the reachable ones. -/
theorem parse_code_exact {code : List Word} {count : Word} (hlen : code.length = count.toNat)
    (htargets : TargetsIn code) :
    (∃ n data, parse_code n code count = .ok data ∧
      ∀ i < code.length, data[i]? = some D_INS ↔ Reached code i) ↔
    code.length + 1 < 2 ^ 31 ∧
      ∀ i w, Reached code i → code[i]? = some w → JmpZero w → Seen code (i + 1) := by
  constructor
  · rintro ⟨n, data, hdata, hexact⟩
    have hn : code.length + 1 < 2 ^ 31 := by
      by_contra hn
      rw [parse_code_fault (by omega)] at hdata
      cases hdata
    refine ⟨hn, fun i w hi hw hz => ?_⟩
    obtain ⟨n', data', hdata', hseen⟩ := parse_code_marks hlen hn htargets
    have htarget : target? w i = some ((i + 1 : Nat) : Int) := by
      unfold target?
      simp [hz.1, hz.2]
    have hlt := (htargets i w _ hi hw htarget).2
    have hreached : Reached code (i + 1) := hi.tail (.target hw trivial htarget)
    rw [← hseen (i + 1) (by omega)]
    obtain rfl := parse_code_unique hdata hdata'
    exact (hexact (i + 1) (by omega)).mpr hreached
  · rintro ⟨hn, hzero⟩
    obtain ⟨n, data, hdata, hmarks⟩ := parse_code_marks hlen hn htargets
    refine ⟨n, data, hdata, fun i hi => (hmarks i hi).trans ⟨Seen.reached, fun h => ?_⟩⟩
    clear hi
    induction h with
    | refl => exact Relation.ReflTransGen.refl
    | tail hij he ih =>
      cases he with
      | next hw hf hlt => exact ih.tail (.next hw hf hlt)
      | target hw hp ht =>
        rename_i j l w
        by_cases hz : JmpZero w
        · obtain rfl : l = j + 1 := by
            unfold target? at ht
            simp [hz.1, hz.2] at ht
            omega
          exact hzero j w hij hw hz
        · exact ih.tail (.target hw hz ht)

/-- `jmp` to the next line, and `halt` -/
def jmpNext : List Word := [0x14, 0]

theorem jmpNext_targets : TargetsIn jmpNext := by
  intro i w t _ hw ht
  match i with
  | 0 =>
    cases hw
    simp [target?, ins, disp20] at ht
    simp [jmpNext, ← ht]
  | 1 =>
    cases hw
    simp [target?, ins] at ht
  | i + 2 => simp [jmpNext] at hw

/-- The second line is reachable, and it is printed as data. -/
theorem jmpNext_missed :
    TargetsIn jmpNext ∧ Reached jmpNext 1 ∧
      (∃ data, parse_code 3 jmpNext 2 = .ok data ∧ data[1]? ≠ some D_INS) ∧
      ¬ ∃ n data, parse_code n jmpNext 2 = .ok data ∧
        ∀ i < jmpNext.length, data[i]? = some D_INS ↔ Reached jmpNext i := by
  have hreached : Reached jmpNext 1 :=
    Relation.ReflTransGen.single (.target rfl trivial (by decide : target? 0x14 0 = some 1))
  have hrun : parse_code 3 jmpNext 2 = .ok [1, 0, 0] := by decide
  refine ⟨jmpNext_targets, hreached, ⟨_, hrun, by decide⟩, ?_⟩
  rintro ⟨n, data, hdata, hexact⟩
  obtain rfl := parse_code_unique hrun hdata
  exact absurd ((hexact 1 (by decide)).mpr hreached) (by decide)

/-- `jmp` to line 2, from there back to line 1, and `halt` there -/
def jmpAround : List Word := [0x1014, 0, 0xffffe014]

theorem jmpAround_targets : TargetsIn jmpAround := by
  intro i w t _ hw ht
  match i with
  | 0 =>
    cases hw
    simp [target?, ins, disp20] at ht
    simp [jmpAround, ← ht]
  | 1 =>
    cases hw
    simp [target?, ins] at ht
  | 2 =>
    cases hw
    simp [target?, ins, disp20] at ht
    simp [jmpAround, ← ht]
  | i + 3 => simp [jmpAround] at hw

theorem jmpAround_exact : ∃ n data, parse_code n jmpAround 3 = .ok data ∧
    ∀ i < jmpAround.length, data[i]? = some D_INS ↔ Reached jmpAround i := by
  refine (parse_code_exact rfl jmpAround_targets).mpr ⟨by simp [jmpAround], fun i w _ hw hz => ?_⟩
  have hmem : w ∈ jmpAround := List.mem_of_getElem? hw
  unfold jmpAround at hmem
  simp only [List.mem_cons, List.not_mem_nil, or_false] at hmem
  rcases hmem with rfl | rfl | rfl <;> simp [JmpZero, ins, disp20] at hz

end Cs720.Vm
