import Mathlib.Algebra.BigOperators.Group.List.Basic
import Cs720.Link.Meaning
import Cs720.Vm.Rules
import Cs720.Vm.SpinLock

/-! # The sum of a vector (`A1/P2/PartB/sumVector_main.asm`)

The cores share the program, its vector and the word for the sum. Each stores the same sum.
-/

namespace Cs720.Vm.SumVector

open Cs720.Lib

/-! ## The program -/

/-- The addresses of `sum`, `len` and `vector`. -/
def SUM : Word := 1
def LEN : Word := 2
def VECTOR : Word := 3

/-- The instruction `instr` for the place `pc`, with the address `a`. -/
def addressed (instr : Word) (pc a : Nat) : Word :=
  Link.rewrite instr (BitVec.ofNat 32 a - (BitVec.ofNat 32 pc + 1))

/-- The code from `skipData` on, for a vector of `n` words. -/
def skipData (n : Nat) : List Word :=
  [0x00000003, addressed 0x00000101 (n + 4) 2, addressed 0x00000204 (n + 5) 3, 0x00000303,
    0x00001403, 0x00051013, 0x00002505, 0x0000530b, 0x0000420b, 0x0000400b, 0xffffa014,
    addressed 0x00000302 (n + 14) 1, 0]

/-- The code, with the vector `v`. -/
def sumCode (v : List Word) : List Word :=
  [addressed 0x00000014 0 (v.length + 3), 0, BitVec.ofNat 32 v.length] ++ v ++ skipData v.length

/-- The words of `sumVector_main.obj`. -/
example : sumCode [1, 2, 3, 4, 5] =
    [0x00007014, 0, 5, 1, 2, 3, 4, 5, 0x00000003, 0xffff8101, 0xffff8204, 0x00000303, 0x00001403,
      0x00051013, 0x00002505, 0x0000530b, 0x0000420b, 0x0000400b, 0xffffa014, 0xfffed302, 0] := by
  decide

/-- The names `done`, `sum` and `top`. -/
def doneName : List Byte := [0x64, 0x6f, 0x6e, 0x65]
def sumName : List Byte := [0x73, 0x75, 0x6d]
def topName : List Byte := [0x74, 0x6f, 0x70]

/-- The insymbol section with `done`, `mainx20`, `sum` and `top`. -/
def sumSymbols (n : Nat) : List Word :=
  [0x656e6f64, 0, 0, 0, BitVec.ofNat 32 (n + 14)] ++ mainSection 0 ++ [0x006d7573, 0, 0, 0, SUM] ++
    [0x00706f74, 0, 0, 0, BitVec.ofNat 32 (n + 8)]

def sumFile (v : List Word) : File where
  words := [20, 0, BitVec.ofNat 32 (v.length + 16)] ++ sumSymbols v.length ++ sumCode v
  rest := []
  short := File.short_nil

/-- The VM with the program. -/
def withProgram (vm : VM) (v : List Word) : VM :=
  { vm with
    memory := withCode vm.memory (sumCode v)
    entryPoint := 0
    progEnd := BitVec.ofNat 32 (v.length + 16)
    symbols := .node topName (BitVec.ofNat 32 (v.length + 8)) (.node sumName SUM (.node mainx20 0
      (.node doneName (BitVec.ofNat 32 (v.length + 14)) vm.symbols))) }

/-- The instructions from `skipData` on. -/
def sumInstrs (n : Nat) : List Instr :=
  [.ldimm 0 0, .load 1 LEN, .ldaddr 2 VECTOR, .ldimm 3 0, .ldimm 4 1,
    .beq 0 1 (BitVec.ofNat 32 (n + 14)), .ldind 5 0 2, .addi 3 5, .addi 2 4, .addi 0 4,
    .jmp (BitVec.ofNat 32 (n + 8)), .store 3 SUM, .halt]

section
variable {v : List Word} {n k : Nat}

theorem sumCode_length : (sumCode v).length = v.length + 16 := by
  simp [sumCode, skipData]

theorem load_program {junk : Nat → Word} {vm : VM} (hv : v.length + 16 ≤ MEM_SIZE) :
    loadExecutableFile junk vm (some (sumFile v)) = .ok ⟨1, none, withProgram vm v⟩ := by
  have hw : (sumFile v).words =
      [20, 0, BitVec.ofNat 32 (v.length + 16)] ++ sumSymbols v.length ++ sumCode v ++ [] := by
    simp [sumFile]
  have hdone : copyName (fun k => symbuffer (sumSymbols v.length) junk (0 + k)) = .ok doneName :=
    copyName_words [0x656e6f64, 0, 0, 0] rfl (by decide)
  have hmain : copyName (fun k => symbuffer (sumSymbols v.length) junk (5 + k)) = .ok mainx20 :=
    copyName_words [0x6e69616d, 0x00303278, 0, 0] rfl (by decide)
  have hsum : copyName (fun k => symbuffer (sumSymbols v.length) junk (10 + k)) = .ok sumName :=
    copyName_words [0x006d7573, 0, 0, 0] rfl (by decide)
  have htop : copyName (fun k => symbuffer (sumSymbols v.length) junk (15 + k)) = .ok topName :=
    copyName_words [0x00706f74, 0, 0, 0] rfl (by decide)
  have hlen : (BitVec.ofNat 32 (v.length + 16)).toInt = (sumCode v).length := by
    rw [sumCode_length]
    exact ofNat_toInt (lt_of_le_of_lt hv (by decide))
  have hoff : offsets 20 = [0, 5, 10, 15] := rfl
  rw [load_sections hw (by rfl) hlen (by rw [sumCode_length]; exact hv)]
  change parseInsymbols _ _ _ (offsets 20) = _
  rw [hoff, parse_name hdone (by decide), parse_main hmain, parse_name hsum (by decide),
    parse_name htop (by decide), sumCode_length]
  rfl

theorem addressed_fits {instr : Word} {pc a : Nat} (hwidth : Link.addressWidth instr = some 20)
    (hpc : pc < 2 ^ 18) (ha : a < 2 ^ 18) :
    decode (addressed instr pc a) (BitVec.ofNat 32 pc) =
      Link.retarget (BitVec.ofNat 32 a) (decode instr (BitVec.ofNat 32 pc)) := by
  refine Link.decode_rewrite (by rw [hwidth]; rfl) ?_
  unfold Link.FitsField
  rw [hwidth]
  have hd : (BitVec.ofNat 32 a - (BitVec.ofNat 32 pc + 1)).toInt = (a : Int) - (pc + 1) := by
    rw [BitVec.toInt_eq_toNat_cond]
    bv_omega
  change -2 ^ 19 ≤ BitVec.toInt _ ∧ BitVec.toInt _ < 2 ^ 19
  rw [hd]
  omega

theorem sumCode_skipData :
    (sumCode v).getD (v.length + 3 + k) 0 = (skipData v.length).getD k 0 := by
  unfold sumCode
  rw [List.getD_append_right _ _ _ _ (by simp)]
  congr 1
  simp

theorem sumCode_vector (hk : k < v.length) : (sumCode v).getD (k + 3) 0 = v.getD k 0 := by
  unfold sumCode
  rw [List.append_assoc, List.getD_append_right _ _ _ _ (by simp)]
  exact List.getD_append _ _ _ _ hk

theorem decode_beq (pc : Word) : decode 0x00051013 pc = .beq 0 1 (pc + 1 + 5) := rfl

theorem decode_jmp (pc : Word) : decode 0xffffa014 pc = .jmp (pc + 1 + -6) := rfl

theorem decode_skipData {word : Word} {ins : Instr} (hn : n + 16 ≤ MEM_SIZE) (hk : k < 13)
    (hword : (skipData n)[k]? = some word) (hins : (sumInstrs n)[k]? = some ins) :
    decode word (BitVec.ofNat 32 (n + 3 + k)) = ins := by
  unfold MEM_SIZE at hn
  interval_cases k <;> cases hword <;> cases hins
  · rfl
  · exact addressed_fits rfl (by omega) (by omega)
  · exact addressed_fits rfl (by omega) (by omega)
  · rfl
  · rfl
  · have hpc : BitVec.ofNat 32 (n + 3 + 5) + 1 + 5 = BitVec.ofNat 32 (n + 14) := by bv_omega
    rw [decode_beq, hpc]
  · rfl
  · rfl
  · rfl
  · rfl
  · have hpc : BitVec.ofNat 32 (n + 3 + 10) + 1 + -6 = BitVec.ofNat 32 (n + 8) := by bv_omega
    rw [decode_jmp, hpc]
  · exact addressed_fits rfl (by omega) (by omega)
  · rfl

end

/-! ## Assertions -/

/-- The program and its vector are in memory. -/
def Loaded (v : List Word) (memory : Word → Word) : Prop :=
  ∀ k < v.length + 16, k ≠ 1 → memory (BitVec.ofNat 32 k) = (sumCode v).getD k 0

/-- What a core does to memory, at most. -/
def Stores (v : List Word) (memory memory' : Word → Word) : Prop :=
  ∀ a, memory' a = memory a ∨ a = SUM ∧ memory' a = v.sum

abbrev At (v : List Word) : Nat → (Core → Prop) → Assertion := AtLine (Loaded v)

/-- The core has halted, and the sum is there. -/
def Done (v : List Word) : Assertion := fun c memory =>
  c.status = VMX20_NORMAL_TERMINATION ∧ Loaded v memory ∧ memory SUM = v.sum

/-- The loop index, the element that r2 points to, and how many elements are in r3. -/
structure Regs (v : List Word) (index element added : Nat) (c : Core) : Prop where
  r0 : c.reg 0 = BitVec.ofNat 32 index
  r1 : c.reg 1 = BitVec.ofNat 32 v.length
  r2 : c.reg 2 = BitVec.ofNat 32 (element + 3)
  r3 : c.reg 3 = (v.take added).sum
  r4 : c.reg 4 = 1

section
variable {v : List Word} {memory memory' : Word → Word} {k : Nat} {P P' : Core → Prop} {c c' : Core}
  {fpu : Fpu} {A B : Assertion} {ins : Instr} {word : Word}

theorem stores_run
    (h : Relation.ReflTransGen (fun memory memory' => ∃ _ : Nat, Stores v memory memory') memory
      memory') : Stores v memory memory' := by
  induction h with
  | refl => exact fun _ => Or.inl rfl
  | tail _ hstep ih =>
    obtain ⟨-, hstep⟩ := hstep
    intro a
    rcases hstep a with ha | ha
    · rw [ha]
      exact ih a
    · exact Or.inr ha

theorem loaded_stores (hv : v.length + 16 ≤ MEM_SIZE) (h : Stores v memory memory')
    (hl : Loaded v memory) : Loaded v memory' := by
  intro k hk hne
  unfold MEM_SIZE at hv
  rcases h (BitVec.ofNat 32 k) with h | ⟨h, -⟩
  · rw [h, hl k hk hne]
  · unfold SUM at h
    exact absurd h (by bv_omega)

theorem keeps_loaded (hv : v.length + 16 ≤ MEM_SIZE) :
    Keeps (Stores v) (At v k P) := keeps_line fun _ _ => loaded_stores hv

theorem sum_stores (h : Stores v memory memory') (hsum : memory SUM = v.sum) :
    memory' SUM = v.sum := by
  rcases h SUM with h | ⟨-, h⟩
  · rw [h, hsum]
  · exact h

theorem keeps_done (hv : v.length + 16 ≤ MEM_SIZE) : Keeps (Stores v) (Done v) :=
  fun _ _ _ h ⟨hstatus, hl, hsum⟩ => ⟨hstatus, loaded_stores hv h hl, sum_stores h hsum⟩

theorem stores_refl : Stores v memory memory := fun _ => Or.inl rfl

theorem does_line (hv : v.length + 16 ≤ MEM_SIZE) (hk : k < 13)
    (hword : (skipData v.length)[k]? = some word) (hins : (sumInstrs v.length)[k]? = some ins)
    (hat : ∀ c memory, A c memory → At v (v.length + 3 + k) P c memory)
    (h : ∀ c memory, A c memory →
      ins.wp fpu (fun c' memory' => Stores v memory memory' ∧ B c' memory') c memory) :
    Does fpu (Stores v) A B := by
  refine does_instr (by omega) (fun memory hl => ?_) (decode_skipData hv hk hword hins) hat h
  rw [hl _ (by omega) (by omega), sumCode_skipData, List.getD_eq_getElem?_getD, hword,
    Option.getD_some]

end

/-! ## The program, step by step -/

section
variable {fpu : Fpu} {v : List Word} {i k n : Nat} {s : Sys} {P : Core → Prop} {A : Assertion}
  {word : Word} {ins : Instr}

/-- What the core `i` gets done. -/
abbrev CoreGets (fpu : Fpu) (v : List Word) (i : Nat) (A : Assertion) (n : Nat) (s : Sys) : Prop :=
  Gets (step fpu) (Others (Stores v) i) (Own (Stores v) i) i (Holds A i) n s

theorem gets_line (k : Nat) (B : Assertion) (hs : Holds (At v (v.length + 3 + k) P) i s)
    (hv : v.length + 16 ≤ MEM_SIZE) (hk : k < 13) (hword : (skipData v.length)[k]? = some word)
    (hins : (sumInstrs v.length)[k]? = some ins)
    (h : ∀ c memory, At v (v.length + 3 + k) P c memory →
      ins.wp fpu (fun c' memory' => Stores v memory memory' ∧ B c' memory') c memory)
    (hrest : ∀ s, Holds B i s → CoreGets fpu v i A n s) : CoreGets fpu v i A (n + 1) s :=
  gets_instr (keeps_loaded hv) (does_line hv hk hword hins (fun _ _ h => h) h) hrest hs

theorem loaded_len {memory : Word → Word} (hl : Loaded v memory) :
    memory LEN = BitVec.ofNat 32 v.length := hl 2 (by omega) (by decide)

theorem skipData_gets (hv : v.length + 16 ≤ MEM_SIZE)
    (hs : Holds (At v (v.length + 3) fun _ => True) i s) :
    CoreGets fpu v i (At v (v.length + 8) (Regs v 0 0 0)) 5 s := by
  refine gets_line 0 (At v (v.length + 4) fun c => c.reg 0 = 0) hs hv (by decide) rfl rfl
    (fun c memory h => wp_ldimm ⟨stores_refl, line_next h rfl rfl h.2.1 rfl⟩) fun s hs => ?_
  refine gets_line 1 (At v (v.length + 5) fun c => c.reg 0 = 0 ∧ c.reg 1 = BitVec.ofNat 32 v.length)
    hs hv (by decide) rfl rfl (fun c memory h => wp_load (by decide)
      ⟨stores_refl, line_next h rfl rfl h.2.1 ⟨h.2.2, loaded_len h.2.1⟩⟩) fun s hs => ?_
  refine gets_line 2 (At v (v.length + 6) fun c => c.reg 0 = 0 ∧
      c.reg 1 = BitVec.ofNat 32 v.length ∧ c.reg 2 = VECTOR) hs hv (by decide) rfl rfl
    (fun c memory h => wp_ldaddr ⟨stores_refl, line_next h rfl rfl h.2.1 ?_⟩) fun s hs => ?_
  · obtain ⟨r0, r1⟩ := h.2.2
    exact ⟨r0, r1, rfl⟩
  refine gets_line 3 (At v (v.length + 7) fun c => c.reg 0 = 0 ∧
      c.reg 1 = BitVec.ofNat 32 v.length ∧ c.reg 2 = VECTOR ∧ c.reg 3 = 0) hs hv (by decide) rfl rfl
    (fun c memory h => wp_ldimm ⟨stores_refl, line_next h rfl rfl h.2.1 ?_⟩) fun s hs => ?_
  · obtain ⟨r0, r1, r2⟩ := h.2.2
    exact ⟨r0, r1, r2, rfl⟩
  refine gets_line 4 (At v (v.length + 8) (Regs v 0 0 0)) hs hv (by decide) rfl rfl
    (fun c memory h => wp_ldimm ⟨stores_refl, line_next h rfl rfl h.2.1 ?_⟩) fun s hs => ?_
  · obtain ⟨r0, r1, r2, r3⟩ := h.2.2
    exact ⟨r0, r1, r2, r3, rfl⟩
  exact gets_done (keeps_loaded hv).stable hs

theorem start_gets (hv : v.length + 16 ≤ MEM_SIZE) (hs : Holds (At v 0 fun _ => True) i s) :
    CoreGets fpu v i (At v (v.length + 8) (Regs v 0 0 0)) 6 s := by
  refine gets_instr (B := At v (v.length + 3) fun _ => True) (keeps_loaded hv) ?_
    (fun s hs => skipData_gets hv hs) hs
  rintro c memory ⟨⟨hstatus, hpc⟩, hl, -⟩
  have hmem : memory (c.reg PC) = addressed 0x00000014 0 (v.length + 3) := by
    rw [hpc]
    exact hl 0 (by omega) (by decide)
  have hdecode : decode (addressed 0x00000014 0 (v.length + 3)) (BitVec.ofNat 32 0) =
      .jmp (BitVec.ofNat 32 (v.length + 3)) := by
    unfold MEM_SIZE at hv
    exact addressed_fits rfl (by omega) (by omega)
  rw [hmem, hpc, hdecode]
  exact ⟨hstatus, by decide, wp_jmp ⟨stores_refl, ⟨hstatus, rfl⟩, hl, trivial⟩⟩

theorem sum_take {j : Nat} (hj : j < v.length) :
    (v.take (j + 1)).sum = (v.take j).sum + v.getD j 0 := by
  rw [List.take_add_one, List.sum_append, List.getD_eq_getElem _ _ hj, List.getElem?_eq_getElem hj]
  simp

/-- One turn of the loop. -/
theorem turn_gets {j : Nat} (hv : v.length + 16 ≤ MEM_SIZE) (hj : j < v.length)
    (hs : Holds (At v (v.length + 8) (Regs v j j j)) i s) :
    CoreGets fpu v i (At v (v.length + 8) (Regs v (j + 1) (j + 1) (j + 1))) 6 s := by
  have hlt : v.length + 16 < 2 ^ 18 := lt_of_le_of_lt hv (by decide)
  refine gets_line 5 (At v (v.length + 9) (Regs v j j j)) hs hv (by decide) rfl rfl
    (fun c memory h => wp_beq ⟨stores_refl, line_next h rfl ?_ h.2.1 ?_⟩) fun s hs => ?_
  · obtain ⟨r0, r1, -⟩ := h.2.2
    have hne : c.reg 0 ≠ c.reg 1 := by
      rw [r0, r1]
      bv_omega
    exact if_neg hne
  · obtain ⟨r0, r1, r2, r3, r4⟩ := h.2.2
    exact ⟨r0, r1, r2, r3, r4⟩
  refine gets_line 6 (At v (v.length + 10) fun c => Regs v j j j c ∧ c.reg 5 = v.getD j 0) hs hv
    (by decide) rfl rfl (fun c memory h => ?_) fun s hs => ?_
  · obtain ⟨r0, r1, r2, r3, r4⟩ := h.2.2
    have haddr : c.reg 2 + 0 = BitVec.ofNat 32 (j + 3) :=
      (congrArg (· + 0) r2).trans (BitVec.add_zero _)
    refine wp_ldind (by decide) ?_
      ⟨stores_refl, line_next h rfl rfl h.2.1 ⟨⟨r0, r1, r2, r3, r4⟩, ?_⟩⟩
    · rw [haddr]
      unfold MEM_SIZE
      bv_omega
    · change memory (c.reg 2 + 0) = v.getD j 0
      rw [haddr, h.2.1 (j + 3) (by omega) (by omega), sumCode_vector hj]
  refine gets_line 7 (At v (v.length + 11) (Regs v j j (j + 1))) hs hv (by decide) rfl rfl
    (fun c memory h => wp_addi ⟨stores_refl, line_next h rfl rfl h.2.1 ?_⟩) fun s hs => ?_
  · obtain ⟨⟨r0, r1, r2, r3, r4⟩, r5⟩ := h.2.2
    exact ⟨r0, r1, r2, (congrArg₂ (· + ·) r3 r5).trans (sum_take hj).symm, r4⟩
  refine gets_line 8 (At v (v.length + 12) (Regs v j (j + 1) (j + 1))) hs hv (by decide) rfl rfl
    (fun c memory h => wp_addi ⟨stores_refl, line_next h rfl rfl h.2.1 ?_⟩) fun s hs => ?_
  · obtain ⟨r0, r1, r2, r3, r4⟩ := h.2.2
    refine ⟨r0, r1, (congrArg₂ (· + ·) r2 r4).trans ?_, r3, r4⟩
    bv_omega
  refine gets_line 9 (At v (v.length + 13) (Regs v (j + 1) (j + 1) (j + 1))) hs hv (by decide) rfl
    rfl (fun c memory h => wp_addi ⟨stores_refl, line_next h rfl rfl h.2.1 ?_⟩) fun s hs => ?_
  · obtain ⟨r0, r1, r2, r3, r4⟩ := h.2.2
    exact ⟨(congrArg₂ (· + ·) r0 r4).trans (BitVec.ofNat_add _ _).symm, r1, r2, r3, r4⟩
  refine gets_line 10 (At v (v.length + 8) (Regs v (j + 1) (j + 1) (j + 1))) hs hv (by decide) rfl
    rfl (fun c memory h => wp_jmp ⟨stores_refl, ⟨h.1.1, rfl⟩, h.2.1, ?_⟩) fun s hs => ?_
  · obtain ⟨r0, r1, r2, r3, r4⟩ := h.2.2
    exact ⟨r0, r1, r2, r3, r4⟩
  exact gets_done (keeps_loaded hv).stable hs

/-- From `top` on, with `n` turns to go. -/
theorem top_gets (hv : v.length + 16 ≤ MEM_SIZE)
    (hs : Holds (At v (v.length + 8) (Regs v 0 0 0)) i s) :
    CoreGets fpu v i (At v (v.length + 8) (Regs v v.length v.length v.length))
      (v.length * 6) s := by
  refine (gets_loop (n := v.length) (k := 6) (J := fun n s => ∃ j, j + n = v.length ∧
    Holds (At v (v.length + 8) (Regs v j j j)) i s) ?_ ?_ ⟨0, Nat.zero_add _, hs⟩).mono ?_
  · rintro s s' hstep ⟨j, hj, hs⟩
    exact ⟨j, hj, (keeps_loaded hv).stable s s' hstep hs⟩
  · rintro n s ⟨j, hj, hs⟩
    exact (turn_gets hv (by omega) hs).mono fun t ht => ⟨j + 1, by omega, ht⟩
  · rintro s ⟨j, rfl, hs⟩
    exact hs

theorem done_gets (hv : v.length + 16 ≤ MEM_SIZE)
    (hs : Holds (At v (v.length + 8) (Regs v v.length v.length v.length)) i s) :
    CoreGets fpu v i (Done v) 3 s := by
  refine gets_line 5 (At v (v.length + 14) fun c => c.reg 3 = v.sum) hs hv (by decide) rfl rfl
    (fun c memory h => wp_beq ⟨stores_refl, ⟨h.1.1, ?_⟩, h.2.1, ?_⟩) fun s hs => ?_
  · obtain ⟨r0, r1, -⟩ := h.2.2
    exact if_pos (r0.trans r1.symm)
  · rw [← List.take_length (l := v)]
    exact h.2.2.r3
  refine gets_line 11 (fun c memory => At v (v.length + 15) (fun _ => True) c memory ∧
    memory SUM = v.sum) hs hv (by decide) rfl rfl (fun c memory h => ?_) fun s hs => ?_
  · have hstores : Stores v memory (Function.update memory SUM (c.reg 3)) := by
      intro a
      rcases eq_or_ne a SUM with rfl | ha
      · exact Or.inr ⟨rfl, (Function.update_self ..).trans h.2.2⟩
      · exact Or.inl (Function.update_of_ne ha _ _)
    have hat : At v (v.length + 15) (fun _ => True) (c.goTo (c.reg PC + 1)) memory :=
      line_next h rfl rfl h.2.1 trivial
    exact wp_store (by decide) ⟨hstores, ⟨hat.1, loaded_stores hv hstores hat.2.1, trivial⟩,
      (Function.update_self ..).trans h.2.2⟩
  have hhalt : Does fpu (Stores v) (fun c memory => At v (v.length + 15) (fun _ => True) c memory ∧
      memory SUM = v.sum) (Done v) :=
    does_line (k := 12) hv (by decide) rfl rfl (fun _ _ h => h.1)
      fun c memory h => wp_halt ⟨stores_refl, rfl, h.1.2.1, h.2⟩
  refine gets_instr (fun c memory memory' h hs => ⟨keeps_loaded hv c memory memory' h hs.1,
    sum_stores h hs.2⟩) hhalt (fun s hs => ?_) hs
  exact gets_done (keeps_done hv).stable hs

/-- How many turns a core needs. -/
def turns (v : List Word) : Nat := 9 + 6 * v.length

theorem program_gets (hv : v.length + 16 ≤ MEM_SIZE) (hs : Holds (At v 0 fun _ => True) i s) :
    CoreGets fpu v i (Done v) (turns v) s := by
  have hturns : turns v = 6 + v.length * 6 + 3 := by
    unfold turns
    omega
  rw [hturns]
  exact ((start_gets hv hs).trans fun s hs => top_gets hv hs).trans fun s hs => done_gets hv hs

theorem loaded_start {memory : Word → Word} (hv : v.length + 16 ≤ MEM_SIZE) :
    Loaded v (withCode memory (sumCode v)) := by
  intro k hk _
  have hk' : (BitVec.ofNat 32 k).toNat = k := by
    unfold MEM_SIZE at hv
    bv_omega
  unfold withCode
  rw [hk', if_pos (by rw [sumCode_length]; exact hk)]

end

/-- From 1 to 16 cores run the program with the vector `v`, in any order. No core fails, and no word
of memory but `sum` changes. A core that has had `9 + 6 * v.length` turns has halted, and from the
first halt on `sum` is the sum of the vector. -/
theorem sum_vector {p : Nat} {v : List Word} (hp : 1 ≤ p ∧ p ≤ 16) (hv : v.length + 16 ≤ MEM_SIZE)
    (junk : Nat → Word) (block : VM) (initialSP : Nat → Word) (fpu : Fpu) (is : List Nat) :
    ∃ vm s₀ t,
      loadExecutableFile junk (initVm block) (some (sumFile v)) = .ok ⟨1, none, vm⟩ ∧
      getAddress vm sumName = .ok (some SUM) ∧
      execute vm (BitVec.ofNat 32 p) initialSP = some s₀ ∧
      play fpu is s₀ = .ok t ∧
      (∀ a, t.vm.memory a = vm.memory a ∨ a = SUM ∧ t.vm.memory a = v.sum) ∧
      ∀ i < p, turns v ≤ is.count i ∨ (t.core i).status ≠ 1 →
        (t.core i).status = VMX20_NORMAL_TERMINATION ∧ t.vm.memory SUM = v.sum := by
  generalize hs₀ : Sys.mk { withProgram (initVm block) v with numProcessors := BitVec.ofNat 32 p }
    (startCore (withProgram (initVm block) v) initialSP) = s₀
  have hprocs : s₀.vm.numProcessors.toNat = p := by
    rw [← hs₀]
    bv_omega
  have hstart (i : Nat) (hi : i < s₀.vm.numProcessors.toNat) :
      Holds (At v 0 fun _ => True) i s₀ := by
    refine ⟨hi, ?_⟩
    rw [← hs₀]
    exact ⟨⟨rfl, rfl⟩, loaded_start hv, trivial⟩
  have hhalted (c : Core) (memory : Word → Word) (h : Done v c memory) : c.status ≠ 1 := by
    rw [h.1]
    decide
  have hgets (i : Nat) (hi : i < s₀.vm.numProcessors.toNat) :
      CoreGets fpu v i (Done v) (turns v) s₀ := program_gets hv (hstart i hi)
  obtain ⟨t, hrun, hown, hdone⟩ := cores_get (M := fun _ => Stores v) (A := fun _ => Done v)
    (fun _ _ _ _ _ h => h) (fun _ => hhalted) hgets is
  refine ⟨_, s₀, t, load_program hv, rfl, ?_, hrun, ?_, fun i hi h => ?_⟩
  · unfold execute
    rw [if_neg (by unfold VMX20_MAX_PROCESSORS; bv_omega)]
    exact congrArg some hs₀
  · have hmem := stores_run hown
    rw [← hs₀] at hmem
    exact hmem
  · obtain ⟨hstatus, -, hsum⟩ := hdone i (hprocs ▸ hi) h
    exact ⟨hstatus, hsum⟩

/-- The vector of the source, with the turns of one core before the others. -/
theorem sum_vector_five : ∃ vm s₀ t,
    loadExecutableFile (fun _ => 0) (initVm blank) (some (sumFile [1, 2, 3, 4, 5])) =
      .ok ⟨1, none, vm⟩ ∧
    execute vm 2 (fun _ => 100) = some s₀ ∧ play noFpu (List.replicate 39 0) s₀ = .ok t ∧
    t.vm.memory SUM = 15 := by
  obtain ⟨vm, s₀, t, hload, -, hexecute, hrun, -, hdone⟩ := sum_vector (p := 2)
    (v := [1, 2, 3, 4, 5]) ⟨by decide, by decide⟩ (by decide) (fun _ => 0) blank (fun _ => 100)
    noFpu (List.replicate 39 0)
  exact ⟨vm, s₀, t, hload, hexecute, hrun, (hdone 0 (by decide) (Or.inl (by decide))).2⟩

end Cs720.Vm.SumVector
