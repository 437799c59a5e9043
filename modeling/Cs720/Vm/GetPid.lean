import Cs720.Vm.Commute
import Cs720.Vm.Rules

/-! # One word for each core (`test/test_getpid.asm`)

Each core stores its number in its own word of `t0` to `t7`. There are no words for more cores.
-/

namespace Cs720.Vm.GetPid

open Cs720.Lib

/-! ## The program -/

/-- The words `t0` to `t7`, and the code. -/
def getpidCode : List Word :=
  List.replicate 8 (-1) ++ [0x00000516, 0xffff6004, 0x0000500b, 0x00000506, 0]

def instrs : List Instr := [.getpid 5, .ldaddr 0 0, .addi 0 5, .stind 5 0 0, .halt]

/-- The name of the word `k`. -/
def tName (k : Nat) : List Byte := [0x74, BitVec.ofNat 8 (0x30 + k)]

/-- The name of the word `k` in an insymbol section. -/
def tWords (k : Nat) : List Word := [0x3074 + BitVec.ofNat 32 (k * 0x100), 0, 0, 0]

/-- The insymbol section, `t7` first and `mainx20` last. -/
def symbols : List Word :=
  (List.range 8).reverse.flatMap (fun k => tWords k ++ [BitVec.ofNat 32 k]) ++ mainSection 8

/-- `test_getpid.exe`. -/
def getpidFile : File where
  words := [45, 0, 13] ++ symbols ++ getpidCode
  rest := []
  short := File.short_nil

/-- The VM with the program. -/
def withProgram (vm : VM) : VM :=
  { vm with
    memory := withCode vm.memory getpidCode
    entryPoint := 8
    progEnd := 13
    symbols := .node mainx20 8
      ((List.range 8).foldr (fun k => .node (tName k) (BitVec.ofNat 32 k)) vm.symbols) }

section
variable {k : Nat}

theorem parse_t {junk : Nat → Word} {vm : VM} {ts : List Nat} (hk : k < 8) :
    parseInsymbols (symbuffer symbols junk) vm false (5 * (7 - k) :: ts) =
      parseInsymbols (symbuffer symbols junk)
        { vm with symbols := .node (tName k) (BitVec.ofNat 32 k) vm.symbols } false ts := by
  have hname : copyName (fun j => symbuffer symbols junk (5 * (7 - k) + j)) = .ok (tName k) := by
    refine copyName_words (tWords k) ?_ ?_ <;> interval_cases k
    all_goals rfl
  have haddr : symbuffer symbols junk (5 * (7 - k) + 4) = BitVec.ofNat 32 k := by
    interval_cases k <;> rfl
  rw [parse_name hname (by interval_cases k <;> decide), haddr]

theorem load_program {junk : Nat → Word} {vm : VM} :
    loadExecutableFile junk vm (some getpidFile) = .ok ⟨1, none, withProgram vm⟩ := by
  have hw : getpidFile.words = [45, 0, 13] ++ symbols ++ getpidCode ++ [] := by
    simp [getpidFile]
  have hoff : offsets 45 = [0, 5, 10, 15, 20, 25, 30, 35, 40] := rfl
  have hmain : copyName (fun k => symbuffer symbols junk (40 + k)) = .ok mainx20 :=
    copyName_words [0x6e69616d, 0x00303278, 0, 0] rfl (by decide)
  rw [load_sections hw (by rfl) (by rfl) (by decide)]
  change parseInsymbols _ _ _ (offsets 45) = _
  rw [hoff]
  refine (parse_t (k := 7) (by decide)).trans ((parse_t (k := 6) (by decide)).trans
    ((parse_t (k := 5) (by decide)).trans ((parse_t (k := 4) (by decide)).trans
    ((parse_t (k := 3) (by decide)).trans ((parse_t (k := 2) (by decide)).trans
    ((parse_t (k := 1) (by decide)).trans ((parse_t (k := 0) (by decide)).trans
    ((parse_main hmain).trans rfl))))))))

theorem getAddress_tName {vm : VM} (hk : k < 8) :
    getAddress (withProgram vm) (tName k) = .ok (some (BitVec.ofNat 32 k)) := by
  interval_cases k <;> rfl

theorem decode_program (hk : k < 5) :
    (getpidCode[k + 8]?).map (fun word => decode word (BitVec.ofNat 32 (k + 8))) = instrs[k]? := by
  interval_cases k <;> rfl

end

/-! ## Assertions -/

/-- The code is in memory. -/
def Loaded (memory : Word → Word) : Prop :=
  ∀ k < 5, memory (BitVec.ofNat 32 (k + 8)) = getpidCode.getD (k + 8) 0

/-- What the core `i` of `p` cores does to memory, at most. -/
def Stores (p i : Nat) (memory memory' : Word → Word) : Prop :=
  ∀ a, memory' a = memory a ∨ i < p ∧ a = BitVec.ofNat 32 i ∧ memory' a = a

/-- What the core `i` relies on: the others store to their own words. -/
def Relies (i : Nat) (memory memory' : Word → Word) : Prop :=
  ∀ a, memory' a = memory a ∨ a.toNat < 8 ∧ a.toNat ≠ i

/-- The core has halted, and its word has its number. -/
def Done (i : Nat) : Assertion := fun c memory =>
  c.status = VMX20_NORMAL_TERMINATION ∧ memory (BitVec.ofNat 32 i) = BitVec.ofNat 32 i

section
variable {fpu : Fpu} {p i j k n : Nat} {memory memory' : Word → Word} {P : Core → Prop}
  {A B : Assertion} {s : Sys} {ins : Instr}

theorem stores_refl : Stores p i memory memory := fun _ => Or.inl rfl

/-- The cores have different words, if there are no more than 8. -/
theorem relies_stores (hp : p ≤ 8) (hij : i ≠ j) (h : Stores p i memory memory') :
    Relies j memory memory' := by
  intro a
  rcases h a with h | ⟨hi, rfl, -⟩
  · exact Or.inl h
  · exact Or.inr (by bv_omega)

theorem loaded_relies (h : Relies i memory memory') (hl : Loaded memory) : Loaded memory' := by
  intro k hk
  rcases h (BitVec.ofNat 32 (k + 8)) with h | ⟨h, -⟩
  · rw [h, hl k hk]
  · bv_omega

theorem word_relies (hi : i < 8) (h : Relies i memory memory')
    (hword : memory (BitVec.ofNat 32 i) = BitVec.ofNat 32 i) :
    memory' (BitVec.ofNat 32 i) = BitVec.ofNat 32 i := by
  rcases h (BitVec.ofNat 32 i) with h | ⟨-, h⟩
  · rw [h, hword]
  · bv_omega

theorem keeps_loaded : Keeps (Relies i) (AtLine Loaded k P) :=
  keeps_line fun _ _ => loaded_relies

theorem keeps_done (hi : i < 8) : Keeps (Relies i) (Done i) :=
  fun _ _ _ h ⟨hstatus, hword⟩ => ⟨hstatus, word_relies hi h hword⟩

theorem does_line (hk : k < 5) (hins : instrs[k]? = some ins)
    (hat : ∀ c memory, A c memory → AtLine Loaded (k + 8) P c memory)
    (h : ∀ c memory, A c memory →
      ins.wp fpu (fun c' memory' => Stores p i memory memory' ∧ B c' memory') c memory) :
    Does fpu (Stores p i) A B := by
  have hlen : getpidCode.length = 13 := rfl
  have hdecode : decode (getpidCode.getD (k + 8) 0) (BitVec.ofNat 32 (k + 8)) = ins := by
    have h := decode_program hk
    rw [hins, List.getElem?_eq_getElem (by omega)] at h
    rw [List.getD_eq_getElem _ _ (by omega)]
    exact Option.some_inj.mp h
  exact does_instr (by unfold MEM_SIZE; omega) (fun memory hl => hl k hk) hdecode hat h

/-! ## The program, step by step -/

/-- The core `i` after `k` instructions. -/
def stage (i : Nat) : Nat → Assertion
  | 0 => AtLine Loaded 8 fun c => c.pid = BitVec.ofNat 32 i
  | 1 => AtLine Loaded 9 fun c => c.reg 5 = BitVec.ofNat 32 i
  | 2 => AtLine Loaded 10 fun c => c.reg 5 = BitVec.ofNat 32 i ∧ c.reg 0 = 0
  | 3 => AtLine Loaded 11 fun c => c.reg 5 = BitVec.ofNat 32 i ∧ c.reg 0 = BitVec.ofNat 32 i
  | 4 => fun c memory => AtLine Loaded 12 (fun _ => True) c memory ∧
      memory (BitVec.ofNat 32 i) = BitVec.ofNat 32 i
  | _ => Done i

theorem keeps_stage (hi : i < 8) : Keeps (Relies i) (stage i k) := by
  match k with
  | 0 | 1 | 2 | 3 =>
    simp only [stage]
    exact keeps_loaded
  | 4 => exact fun c memory memory' h hs =>
      ⟨keeps_loaded c memory memory' h hs.1, word_relies hi h hs.2⟩
  | _ + 5 => exact keeps_done hi

/-- One step. -/
theorem stage_does (hp : p ≤ 8) (hi : i < p) (hk : k < 5) :
    Does fpu (Stores p i) (stage i k) (stage i (k + 1)) := by
  match k with
  | 0 =>
    simp only [stage]
    exact does_line (k := 0) (by decide) rfl (fun _ _ h => h) fun c memory h =>
      wp_getpid ⟨stores_refl, line_next h rfl rfl h.2.1 h.2.2⟩
  | 1 =>
    simp only [stage]
    exact does_line (k := 1) (by decide) rfl (fun _ _ h => h) fun c memory h =>
      wp_ldaddr ⟨stores_refl, line_next h rfl rfl h.2.1 ⟨h.2.2, rfl⟩⟩
  | 2 =>
    simp only [stage]
    refine does_line (k := 2) (by decide) rfl (fun _ _ h => h) fun c memory h =>
      wp_addi ⟨stores_refl, line_next h rfl rfl h.2.1 ⟨h.2.2.1, ?_⟩⟩
    exact (congrArg₂ (· + ·) h.2.2.2 h.2.2.1).trans (BitVec.zero_add _)
  | 3 =>
    simp only [stage]
    refine does_line (k := 3) (by decide) rfl (fun _ _ h => h) fun c memory h => ?_
    obtain ⟨r5, r0⟩ := h.2.2
    have haddr : c.reg 0 + 0 = BitVec.ofNat 32 i := (congrArg (· + 0) r0).trans (BitVec.add_zero _)
    have hstores : Stores p i memory (Function.update memory (c.reg 0 + 0) (c.reg 5)) := by
      intro a
      rw [haddr, r5]
      rcases eq_or_ne a (BitVec.ofNat 32 i) with rfl | ha
      · exact Or.inr ⟨hi, rfl, Function.update_self ..⟩
      · exact Or.inl (Function.update_of_ne ha _ _)
    refine wp_stind ⟨by decide, by decide⟩ ?_ ⟨hstores, line_next h rfl rfl ?_ trivial, ?_⟩
    · rw [haddr]
      unfold MEM_SIZE
      bv_omega
    · exact loaded_relies (relies_stores (j := 8) hp (by omega) hstores) h.2.1
    · rw [haddr, Function.update_self, r5]
  | 4 =>
    simp only [stage]
    exact does_line (k := 4) (by decide) rfl (fun _ _ h => h.1) fun c memory h =>
      wp_halt ⟨stores_refl, rfl, h.2⟩

theorem stages_get (hp : p ≤ 8) (hi : i < p) (hk : k ≤ 5) (hs : Holds (stage i (5 - k)) i s) :
    Gets (step fpu) (Others (Relies i) i) (Own (Stores p i) i) i (Holds (Done i) i) k s := by
  induction k generalizing s with
  | zero => exact gets_done (keeps_done (by omega)).stable hs
  | succ k ih =>
    refine gets_instr (keeps_stage (by omega)) (stage_does hp hi (by omega)) (fun s hs => ?_) hs
    rw [show 5 - (k + 1) + 1 = 5 - k by omega] at hs
    exact ih (by omega) hs

theorem stores_run
    (h : Relation.ReflTransGen (fun memory memory' => ∃ i, Stores p i memory memory') memory
      memory')
    (a : Word) : memory' a = memory a ∨ a.toNat < p ∧ memory' a = a := by
  induction h with
  | refl => exact Or.inl rfl
  | tail _ hstep ih =>
    obtain ⟨i, hstep⟩ := hstep
    rcases hstep a with ha | ⟨hi, rfl, ha⟩
    · rw [ha]
      exact ih
    · exact Or.inr ⟨lt_of_le_of_lt (by rw [BitVec.toNat_ofNat]; exact Nat.mod_le _ _) hi, ha⟩

end

/-! ## The accesses of each core -/

/-- Each core has done some of its instructions. -/
def Staged (p : Nat) (s : Sys) : Prop :=
  s.vm.numProcessors.toNat = p ∧ ∀ i < p, ∃ k ≤ 5, Holds (stage i k) i s

/-- The core `i` fetches from the code and writes its own word. -/
def OwnAccess (p i : Nat) (x : Access) : Prop :=
  ∃ a : Word, x = .fetch a ∧ 8 ≤ a.toNat ∨ i < p ∧ x = .write a ∧ a.toNat = i

section
variable {fpu : Fpu} {p i j k : Nat} {s s' : Sys} {c : Core} {memory : Word → Word}

theorem stage_on (hk : k < 5) (h : stage i k c memory) :
    c.On (BitVec.ofNat 32 (k + 8)) ∧ Loaded memory := by
  match k with
  | 0 | 1 | 2 | 3 => exact ⟨h.1, h.2.1⟩
  | 4 => exact ⟨h.1.1, h.1.2.1⟩

theorem staged_running (h : Staged p s) (hr : s.Running i) :
    i < p ∧ ∃ k < 5, Holds (stage i k) i s := by
  have hip : i < p := h.1 ▸ hr.1
  obtain ⟨k, hk, hs⟩ := h.2 i hip
  refine ⟨hip, k, Nat.lt_of_le_of_ne hk ?_, hs⟩
  rintro rfl
  have hdone : (s.core i).status = VMX20_NORMAL_TERMINATION := hs.2.1
  exact absurd (hdone.symm.trans hr.2) (by decide)

theorem staged_step (hp : p ≤ 8) (h : Staged p s) (hstep : step fpu i s = .ok s') :
    Staged p s' := by
  by_cases hr : s.Running i
  swap
  · rw [step_idle hr] at hstep
    cases hstep
    exact h
  obtain ⟨hip, k, hk, hs⟩ := staged_running h hr
  have hdoes : Does fpu (Stores p i) (stage i k) (stage i (k + 1)) := stage_does hp hip hk
  obtain ⟨t, ht, ⟨hvm, hcore, hM⟩, hB⟩ := hdoes.step hs
  cases ht.symm.trans hstep
  refine ⟨by rw [hvm]; exact h.1, fun j hj => ?_⟩
  rcases eq_or_ne j i with rfl | hne
  · exact ⟨k + 1, hk, hB⟩
  · obtain ⟨k', hk', hj'⟩ := h.2 j hj
    exact ⟨k', hk', (keeps_stage (by omega)).stable _ _
      ⟨hvm, hcore j hne, relies_stores hp hne.symm hM⟩ hj'⟩

theorem staged_footprint (hp : p ≤ 8) (h : Staged p s) :
    ∀ x ∈ footprint fpu i s, OwnAccess p i x := by
  by_cases hr : s.Running i
  swap
  · unfold footprint
    rw [if_neg hr]
    exact List.forall_mem_nil _
  obtain ⟨hip, k, hk, hs⟩ := staged_running h hr
  obtain ⟨hon, hl⟩ := stage_on hk hs.2
  have hpc : s.pc i = BitVec.ofNat 32 (k + 8) := hon.2
  have hfetch : OwnAccess p i (.fetch (s.pc i)) := ⟨_, Or.inl ⟨rfl, by rw [hpc]; bv_omega⟩⟩
  have hinstr : s.instr i = instrs[k]? := by
    have hlen : getpidCode.length = 13 := rfl
    unfold Sys.instr VM.getWord
    rw [hpc, if_neg (by unfold MEM_SIZE; bv_omega), hl k hk, ← decode_program hk,
      List.getElem?_eq_getElem (by omega), List.getD_eq_getElem _ _ (by omega)]
  match k with
  | 0 | 1 | 2 | 4 =>
    rw [footprint_instr hr hinstr rfl]
    exact List.forall_mem_singleton.mpr hfetch
  | 3 =>
    rw [footprint_instr hr hinstr (exec_stind ⟨by decide, by decide⟩)]
    refine List.forall_mem_cons.mpr ⟨hfetch, List.forall_mem_singleton.mpr ?_⟩
    have haddr : (s.core i).reg 0 + 0 = BitVec.ofNat 32 i :=
      (congrArg (· + 0) hs.2.2.2.2).trans (BitVec.add_zero _)
    exact ⟨_, Or.inr ⟨hip, congrArg Access.write haddr, by bv_omega⟩⟩

theorem ownAccess_apart (hp : p ≤ 8) (hij : i ≠ j) {l l' : List Access}
    (hl : ∀ x ∈ l, OwnAccess p i x) (hl' : ∀ x ∈ l', OwnAccess p j x) : Apart l l' := by
  rintro a ⟨hw, -⟩ ⟨ht, -⟩
  obtain ⟨_, ⟨⟨⟩, -⟩ | ⟨hip, ⟨⟩, hai⟩⟩ := hl _ hw
  rcases ht with ht | ht | ht
  · obtain ⟨_, ⟨⟨⟩, ha⟩ | ⟨-, ⟨⟩, -⟩⟩ := hl' _ ht
    omega
  · obtain ⟨_, ⟨⟨⟩, -⟩ | ⟨-, ⟨⟩, -⟩⟩ := hl' _ ht
  · obtain ⟨_, ⟨⟨⟩, -⟩ | ⟨-, ⟨⟩, haj⟩⟩ := hl' _ ht
    exact hij (hai.symm.trans haj)

theorem staged_separate (hp : p ≤ 8) (h : Staged p s) : Separate fpu s :=
  separate_inv (P := Staged p) (F := OwnAccess p) (fun _ _ _ => staged_step hp)
    (fun _ _ => staged_footprint hp) (fun _ _ hij _ _ => ownAccess_apart hp hij) h

end

/-! ## Runs -/

/-- The system that `execute` starts. -/
def started (vm : VM) (p : Nat) (initialSP : Nat → Word) : Sys where
  vm := { withProgram vm with numProcessors := BitVec.ofNat 32 p }
  core := startCore (withProgram vm) initialSP

section
variable {vm : VM} {p i : Nat} {initialSP : Nat → Word} {fpu : Fpu}

theorem execute_program (hp : p ≤ 8) :
    execute (withProgram vm) (BitVec.ofNat 32 p) initialSP = some (started vm p initialSP) :=
  if_neg (by unfold VMX20_MAX_PROCESSORS; bv_omega)

theorem started_procs (hp : p ≤ 8) : (started vm p initialSP).vm.numProcessors.toNat = p := by
  change (BitVec.ofNat 32 p).toNat = p
  bv_omega

theorem started_stage (hp : p ≤ 8) (hi : i < p) : Holds (stage i 0) i (started vm p initialSP) := by
  refine ⟨(started_procs hp).symm ▸ hi, ⟨rfl, rfl⟩, fun k hk => ?_, rfl⟩
  interval_cases k <;> rfl

variable (vm initialSP fpu) in
theorem program_runs (hp : p ≤ 8) (is : List Nat) :
    ∃ t, play fpu is (started vm p initialSP) = .ok t ∧
      Relation.ReflTransGen (fun memory memory' => ∃ i, Stores p i memory memory')
        (started vm p initialSP).vm.memory t.vm.memory ∧
      ∀ i < p, 5 ≤ is.count i ∨ (t.core i).status ≠ 1 → Done i (t.core i) t.vm.memory := by
  have hhalted (i : Nat) (c : Core) (memory : Word → Word) (h : Done i c memory) :
      c.status ≠ 1 := by
    rw [h.1]
    decide
  have hprocs : (started vm p initialSP).vm.numProcessors.toNat = p := started_procs hp
  have hgets (i : Nat) (hi : i < (started vm p initialSP).vm.numProcessors.toNat) :
      Gets (step fpu) (Others (Relies i) i) (Own (Stores p i) i) i (Holds (Done i) i) 5
        (started vm p initialSP) :=
    stages_get hp (hprocs ▸ hi) (Nat.le_refl 5) (started_stage hp (hprocs ▸ hi))
  have hall := cores_get (M := Stores p) (N := Relies)
    (fun _ _ _ _ hij => relies_stores hp hij) hhalted hgets is
  rwa [hprocs] at hall

theorem started_staged (hp : p ≤ 8) : Staged p (started vm p initialSP) :=
  ⟨started_procs hp, fun _ hi => ⟨0, Nat.zero_le 5, started_stage hp hi⟩⟩

variable (vm initialSP fpu) in
theorem program_done (hp : p ≤ 8) (is : List Nat) (hcount : ∀ i < p, 5 ≤ is.count i) :
    ∃ t, play fpu is (started vm p initialSP) = .ok t ∧ t.Done := by
  obtain ⟨t, hrun, -, hdone⟩ := program_runs vm initialSP fpu hp is
  have hstaged : Staged p t :=
    playFrom_inv (fun _ _ _ => staged_step hp) (started_staged hp) hrun
  refine ⟨t, hrun, fun i hr => ?_⟩
  obtain ⟨hip, -⟩ := staged_running hstaged hr
  have hstatus : (t.core i).status = VMX20_NORMAL_TERMINATION :=
    (hdone i hip (Or.inl (hcount i hip))).1
  exact absurd (hstatus.symm.trans hr.2) (by decide)

end

/-- From 1 to 8 cores run the program, in any order. No core fails, and memory changes only in the
cores' words. A core that has had 5 turns has halted, and then its word has its number. -/
theorem get_pids {p : Nat} (hp : 1 ≤ p ∧ p ≤ 8) (junk : Nat → Word) (block : VM)
    (initialSP : Nat → Word) (fpu : Fpu) (is : List Nat) :
    ∃ vm s₀ t,
      loadExecutableFile junk (initVm block) (some getpidFile) = .ok ⟨1, none, vm⟩ ∧
      execute vm (BitVec.ofNat 32 p) initialSP = some s₀ ∧ play fpu is s₀ = .ok t ∧
      (∀ a, t.vm.memory a = vm.memory a ∨ a.toNat < p ∧ t.vm.memory a = a) ∧
      ∀ i < p, 5 ≤ is.count i ∨ (t.core i).status ≠ 1 →
        (t.core i).status = VMX20_NORMAL_TERMINATION ∧
        ∃ a, getAddress vm (tName i) = .ok (some a) ∧ t.vm.memory a = BitVec.ofNat 32 i := by
  obtain ⟨t, hrun, hstores, hdone⟩ := program_runs (initVm block) initialSP fpu hp.2 is
  refine ⟨_, _, t, load_program, execute_program hp.2, hrun, stores_run hstores, fun i hi h => ?_⟩
  obtain ⟨hstatus, hword⟩ := hdone i hi h
  exact ⟨hstatus, BitVec.ofNat 32 i, getAddress_tName (by omega), hword⟩

/-- Eight cores in turn. -/
theorem get_pids_eight : ∃ vm s₀ t,
    loadExecutableFile (fun _ => 0) (initVm blank) (some getpidFile) = .ok ⟨1, none, vm⟩ ∧
    execute vm 8 (fun _ => 100) = some s₀ ∧
    play noFpu ((List.range 40).map (· % 8)) s₀ = .ok t ∧
    ∀ i < 8, (t.core i).status = VMX20_NORMAL_TERMINATION := by
  obtain ⟨vm, s₀, t, hload, hexecute, hrun, -, hdone⟩ := get_pids (p := 8)
    ⟨by decide, by decide⟩ (fun _ => 0) blank (fun _ => 100) noFpu ((List.range 40).map (· % 8))
  refine ⟨vm, s₀, t, hload, hexecute, hrun, fun i hi => (hdone i hi (Or.inl ?_)).1⟩
  interval_cases i <;> decide

/-- Eight cores in turn have the results that they have one after the other, the last one first. -/
theorem schedule_independence_getpid : ∃ vm s₀ t,
    loadExecutableFile (fun _ => 0) (initVm blank) (some getpidFile) = .ok ⟨1, none, vm⟩ ∧
    execute vm 8 (fun _ => 100) = some s₀ ∧
    play noFpu ((List.range 40).map (· % 8)) s₀ = .ok t ∧
    play noFpu ((List.range 40).map fun k => 7 - k / 5) s₀ = .ok t := by
  obtain ⟨t, ht, htdone⟩ := program_done (initVm blank) (fun _ => 100) noFpu (Nat.le_refl 8)
    ((List.range 40).map (· % 8)) (by intro i hi; interval_cases i <;> decide)
  obtain ⟨u, hu, hudone⟩ := program_done (initVm blank) (fun _ => 100) noFpu (Nat.le_refl 8)
    ((List.range 40).map fun k => 7 - k / 5) (by intro i hi; interval_cases i <;> decide)
  obtain rfl := (schedule_independence noFpu _).2
    (staged_separate (Nat.le_refl 8) (started_staged (Nat.le_refl 8))) _ _ _ _ ht hu htdone hudone
  exact ⟨_, _, t, load_program, execute_program (Nat.le_refl 8), ht, hu⟩

end Cs720.Vm.GetPid
