import Mathlib.Algebra.BigOperators.Group.Finset.Piecewise
import Cs720.Vm.DataAccess

/-! # A counter under a spin lock (`test/test_counter_lock.asm`)

Each core adds 1 to `count` in `n` turns, and takes the lock for each. It goes nearer to its end
with each instruction but for those of the loop in which it waits for the lock.
-/

namespace Cs720.Vm

open Cs720.Lib

/-! ## The program -/

/-- The addresses of `count` and `lock`. -/
def COUNT : Word := 0
def LOCK : Word := 1

/-- The code, with the loop count `n`. -/
def counterLock (n : Nat) : List Word :=
  [0, 0xffffffff, BitVec.ofNat 32 n <<< 12 ||| 0x403, 0x00001103, 0x00000a16, 0x00000014, 0xfffff803,
    0xfffff903, 0xfff8a915, 0x00019813, 0xffffb014, 0xffff4001, 0x0000100b, 0xffff2002, 0x0000140c,
    0xfffff903, 0xffff0902, 0xfff45412, 0]

/-- The instructions from the address 2 on. -/
def counterInstrs (n : Nat) : List Instr :=
  [.ldimm 4 (BitVec.ofNat 32 n), .ldimm 1 1, .getpid 10, .jmp 6, .ldimm 8 (-1), .ldimm 9 (-1),
    .cmpxchg 9 10 LOCK, .beq 8 9 11, .jmp 6, .load 0 COUNT, .addi 0 1, .store 0 COUNT, .subi 4 1,
    .ldimm 9 (-1), .store 9 LOCK, .bgt 4 5 6, .halt]

/-- "count" -/
def countName : List Byte := [0x63, 0x6f, 0x75, 0x6e, 0x74]

/-- The insymbol section with `mainx20` and `count`. -/
def counterSymbols : List Word := mainSection 2 ++ [0x6e756f63, 0x00000074, 0, 0, COUNT]

def counterFile (n : Nat) : File where
  words := [10, 0, 19] ++ counterSymbols ++ counterLock n
  rest := []
  short := File.short_nil

/-- The VM with the program. -/
def VM.withCounter (vm : VM) (n : Nat) : VM :=
  { vm with
    memory := withCode vm.memory (counterLock n)
    entryPoint := 2
    progEnd := 19
    symbols := .node countName COUNT (.node mainx20 2 vm.symbols) }

section
variable {n k : Nat}

theorem load_counter {junk : Nat → Word} {vm : VM} :
    loadExecutableFile junk vm (some (counterFile n)) = .ok ⟨1, none, vm.withCounter n⟩ := by
  have hw : (counterFile n).words = [10, 0, 19] ++ counterSymbols ++ counterLock n ++ [] := by
    simp [counterFile]
  have hmain : copyName (fun k => symbuffer counterSymbols junk (0 + k)) = .ok mainx20 := by
    unfold copyName bytes16 symbuffer
    simp [counterSymbols, mainSection]
    decide
  have hcount : copyName (fun k => symbuffer counterSymbols junk (5 + k)) = .ok countName := by
    unfold copyName bytes16 symbuffer
    simp [counterSymbols, mainSection]
    decide
  have hoff : offsets counterSymbols.length = [0, 5] := by decide
  have hlen : (counterLock n).length = 19 := rfl
  rw [load_sections hw (by decide) (by rfl) (by rw [hlen]; decide), hoff]
  exact (parse_main hmain).trans ((parse_name hcount (by decide)).trans rfl)

theorem decode_ldimm (h : n < 2 ^ 19) :
    decode (BitVec.ofNat 32 n <<< 12 ||| 0x403) 2 = .ldimm 4 (BitVec.ofNat 32 n) := by
  have hop : (BitVec.ofNat 32 n <<< 12 ||| 0x403).setWidth 8 = (3 : BitVec 8) := by
    ext i hi
    interval_cases i <;> simp
  have hreg : (BitVec.ofNat 32 n <<< 12 ||| 0x403).extractLsb' 8 4 = (4 : BitVec 4) := by
    ext i hi
    interval_cases i <;> simp
  have hdisp : disp20 (BitVec.ofNat 32 n <<< 12 ||| 0x403) = BitVec.ofNat 32 n := by
    have hfield : (BitVec.ofNat 32 n <<< 12 ||| 0x403).extractLsb' 12 20 = BitVec.ofNat 20 n := by
      ext i hi
      interval_cases i <;> simp [← BitVec.getLsbD_eq_getElem, BitVec.getLsbD_ofNat] <;> intro h <;>
        exact absurd h (by decide)
    have h20 : (BitVec.ofNat 20 n).toNat = n := by
      rw [BitVec.toNat_ofNat]
      omega
    have h32 : (BitVec.ofNat 32 n).toNat = n := by
      rw [BitVec.toNat_ofNat]
      omega
    unfold disp20
    rw [hfield]
    apply BitVec.eq_of_toInt_eq
    rw [BitVec.toInt_signExtend_of_le (by decide), BitVec.toInt_eq_toNat_cond,
      BitVec.toInt_eq_toNat_cond, h20, h32]
    omega
  unfold decode
  rw [hop, hreg, hdisp]
  rfl

theorem decode_counter (h : n < 2 ^ 19) (hk : k < 17) :
    ((counterLock n)[k + 2]?).map (fun word => decode word (BitVec.ofNat 32 (k + 2))) =
      (counterInstrs n)[k]? := by
  interval_cases k
  · exact congrArg some (decode_ldimm h)
  all_goals rfl

end

/-! ## Runs -/

/-- Whether the core `i` is inside after the instruction, if `b` says so before. A `cmpxchg` that
finds -1 in the lock goes in, and a store of -1 goes out. -/
def Instr.inside (s : Sys) (i : Nat) (b : Bool) : Instr → Bool
  | .cmpxchg _ _ a => if a = LOCK ∧ s.vm.memory LOCK = -1 then true else b
  | .store r a => if a = LOCK ∧ (s.core i).reg r = -1 then false else b
  | _ => b

/-- Whether the core `i` is inside after its next step. -/
def Sys.inside (s : Sys) (i : Nat) (b : Bool) : Bool :=
  if s.Running i then (s.instr i).elim b (Instr.inside s i b) else b

/-- The system, and which cores are inside. -/
abbrev Watch := Sys × (Nat → Bool)

def watch (fpu : Fpu) (i : Nat) (w : Watch) : C Watch := do
  let s ← step fpu i w.1
  return (s, Function.update w.2 i (w.1.inside i (w.2 i)))

/-! ## The invariant -/

/-- The core has not stopped, and its next instruction is at `pc`. -/
def Core.On (c : Core) (pc : Word) : Prop := c.status = 1 ∧ c.reg PC = pc

/-- The registers of the core `i` in the loop, when it has done `k` turns. -/
structure Turn (n i k : Nat) (c : Core) : Prop where
  r1 : c.reg 1 = 1
  r4 : c.reg 4 = BitVec.ofNat 32 (n - k)
  r10 : c.reg 10 = BitVec.ofNat 32 i

/-- Where the core `i` is in the program, whether it is inside, and how much it has added. -/
inductive At (n i : Nat) (count : Word) (c : Core) : Bool → Nat → Prop where
  | main (on : c.On 2) : At n i count c false 0
  | main₁ (on : c.On 3) (r4 : c.reg 4 = BitVec.ofNat 32 n) : At n i count c false 0
  | main₂ (on : c.On 4) (r1 : c.reg 1 = 1) (r4 : c.reg 4 = BitVec.ofNat 32 n) : At n i count c false 0
  | main₃ (on : c.On 5) (turn : Turn n i 0 c) : At n i count c false 0
  | loop {k : Nat} (on : c.On 6) (turn : Turn n i k c) (lt : k < n) : At n i count c false k
  | loop₁ {k : Nat} (on : c.On 7) (turn : Turn n i k c) (lt : k < n) (r8 : c.reg 8 = -1) :
      At n i count c false k
  | loop₂ {k : Nat} (on : c.On 8) (turn : Turn n i k c) (lt : k < n) (r8 : c.reg 8 = -1)
      (r9 : c.reg 9 = -1) : At n i count c false k
  | loop₃ {k : Nat} {b : Bool} (on : c.On 9) (turn : Turn n i k c) (lt : k < n)
      (r8 : c.reg 8 = -1) (r9 : c.reg 9 = -1 ↔ b = true) : At n i count c b k
  | loop₄ {k : Nat} (on : c.On 10) (turn : Turn n i k c) (lt : k < n) : At n i count c false k
  | add {k : Nat} (on : c.On 11) (turn : Turn n i k c) (lt : k < n) : At n i count c true k
  | add₁ {k : Nat} (on : c.On 12) (turn : Turn n i k c) (lt : k < n) (r0 : c.reg 0 = count) :
      At n i count c true k
  | add₂ {k : Nat} (on : c.On 13) (turn : Turn n i k c) (lt : k < n) (r0 : c.reg 0 = count + 1) :
      At n i count c true k
  | add₃ {k : Nat} (on : c.On 14) (turn : Turn n i k c) (lt : k < n) : At n i count c true (k + 1)
  | add₄ {k : Nat} (on : c.On 15) (turn : Turn n i k c) (le : k ≤ n) : At n i count c true k
  | add₅ {k : Nat} (on : c.On 16) (turn : Turn n i k c) (le : k ≤ n) (r9 : c.reg 9 = -1) :
      At n i count c true k
  | add₆ {k : Nat} (on : c.On 17) (turn : Turn n i k c) (le : k ≤ n) : At n i count c false k
  | last (on : c.On 18) : At n i count c false n
  | halted (status : c.status = VMX20_NORMAL_TERMINATION) : At n i count c false n

/-- Only a core that is inside knows `count`. -/
theorem At.other {n i k : Nat} {count count' : Word} {c : Core} (h : At n i count c false k) :
    At n i count' c false k := by
  cases h with
  | main on => exact .main on
  | main₁ on r4 => exact .main₁ on r4
  | main₂ on r1 r4 => exact .main₂ on r1 r4
  | main₃ on turn => exact .main₃ on turn
  | loop on turn lt => exact .loop on turn lt
  | loop₁ on turn lt r8 => exact .loop₁ on turn lt r8
  | loop₂ on turn lt r8 r9 => exact .loop₂ on turn lt r8 r9
  | loop₃ on turn lt r8 r9 => exact .loop₃ on turn lt r8 r9
  | loop₄ on turn lt => exact .loop₄ on turn lt
  | add₆ on turn le => exact .add₆ on turn le
  | last on => exact .last on
  | halted status => exact .halted status

/-- The lock is free and nobody is inside, or it has the number of the core that is. -/
def Guard (p : Nat) (lock : Word) (inside : Nat → Bool) : Prop :=
  lock = -1 ∧ (∀ i, inside i = false) ∨
    ∃ h < p, lock = BitVec.ofNat 32 h ∧ ∀ i, inside i = true ↔ i = h

structure Inv (p n : Nat) (added : Nat → Nat) (w : Watch) : Prop where
  code : ∀ k < 17, w.1.vm.memory (BitVec.ofNat 32 (k + 2)) = (counterLock n).getD (k + 2) 0
  procs : w.1.vm.numProcessors = BitVec.ofNat 32 p
  pid : ∀ i, (w.1.core i).pid = BitVec.ofNat 32 i
  zero : ∀ i, (w.1.core i).reg 5 = 0
  place : ∀ i < p, At n i (w.1.vm.memory COUNT) (w.1.core i) (w.2 i) (added i)
  guard : Guard p (w.1.vm.memory LOCK) w.2
  count : w.1.vm.memory COUNT = BitVec.ofNat 32 (∑ i ∈ Finset.range p, added i)

section
variable {fpu : Fpu} {p n i j k : Nat} {added : Nat → Nat} {w : Watch} {lock : Word}
  {inside : Nat → Bool}

theorem Guard.unique (h : Guard p lock inside) (hi : inside i = true) (hj : inside j = true) :
    i = j := by
  rcases h with ⟨-, h⟩ | ⟨h, -, -, hin⟩
  · rw [h i] at hi
    cases hi
  · rw [(hin i).mp hi, (hin j).mp hj]

/-- What the core `i` can do to the system. -/
theorem Inv.update (h : Inv p n added w) (hi : i < p) {c : Core} {memory : Word → Word} {b : Bool}
    (hmem : ∀ a, a ≠ COUNT → a ≠ LOCK → memory a = w.1.vm.memory a)
    (hpid : c.pid = (w.1.core i).pid) (hzero : c.reg 5 = (w.1.core i).reg 5)
    (hat : At n i (memory COUNT) c b k)
    (hcount : memory COUNT = w.1.vm.memory COUNT ∧ k = added i ∨
      memory COUNT = w.1.vm.memory COUNT + 1 ∧ k = added i + 1 ∧ w.2 i = true)
    (hguard : Guard p (memory LOCK) (Function.update w.2 i b)) :
    Inv p n (Function.update added i k)
      (⟨{ w.1.vm with memory }, Function.update w.1.core i c⟩, Function.update w.2 i b) := by
  constructor
  · intro k hk
    rw [← h.code k hk]
    refine hmem _ ?_ ?_
    · unfold COUNT
      bv_omega
    · unfold LOCK
      bv_omega
  · exact h.procs
  · intro j
    dsimp only
    rcases eq_or_ne j i with rfl | hj
    · rw [Function.update_self, hpid, h.pid]
    · rw [Function.update_of_ne hj, h.pid]
  · intro j
    dsimp only
    rcases eq_or_ne j i with rfl | hj
    · rw [Function.update_self, hzero, h.zero]
    · rw [Function.update_of_ne hj, h.zero]
  · intro j hjp
    dsimp only
    rcases eq_or_ne j i with rfl | hj
    · simpa only [Function.update_self] using hat
    · simp only [Function.update_of_ne hj]
      rcases hcount with ⟨hcount, -⟩ | ⟨-, -, hin⟩
      · rw [hcount]
        exact h.place j hjp
      · have hout : w.2 j = false := by
          by_contra hb
          exact hj (h.guard.unique (Bool.not_eq_false _ ▸ hb) hin)
        have hplace := h.place j hjp
        rw [hout] at hplace ⊢
        exact hplace.other
  · exact hguard
  · dsimp only
    have hmem := Finset.mem_range.mpr hi
    have hsum := Finset.add_sum_erase (Finset.range p) added hmem
    rw [Finset.sum_update_of_mem hmem, Finset.sdiff_singleton_eq_erase]
    rcases hcount with ⟨hcount, rfl⟩ | ⟨hcount, rfl, -⟩
    · rw [hcount, h.count, hsum]
    · rw [hcount, h.count, ← hsum, Nat.add_right_comm]
      exact (BitVec.ofNat_add _ _).symm

theorem Inv.instr (h : Inv p n added w) (hn : n < 2 ^ 19) (hk : k < 17)
    (hon : (w.1.core i).On (BitVec.ofNat 32 (k + 2))) : w.1.instr i = (counterInstrs n)[k]? := by
  have hpc : w.1.pc i = BitVec.ofNat 32 (k + 2) := hon.2
  have hlen : (counterLock n).length = 19 := rfl
  unfold Sys.instr VM.getWord
  rw [hpc, if_neg (by unfold MEM_SIZE; bv_omega), h.code k hk, ← decode_counter hn hk,
    List.getElem?_eq_getElem (by omega), List.getD_eq_getElem _ _ (by omega)]

theorem zero_slt (hk : k < 2 ^ 31) : BitVec.slt (0 : Word) (BitVec.ofNat 32 k) = true ↔ 0 < k := by
  have hzero : (0 : Word).toInt = 0 := rfl
  rw [BitVec.slt_eq_decide, decide_eq_true_iff, hzero, BitVec.toInt_eq_toNat_cond,
    BitVec.toNat_ofNat]
  omega

end

/-! ## How far a core is from its end -/

/-- How many instructions a core with `k` turns done has left at `pc`, if it never waits. -/
def leftAt (n k : Nat) (inside : Bool) (pc : Word) : Nat :=
  match pc.toNat with
  | 2 => 9 * n + 8
  | 3 => 9 * n + 7
  | 4 => 9 * n + 6
  | 5 => 9 * n + 5
  | 6 | 7 | 8 | 10 => 9 * (n - k) + 4
  | 9 => if inside then 9 * (n - k) + 3 else 9 * (n - k) + 4
  | 11 => 9 * (n - k) + 2
  | 12 => 9 * (n - k) + 1
  | 13 => 9 * (n - k)
  | 14 => 9 * (n - k) + 8
  | 15 => 9 * (n - k) + 7
  | 16 => 9 * (n - k) + 6
  | 17 => 9 * (n - k) + 5
  | _ => 1

/-- How many instructions a core that waits at `pc` is from the exchange. -/
def waitsAt (inside : Bool) (pc : Word) : Option Nat :=
  match pc.toNat with
  | 9 => if inside then none else some 5
  | 10 => some 4
  | 6 => some 3
  | 7 => some 2
  | 8 => some 1
  | _ => none

def Core.left (n k : Nat) (inside : Bool) (c : Core) : Nat :=
  if c.status = 1 then leftAt n k inside (c.reg PC) else 0

def Core.waits (inside : Bool) (c : Core) : Option Nat :=
  if c.status = 1 then waitsAt inside (c.reg PC) else none

/-- From `c` to `c'` the core goes nearer to its end, or nearer to the exchange, or it has found the
lock taken. -/
def Nearer (n : Nat) (lock : Word) (k k' : Nat) (b b' : Bool) (c c' : Core) : Prop :=
  c'.left n k' b' < c.left n k b ∨
    c'.left n k' b' = c.left n k b ∧ ∃ r r', c.waits b = some r ∧ c'.waits b' = some r' ∧
      (r' < r ∨ lock ≠ -1)

section
variable {n k k' : Nat} {lock pc : Word} {b b' : Bool} {c c' : Core}

theorem Core.On.left (h : c.On pc) : c.left n k b = leftAt n k b pc := by
  unfold Core.left
  rw [if_pos h.1, h.2]

theorem Core.On.waits (h : c.On pc) : c.waits b = waitsAt b pc := by
  unfold Core.waits
  rw [if_pos h.1, h.2]

theorem nearer_on (q : Word) (h : c.On pc) (h' : c'.On q)
    (hleft : leftAt n k' b' q < leftAt n k b pc) : Nearer n lock k k' b b' c c' := by
  unfold Nearer
  rw [h.left, h'.left]
  exact Or.inl hleft

theorem nearer_waits {r r' : Nat} (q : Word) (h : c.On pc) (h' : c'.On q)
    (hleft : leftAt n k b' q = leftAt n k b pc) (hw : waitsAt b pc = some r)
    (hw' : waitsAt b' q = some r') (hr : r' < r ∨ lock ≠ -1) :
    Nearer n lock k k b b' c c' := by
  unfold Nearer
  rw [h.left, h'.left, h.waits, h'.waits]
  exact Or.inr ⟨hleft, r, r', hw, hw', hr⟩

end

/-! ## One step -/

section
variable {fpu : Fpu} {p n i k : Nat} {added : Nat → Nat} {w : Watch}

section
variable {ins : Instr} {next : Next} {m : Machine} {b : Bool}

/-- What the step of the core `i` does. -/
def Moves (fpu : Fpu) (p n i : Nat) (added : Nat → Nat) (w : Watch) : Prop :=
  ∃ k c memory b, watch fpu i w =
      .ok (⟨{ w.1.vm with memory }, Function.update w.1.core i c⟩, Function.update w.2 i b) ∧
    Inv p n (Function.update added i k)
      (⟨{ w.1.vm with memory }, Function.update w.1.core i c⟩, Function.update w.2 i b) ∧
    Nearer n (w.1.vm.memory LOCK) (added i) k (w.2 i) b (w.1.core i) c

theorem Inv.moves (h : Inv p n added w) (hn : n < 2 ^ 19) (hi : w.1.Running i) (hip : i < p)
    (pc : Nat) (hpc : pc < 17) (hon : (w.1.core i).On (BitVec.ofNat 32 (pc + 2)))
    (hins : (counterInstrs n)[pc]? = some ins)
    (hx : ins.exec fpu (BitVec.ofNat 32 (pc + 2) + 1) (w.1.fetched i) = .ok (next, m))
    (memory : Word → Word) (hvm : (m.finish next).vm = { w.1.vm with memory })
    (hpid : (m.finish next).core.pid = (w.1.core i).pid)
    (hzero : (m.finish next).core.reg 5 = (w.1.core i).reg 5)
    (hin : ins.inside w.1 i (w.2 i) = b) (hat : At n i (memory COUNT) (m.finish next).core b k)
    (hmem : ∀ a, a ≠ COUNT → a ≠ LOCK → memory a = w.1.vm.memory a)
    (hcount : memory COUNT = w.1.vm.memory COUNT ∧ k = added i ∨
      memory COUNT = w.1.vm.memory COUNT + 1 ∧ k = added i + 1 ∧ w.2 i = true)
    (hguard : Guard p (memory LOCK) (Function.update w.2 i b))
    (hnear : Nearer n (w.1.vm.memory LOCK) (added i) k (w.2 i) b (w.1.core i)
      (m.finish next).core) : Moves fpu p n i added w := by
  have hinstr := (h.instr hn hpc hon).trans hins
  have hpc' : w.1.pc i = BitVec.ofNat 32 (pc + 2) := hon.2
  refine ⟨k, (m.finish next).core, memory, b, ?_, h.update hip hmem hpid hzero hat hcount hguard,
    hnear⟩
  unfold watch Sys.inside
  rw [step_instr hi hinstr (by rw [hpc']; exact hx), ok_bind, if_pos hi, hinstr, Option.elim_some,
    hin]
  unfold Sys.after
  rw [hvm]
  rfl

/-- A step that changes neither the memory nor what is inside. -/
theorem Inv.moves_calm (h : Inv p n added w) (hn : n < 2 ^ 19) (hi : w.1.Running i) (hip : i < p)
    (hb : w.2 i = b) (hk : added i = k) (pc : Nat) (hpc : pc < 17)
    (hon : (w.1.core i).On (BitVec.ofNat 32 (pc + 2))) (hins : (counterInstrs n)[pc]? = some ins)
    (hx : ins.exec fpu (BitVec.ofNat 32 (pc + 2) + 1) (w.1.fetched i) = .ok (next, m))
    (hvm : (m.finish next).vm = w.1.vm) (hpid : (m.finish next).core.pid = (w.1.core i).pid)
    (hzero : (m.finish next).core.reg 5 = (w.1.core i).reg 5) (hin : ins.inside w.1 i b = b)
    (hat : At n i (w.1.vm.memory COUNT) (m.finish next).core b k)
    (hnear : Nearer n (w.1.vm.memory LOCK) k k b b (w.1.core i) (m.finish next).core) :
    Moves fpu p n i added w := by
  subst hb hk
  refine h.moves hn hi hip pc hpc hon hins hx w.1.vm.memory hvm hpid hzero hin hat
    (fun _ _ _ => rfl) (Or.inl ⟨rfl, rfl⟩) ?_ hnear
  rw [Function.update_eq_self]
  exact h.guard

variable (fpu) in
/-- The exchange takes the lock, or finds it taken. -/
theorem Inv.try_lock (h : Inv p n added w) (hp : p ≤ 16) (hn : n < 2 ^ 19)
    (hi : w.1.Running i) (hip : i < p) (hb : w.2 i = false) (hk : added i = k)
    (on : (w.1.core i).On 8) (turn : Turn n i k (w.1.core i)) (lt : k < n)
    (r8 : (w.1.core i).reg 8 = -1) (r9 : (w.1.core i).reg 9 = -1) : Moves fpu p n i added w := by
  have hlock (out : Word) : peek w.1.vm.memory LOCK out = w.1.vm.memory LOCK :=
    peek_of_lt (by decide)
  rcases h.guard with ⟨hfree, hnone⟩ | ⟨j, hj, hheld, hone⟩
  · have hcmp : (w.1.core i).reg 9 = peek w.1.vm.memory LOCK 0 := by
      rw [hlock, hfree, r9]
    refine h.moves hn hi hip 6 (by decide) on rfl (exec_exchange hcmp)
      (poke w.1.vm.memory LOCK ((w.1.core i).reg 10)) rfl rfl rfl (if_pos ⟨rfl, hfree⟩)
      (.loop₃ ⟨on.1, rfl⟩ ⟨turn.r1, turn.r4, turn.r10⟩ lt r8 ⟨fun _ => rfl, fun _ => r9⟩)
      ?_ ?_ ?_ ?_
    · intro a _ ha
      exact poke_ne ha
    · exact Or.inl ⟨poke_ne (by decide), hk.symm⟩
    · refine Or.inr ⟨i, hip, (poke_self (by decide)).trans turn.r10, fun j => ?_⟩
      rcases eq_or_ne j i with rfl | hj
      · simp
      · simp [hnone j, hj]
    · rw [hk]
      exact nearer_on 9 on ⟨on.1, rfl⟩ (Nat.lt_add_one _)
  · have hne : w.1.vm.memory LOCK ≠ -1 := by
      rw [hheld]
      bv_omega
    have hcmp : (w.1.core i).reg 9 ≠ peek w.1.vm.memory LOCK 0 := by
      rw [hlock, r9]
      exact hne.symm
    refine h.moves_calm hn hi hip hb hk 6 (by decide) on rfl (exec_compare hcmp) rfl rfl rfl
      (if_neg fun hfree => hne hfree.2)
      (.loop₃ ⟨on.1, rfl⟩ ⟨turn.r1, turn.r4, turn.r10⟩ lt r8
        (iff_of_false (fun hr => hne ((hlock ((w.1.core i).reg 9)).symm.trans hr))
          Bool.false_ne_true))
      (nearer_waits 9 on ⟨on.1, rfl⟩ rfl rfl rfl (Or.inr hne))

variable (fpu) in
/-- The core that is inside writes `count`. -/
theorem Inv.put_count (h : Inv p n added w) (hn : n < 2 ^ 19) (hi : w.1.Running i) (hip : i < p)
    (hb : w.2 i = true) (hk : added i = k) (on : (w.1.core i).On 13)
    (turn : Turn n i k (w.1.core i)) (lt : k < n)
    (r0 : (w.1.core i).reg 0 = w.1.vm.memory COUNT + 1) : Moves fpu p n i added w := by
  refine h.moves hn hi hip 11 (by decide) on rfl exec_store
    (poke w.1.vm.memory COUNT ((w.1.core i).reg 0)) rfl rfl rfl hb
    (.add₃ ⟨on.1, rfl⟩ ⟨turn.r1, turn.r4, turn.r10⟩ lt) ?_ ?_ ?_ ?_
  · intro a ha _
    exact poke_ne ha
  · exact Or.inr ⟨(poke_self (by decide)).trans r0, congrArg (· + 1) hk.symm, hb⟩
  · have hlock : w.1.vm.memory LOCK = poke w.1.vm.memory COUNT ((w.1.core i).reg 0) LOCK :=
      (poke_ne (by decide)).symm
    rw [← hb, Function.update_eq_self, ← hlock]
    exact h.guard
  · have hleft : leftAt n (k + 1) true 14 < leftAt n k true 13 := by
      change 9 * (n - (k + 1)) + 8 < 9 * (n - k)
      omega
    rw [hk, hb]
    exact nearer_on 14 on ⟨on.1, rfl⟩ hleft

variable (fpu) in
/-- The core that is inside gives the lock back. -/
theorem Inv.put_lock (h : Inv p n added w) (hn : n < 2 ^ 19) (hi : w.1.Running i) (hip : i < p)
    (hb : w.2 i = true) (hk : added i = k) (on : (w.1.core i).On 16)
    (turn : Turn n i k (w.1.core i)) (le : k ≤ n) (r9 : (w.1.core i).reg 9 = -1) :
    Moves fpu p n i added w := by
  refine h.moves hn hi hip 14 (by decide) on rfl exec_store
    (poke w.1.vm.memory LOCK ((w.1.core i).reg 9)) rfl rfl rfl (if_pos ⟨rfl, r9⟩)
    (.add₆ ⟨on.1, rfl⟩ ⟨turn.r1, turn.r4, turn.r10⟩ le) ?_ ?_ ?_ ?_
  · intro a _ ha
    exact poke_ne ha
  · exact Or.inl ⟨poke_ne (by decide), hk.symm⟩
  · refine Or.inl ⟨(poke_self (by decide)).trans r9, ?_⟩
    intro j
    rcases eq_or_ne j i with rfl | hj
    · exact Function.update_self ..
    · rw [Function.update_of_ne hj]
      by_contra hin
      exact hj (h.guard.unique (Bool.not_eq_false _ ▸ hin) hb)
  · rw [hk]
    exact nearer_on 17 on ⟨on.1, rfl⟩ (by rw [hb]; exact Nat.lt_add_one _)

variable (fpu) in
theorem core_moves (h : Inv p n added w) (hp : p ≤ 16) (hn : n < 2 ^ 19) (hn₁ : 1 ≤ n)
    (hi : w.1.Running i) (hip : i < p) : Moves fpu p n i added w := by
  have hplace := h.place i hip
  generalize hb : w.2 i = b at hplace
  generalize hk : added i = k at hplace
  cases hplace with
  | main on =>
    exact h.moves_calm hn hi hip hb hk 0 (by decide) on rfl rfl rfl rfl rfl rfl
      (.main₁ ⟨on.1, rfl⟩ rfl) (nearer_on 3 on ⟨on.1, rfl⟩ (Nat.lt_add_one _))
  | main₁ on r4 =>
    exact h.moves_calm hn hi hip hb hk 1 (by decide) on rfl rfl rfl rfl rfl rfl
      (.main₂ ⟨on.1, rfl⟩ rfl r4) (nearer_on 4 on ⟨on.1, rfl⟩ (Nat.lt_add_one _))
  | main₂ on r1 r4 =>
    exact h.moves_calm hn hi hip hb hk 2 (by decide) on rfl rfl rfl rfl rfl rfl
      (.main₃ ⟨on.1, rfl⟩ ⟨r1, r4, h.pid i⟩) (nearer_on 5 on ⟨on.1, rfl⟩ (Nat.lt_add_one _))
  | main₃ on turn =>
    exact h.moves_calm hn hi hip hb hk 3 (by decide) on rfl rfl rfl rfl rfl rfl
      (.loop ⟨on.1, rfl⟩ ⟨turn.r1, turn.r4, turn.r10⟩ hn₁)
      (nearer_on 6 on ⟨on.1, rfl⟩ (Nat.lt_add_one _))
  | loop on turn lt =>
    exact h.moves_calm hn hi hip hb hk 4 (by decide) on rfl rfl rfl rfl rfl rfl
      (.loop₁ ⟨on.1, rfl⟩ ⟨turn.r1, turn.r4, turn.r10⟩ lt rfl)
      (nearer_waits 7 on ⟨on.1, rfl⟩ rfl rfl rfl (Or.inl (by decide)))
  | loop₁ on turn lt r8 =>
    exact h.moves_calm hn hi hip hb hk 5 (by decide) on rfl rfl rfl rfl rfl rfl
      (.loop₂ ⟨on.1, rfl⟩ ⟨turn.r1, turn.r4, turn.r10⟩ lt r8 rfl)
      (nearer_waits 8 on ⟨on.1, rfl⟩ rfl rfl rfl (Or.inl (by decide)))
  | loop₂ on turn lt r8 r9 => exact h.try_lock fpu hp hn hi hip hb hk on turn lt r8 r9
  | loop₃ on turn lt r8 r9 =>
    cases b with
    | true =>
      have hpc (a b : Word) : (if (w.1.core i).reg 8 = (w.1.core i).reg 9 then a else b) = a :=
        if_pos (r8.trans (r9.mpr rfl).symm)
      exact h.moves_calm hn hi hip hb hk 7 (by decide) on rfl rfl rfl rfl rfl rfl
        (.add ⟨on.1, hpc _ _⟩ ⟨turn.r1, turn.r4, turn.r10⟩ lt)
        (nearer_on 11 on ⟨on.1, hpc _ _⟩ (Nat.lt_add_one _))
    | false =>
      have hpc (a b : Word) : (if (w.1.core i).reg 8 = (w.1.core i).reg 9 then a else b) = b :=
        if_neg fun he => Bool.false_ne_true (r9.mp (he.symm.trans r8))
      exact h.moves_calm hn hi hip hb hk 7 (by decide) on rfl rfl rfl rfl rfl rfl
        (.loop₄ ⟨on.1, hpc _ _⟩ ⟨turn.r1, turn.r4, turn.r10⟩ lt)
        (nearer_waits 10 on ⟨on.1, hpc _ _⟩ rfl rfl rfl (Or.inl (by decide)))
  | loop₄ on turn lt =>
    exact h.moves_calm hn hi hip hb hk 8 (by decide) on rfl rfl rfl rfl rfl rfl
      (.loop ⟨on.1, rfl⟩ ⟨turn.r1, turn.r4, turn.r10⟩ lt)
      (nearer_waits 6 on ⟨on.1, rfl⟩ rfl rfl rfl (Or.inl (by decide)))
  | add on turn lt =>
    exact h.moves_calm hn hi hip hb hk 9 (by decide) on rfl rfl rfl rfl rfl rfl
      (.add₁ ⟨on.1, rfl⟩ ⟨turn.r1, turn.r4, turn.r10⟩ lt rfl)
      (nearer_on 12 on ⟨on.1, rfl⟩ (Nat.lt_add_one _))
  | add₁ on turn lt r0 =>
    exact h.moves_calm hn hi hip hb hk 10 (by decide) on rfl rfl rfl rfl rfl rfl
      (.add₂ ⟨on.1, rfl⟩ ⟨turn.r1, turn.r4, turn.r10⟩ lt (congrArg₂ (· + ·) r0 turn.r1))
      (nearer_on 13 on ⟨on.1, rfl⟩ (Nat.lt_add_one _))
  | add₂ on turn lt r0 => exact h.put_count fpu hn hi hip hb hk on turn lt r0
  | add₃ on turn lt =>
    refine h.moves_calm hn hi hip hb hk 12 (by decide) on rfl rfl rfl rfl rfl rfl
      (.add₄ ⟨on.1, rfl⟩ ⟨turn.r1, ?_, turn.r10⟩ lt)
      (nearer_on 15 on ⟨on.1, rfl⟩ (Nat.lt_add_one _))
    refine (congrArg₂ (· - ·) turn.r4 turn.r1).trans ?_
    bv_omega
  | add₄ on turn le =>
    exact h.moves_calm hn hi hip hb hk 13 (by decide) on rfl rfl rfl rfl rfl rfl
      (.add₅ ⟨on.1, rfl⟩ ⟨turn.r1, turn.r4, turn.r10⟩ le rfl)
      (nearer_on 16 on ⟨on.1, rfl⟩ (Nat.lt_add_one _))
  | add₅ on turn le r9 => exact h.put_lock fpu hn hi hip hb hk on turn le r9
  | add₆ on turn le =>
    have hslt : ((w.1.core i).reg 5).slt ((w.1.core i).reg 4) = true ↔ 0 < n - k := by
      rw [h.zero, turn.r4, zero_slt (by omega)]
    rcases Nat.lt_or_eq_of_le le with lt | rfl
    · have hpc (a b : Word) :
          (if ((w.1.core i).reg 5).slt ((w.1.core i).reg 4) = true then a else b) = a :=
        if_pos (hslt.mpr (by omega))
      exact h.moves_calm hn hi hip hb hk 15 (by decide) on rfl rfl rfl rfl rfl rfl
        (.loop ⟨on.1, hpc _ _⟩ ⟨turn.r1, turn.r4, turn.r10⟩ lt)
        (nearer_on 6 on ⟨on.1, hpc _ _⟩ (Nat.lt_add_one _))
    · have hpc (a b : Word) :
          (if ((w.1.core i).reg 5).slt ((w.1.core i).reg 4) = true then a else b) = b :=
        if_neg fun ht => absurd (hslt.mp ht) (by omega)
      exact h.moves_calm hn hi hip hb hk 15 (by decide) on rfl rfl rfl rfl rfl rfl
        (.last ⟨on.1, hpc _ _⟩) (nearer_on 18 on ⟨on.1, hpc _ _⟩
          (Nat.lt_add_left _ (by decide : 1 < 5)))
  | last on =>
    refine h.moves_calm hn hi hip hb hk 16 (by decide) on rfl rfl rfl rfl rfl rfl (.halted rfl)
      (Or.inl ?_)
    rw [on.left]
    exact Nat.zero_lt_one
  | halted status => exact absurd (status.symm.trans hi.2) (by decide)

end

/-- A step of the core `i` that keeps the invariant. -/
def Good (fpu : Fpu) (p n i : Nat) (w : Watch) : Prop :=
  ∃ added' w', watch fpu i w = .ok w' ∧ Inv p n added' w'

theorem watch_step (h : Inv p n added w) (hp : p ≤ 16) (hn : n < 2 ^ 19) (hn₁ : 1 ≤ n) :
    Good fpu p n i w := by
  by_cases hi : w.1.Running i
  · have hip : i < p := by
      have hlt := hi.1
      rw [h.procs] at hlt
      bv_omega
    obtain ⟨k, c, memory, b, hw, hinv, -⟩ := core_moves fpu h hp hn hn₁ hi hip
    exact ⟨_, _, hw, hinv⟩
  · refine ⟨added, w, ?_, h⟩
    unfold watch Sys.inside
    rw [step_idle hi, ok_bind, if_neg hi, Function.update_eq_self]
    rfl

end

theorem Inv.stopped {p n i : Nat} {added : Nat → Nat} {w : Watch} (h : Inv p n added w) (hi : i < p)
    (hstop : (w.1.core i).status ≠ 1) : added i = n ∧ w.2 i = false := by
  have hplace := h.place i hi
  generalize w.2 i = b at hplace
  generalize added i = k at hplace
  cases hplace with
  | halted => exact ⟨rfl, rfl⟩
  | main on | main₁ on | main₂ on | main₃ on | loop on | loop₁ on | loop₂ on | loop₃ on | loop₄ on
  | add on | add₁ on | add₂ on | add₃ on | add₄ on | add₅ on | add₆ on | last on =>
    exact absurd on.1 hstop

/-- When all cores have stopped, `count` has all their turns, and the lock is free. -/
theorem Inv.total {p n : Nat} {added : Nat → Nat} {w : Watch} (h : Inv p n added w) (hp : p ≤ 16)
    (hn : n < 2 ^ 19) (hstop : ∀ i < p, (w.1.core i).status ≠ 1) :
    (w.1.vm.memory COUNT).toNat = p * n ∧ w.1.vm.memory LOCK = -1 := by
  constructor
  · have hsum : ∑ i ∈ Finset.range p, added i = p * n := by
      have hend (i : Nat) (hi : i ∈ Finset.range p) : added i = n :=
        (h.stopped (Finset.mem_range.mp hi) (hstop i (Finset.mem_range.mp hi))).1
      rw [Finset.sum_const_nat hend, Finset.card_range]
    have hle : p * n ≤ 16 * 2 ^ 19 := Nat.mul_le_mul hp hn.le
    rw [h.count, hsum, BitVec.toNat_ofNat]
    omega
  · rcases h.guard with ⟨hfree, -⟩ | ⟨j, hj, -, hin⟩
    · exact hfree
    · have hout := (h.stopped hj (hstop j hj)).2
      rw [(hin j).mpr rfl] at hout
      cases hout

theorem inv_start {vm : VM} {p n : Nat} {initialSP : Nat → Word} (hzero : vm.reg 5 = 0) :
    Inv p n (fun _ => 0) (⟨{ vm.withCounter n with numProcessors := BitVec.ofNat 32 p },
      startCore (vm.withCounter n) initialSP⟩, fun _ => false) := by
  constructor
  · intro k hk
    have hlen : (counterLock n).length = 19 := rfl
    have hk' : (BitVec.ofNat 32 (k + 2)).toNat = k + 2 := by bv_omega
    dsimp only [VM.withCounter, withCode]
    rw [hk', if_pos (by omega)]
  · rfl
  · intro i
    rfl
  · intro i
    exact hzero
  · intro i _
    exact .main ⟨rfl, rfl⟩
  · exact Or.inl ⟨rfl, fun _ => rfl⟩
  · simp [withCode, VM.withCounter, COUNT, counterLock]

/-- From 1 to 16 cores run the program with the loop count `n`, in any order. At most one core is
inside, and when all have stopped `count` has all their turns. -/
theorem spin_lock {p n : Nat} (hp : 1 ≤ p ∧ p ≤ 16) (hn : 1 ≤ n ∧ n < 2 ^ 19) (junk : Nat → Word)
    (block : VM) (initialSP : Nat → Word) (fpu : Fpu) (is : List Nat) :
    ∃ vm s₀ s inside,
      loadExecutableFile junk (initVm block) (some (counterFile n)) = .ok ⟨1, none, vm⟩ ∧
      getAddress vm countName = .ok (some COUNT) ∧
      execute vm (BitVec.ofNat 32 p) initialSP = some s₀ ∧
      playFrom (watch fpu) is (s₀, fun _ => false) = .ok (s, inside) ∧
      (∀ i j, inside i = true → inside j = true → i = j) ∧
      ((∀ i < p, (s.core i).status ≠ 1) →
        (s.vm.memory COUNT).toNat = p * n ∧ s.vm.memory LOCK = -1) := by
  have hstep (i : Nat) (w : Watch) (hw : ∃ added, Inv p n added w) :
      ∃ w', watch fpu i w = .ok w' ∧ ∃ added, Inv p n added w' := by
    obtain ⟨added, h⟩ := hw
    obtain ⟨added', w', hw, h'⟩ := watch_step h hp.2 hn.2 hn.1
    exact ⟨w', hw, added', h'⟩
  have hstart : ∃ added, Inv p n added
      (⟨{ (initVm block).withCounter n with numProcessors := BitVec.ofNat 32 p },
        startCore ((initVm block).withCounter n) initialSP⟩, fun _ => false) := ⟨_, inv_start rfl⟩
  obtain ⟨⟨s, inside⟩, hrun, added, hinv⟩ := playFrom_total hstep hstart
  refine ⟨_, _, s, inside, load_counter, rfl, ?_, hrun, ?_, hinv.total hp.2 hn.2⟩
  · unfold execute
    rw [if_neg (by unfold VMX20_MAX_PROCESSORS; bv_omega)]
  · intro i j hi hj
    exact hinv.guard.unique hi hj

/-- Two cores, two turns each. -/
theorem spin_lock_two : ∃ vm s₀ s inside,
    loadExecutableFile (fun _ => 0) (initVm blank) (some (counterFile 2)) = .ok ⟨1, none, vm⟩ ∧
    getAddress vm countName = .ok (some COUNT) ∧ execute vm 2 (fun _ => 100) = some s₀ ∧
    playFrom (watch noFpu) [0, 1, 0] (s₀, fun _ => false) = .ok (s, inside) ∧
    (∀ i j, inside i = true → inside j = true → i = j) ∧
    ((∀ i < 2, (s.core i).status ≠ 1) → (s.vm.memory COUNT).toNat = 4 ∧ s.vm.memory LOCK = -1) :=
  spin_lock ⟨by decide, by decide⟩ ⟨by decide, by decide⟩ _ _ _ _ _

end Cs720.Vm
