import Cs720.Lib.LostUpdate
import Cs720.Vm.SpinLockThreads

/-! # A counter without a lock (`test/test_counter_no_lock.asm`)

Each core adds 1 to `count` in `n` turns. Its load and its store are the two steps of a turn of a
`Tally`; what it does in between no other core sees.
-/

namespace Cs720.Vm.NoLock

open Cs720.Lib

/-! ## The program -/

/-- The code, with the loop count `n`. -/
def counterNoLock (n : Nat) : List Word :=
  [0, BitVec.ofNat 32 n <<< 12 ||| 0x403, 0x00001103, 0x00000014, 0xffffb001, 0x0000100b,
    0xffff9002, 0x0000140c, 0xfffb5412, 0]

/-- The instructions from the address 1 on. -/
def instrs (n : Nat) : List Instr :=
  [.ldimm 4 (BitVec.ofNat 32 n), .ldimm 1 1, .jmp 4, .load 0 COUNT, .addi 0 1, .store 0 COUNT,
    .subi 4 1, .bgt 4 5 4, .halt]

/-- The insymbol section with `mainx20` and `count`. -/
def symbols : List Word := mainSection 1 ++ [0x6e756f63, 0x00000074, 0, 0, COUNT]

def noLockFile (n : Nat) : File where
  words := [10, 0, 10] ++ symbols ++ counterNoLock n
  rest := []
  short := File.short_nil

/-- The VM with the program. -/
def withProgram (vm : VM) (n : Nat) : VM :=
  { vm with
    memory := withCode vm.memory (counterNoLock n)
    entryPoint := 1
    progEnd := 10
    symbols := .node countName COUNT (.node mainx20 1 vm.symbols) }

section
variable {n k : Nat}

theorem load_program {junk : Nat → Word} {vm : VM} :
    loadExecutableFile junk vm (some (noLockFile n)) = .ok ⟨1, none, withProgram vm n⟩ := by
  have hw : (noLockFile n).words = [10, 0, 10] ++ symbols ++ counterNoLock n ++ [] := by
    simp [noLockFile]
  have hmain : copyName (fun k => symbuffer symbols junk (0 + k)) = .ok mainx20 := by
    unfold copyName bytes16 symbuffer
    simp [symbols, mainSection]
    decide
  have hcount : copyName (fun k => symbuffer symbols junk (5 + k)) = .ok countName := by
    unfold copyName bytes16 symbuffer
    simp [symbols, mainSection]
    decide
  have hoff : offsets symbols.length = [0, 5] := by decide
  have hlen : (counterNoLock n).length = 10 := rfl
  rw [load_sections hw (by decide) (by rfl) (by rw [hlen]; decide), hoff]
  exact (parse_main hmain).trans ((parse_name hcount (by decide)).trans rfl)

/-- The operands of this instruction are the same at each address. -/
theorem decode_ldimm_at (h : n < 2 ^ 19) (pc : Word) :
    decode (BitVec.ofNat 32 n <<< 12 ||| 0x403) pc = .ldimm 4 (BitVec.ofNat 32 n) := by
  have hop : (BitVec.ofNat 32 n <<< 12 ||| 0x403).setWidth 8 = (3 : BitVec 8) := by
    ext i hi
    interval_cases i <;> simp
  have hsame := decode_ldimm h
  unfold decode at hsame ⊢
  rw [hop] at hsame ⊢
  exact hsame

theorem decode_program (h : n < 2 ^ 19) (hk : k < 9) :
    ((counterNoLock n)[k + 1]?).map (fun word => decode word (BitVec.ofNat 32 (k + 1))) =
      (instrs n)[k]? := by
  interval_cases k
  · exact congrArg some (decode_ldimm_at h _)
  all_goals rfl

end

/-! ## The invariant -/

/-- The registers of a core in the loop that has done `k` turns. -/
structure Turn (n k : Nat) (c : Core) : Prop where
  r1 : c.reg 1 = 1
  r4 : c.reg 4 = BitVec.ofNat 32 (n - k)

/-- Where a core is in the program, what it has read in its turn, how many turns it has done, and a
number that falls with each instruction but a load and a store of `count`. -/
inductive At (n : Nat) (c : Core) : Option Nat → Nat → Nat → Prop where
  | main (on : c.On 1) : At n c none 0 10
  | main₁ (on : c.On 2) (r4 : c.reg 4 = BitVec.ofNat 32 n) : At n c none 0 9
  | main₂ (on : c.On 3) (turn : Turn n 0 c) : At n c none 0 8
  | loop {k : Nat} (on : c.On 4) (turn : Turn n k c) (lt : k < n) : At n c none k 7
  | loop₁ {k v : Nat} (on : c.On 5) (turn : Turn n k c) (lt : k < n)
      (r0 : c.reg 0 = BitVec.ofNat 32 v) : At n c (some v) k 6
  | loop₂ {k v : Nat} (on : c.On 6) (turn : Turn n k c) (lt : k < n)
      (r0 : c.reg 0 = BitVec.ofNat 32 (v + 1)) : At n c (some v) k 5
  | loop₃ {k : Nat} (on : c.On 7) (turn : Turn n k c) (lt : k < n) : At n c none (k + 1) 12
  | loop₄ {k : Nat} (on : c.On 8) (turn : Turn n k c) (le : k ≤ n) : At n c none k 11
  | last (on : c.On 9) : At n c none n 2
  | halted (status : c.status = VMX20_NORMAL_TERMINATION) : At n c none n 0

/-- The system has come where the counter and the turns of its cores are those of `t`. -/
structure Inv (p n : Nat) (t : Tally Nat) (s : Sys) : Prop where
  code : ∀ k < 9, s.vm.memory (BitVec.ofNat 32 (k + 1)) = (counterNoLock n).getD (k + 1) 0
  procs : s.vm.numProcessors = BitVec.ofNat 32 p
  zero : ∀ i, (s.core i).reg 5 = 0
  place : ∀ i < p, ∃ r, At n (s.core i) (t.seen i) (t.done i) r
  count : s.vm.memory COUNT = BitVec.ofNat 32 t.count
  run : Tally.Run n (Finset.range p) .start t

section
variable {fpu : Fpu} {p n i r : Nat} {t t' : Tally Nat} {s : Sys} {ins : Instr} {next : Next}
  {m : Machine}

theorem Inv.instr {pc : Nat} (h : Inv p n t s) (hn : n < 2 ^ 19) (hpc : pc < 9)
    (hon : (s.core i).On (BitVec.ofNat 32 (pc + 1))) : s.instr i = (instrs n)[pc]? := by
  have hpc' : s.pc i = BitVec.ofNat 32 (pc + 1) := hon.2
  have hlen : (counterNoLock n).length = 10 := rfl
  unfold Sys.instr VM.getWord
  rw [hpc', if_neg (by unfold MEM_SIZE; bv_omega), h.code pc hpc, ← decode_program hn hpc,
    List.getElem?_eq_getElem (by omega), List.getD_eq_getElem _ _ (by omega)]

/-- What an instruction of the core `i` does to the system. -/
theorem Inv.move (h : Inv p n t s) (hn : n < 2 ^ 19) (hi : s.Running i) (pc : Nat) (hpc : pc < 9)
    (hon : (s.core i).On (BitVec.ofNat 32 (pc + 1))) (hins : (instrs n)[pc]? = some ins)
    (hx : ins.exec fpu (BitVec.ofNat 32 (pc + 1) + 1) (s.fetched i) = .ok (next, m))
    (memory : Word → Word) (hvm : (m.finish next).vm = { s.vm with memory })
    (hzero : (m.finish next).core.reg 5 = (s.core i).reg 5)
    (hmem : ∀ a, a ≠ COUNT → memory a = s.vm.memory a)
    (hcount : memory COUNT = BitVec.ofNat 32 t'.count)
    (hrun : Tally.Run n (Finset.range p) .start t')
    (hother : ∀ j ≠ i, t'.seen j = t.seen j ∧ t'.done j = t.done j)
    (hat : At n (m.finish next).core (t'.seen i) (t'.done i) r) :
    ∃ s', step fpu i s = .ok s' ∧ Inv p n t' s' ∧ s'.core i = (m.finish next).core := by
  have hpc' : s.pc i = BitVec.ofNat 32 (pc + 1) := hon.2
  refine ⟨_, step_instr hi ((h.instr hn hpc hon).trans hins) (by rw [hpc']; exact hx), ?_,
    Function.update_self ..⟩
  constructor
  · intro k hk
    rw [← h.code k hk, Sys.after_vm, hvm]
    apply hmem
    unfold COUNT
    bv_omega
  · rw [Sys.after_vm, hvm]
    exact h.procs
  · intro j
    rw [Sys.after_core]
    rcases eq_or_ne j i with rfl | hj
    · rw [Function.update_self, hzero, h.zero]
    · rw [Function.update_of_ne hj, h.zero]
  · intro j hj
    rw [Sys.after_core]
    rcases eq_or_ne j i with rfl | hji
    · rw [Function.update_self]
      exact ⟨r, hat⟩
    · rw [Function.update_of_ne hji, (hother j hji).1, (hother j hji).2]
      exact h.place j hj
  · rw [Sys.after_vm, hvm]
    exact hcount
  · exact hrun

/-- The core `i` makes a step of the tally, or it comes nearer to its next one. -/
def Goes (fpu : Fpu) (p n i : Nat) (t : Tally Nat) (s : Sys) (r : Nat) : Prop :=
  ∃ s' t', step fpu i s = .ok s' ∧ Inv p n t' s' ∧
    (Tally.Step n i t t' ∨ t' = t ∧ ∃ r' < r, At n (s'.core i) (t.seen i) (t.done i) r')

/-- An instruction that neither reads nor writes `count`. -/
theorem Inv.calm (h : Inv p n t s) (hn : n < 2 ^ 19) (hi : s.Running i) (pc : Nat) (hpc : pc < 9)
    (hon : (s.core i).On (BitVec.ofNat 32 (pc + 1))) (hins : (instrs n)[pc]? = some ins)
    (hx : ins.exec fpu (BitVec.ofNat 32 (pc + 1) + 1) (s.fetched i) = .ok (next, m))
    (hvm : (m.finish next).vm = s.vm) (hzero : (m.finish next).core.reg 5 = (s.core i).reg 5)
    {r' : Nat} (hr : r' < r) (hat : At n (m.finish next).core (t.seen i) (t.done i) r') :
    Goes fpu p n i t s r := by
  obtain ⟨s', hs', hinv, hcore⟩ := h.move hn hi pc hpc hon hins hx s.vm.memory hvm hzero
    (fun _ _ => rfl) h.count h.run (fun _ _ => ⟨rfl, rfl⟩) hat
  exact ⟨s', t, hs', hinv, Or.inr ⟨rfl, r', hr, hcore ▸ hat⟩⟩

/-- An instruction that makes a step of the tally. -/
theorem Inv.takes (h : Inv p n t s) (hn : n < 2 ^ 19) (hi : s.Running i) (hip : i < p)
    (pc : Nat) (hpc : pc < 9) (hon : (s.core i).On (BitVec.ofNat 32 (pc + 1)))
    (hins : (instrs n)[pc]? = some ins)
    (hx : ins.exec fpu (BitVec.ofNat 32 (pc + 1) + 1) (s.fetched i) = .ok (next, m))
    (memory : Word → Word) (hvm : (m.finish next).vm = { s.vm with memory })
    (hzero : (m.finish next).core.reg 5 = (s.core i).reg 5)
    (hmem : ∀ a, a ≠ COUNT → memory a = s.vm.memory a) (hstep : Tally.Step n i t t')
    (hcount : memory COUNT = BitVec.ofNat 32 t'.count) (r' : Nat)
    (hat : At n (m.finish next).core (t'.seen i) (t'.done i) r') : Goes fpu p n i t s r := by
  obtain ⟨s', hs', hinv, -⟩ := h.move hn hi pc hpc hon hins hx memory hvm hzero hmem hcount
    (h.run.tail ⟨i, Finset.mem_range.mpr hip, hstep⟩) (fun _ hj => hstep.other hj) hat
  exact ⟨s', t', hs', hinv, Or.inl hstep⟩

variable (fpu) in
theorem At.steps (hat : At n (s.core i) (t.seen i) (t.done i) r) (h : Inv p n t s) (hn : n < 2 ^ 19)
    (hn₁ : 1 ≤ n) (hi : s.Running i) (hip : i < p) : Goes fpu p n i t s r := by
  generalize hseen : t.seen i = seen at hat
  generalize hdone : t.done i = done at hat
  have hkeep : ∀ {c : Core} {r' : Nat}, At n c seen done r' → At n c (t.seen i) (t.done i) r' := by
    rintro c r' hat
    rw [hseen, hdone]
    exact hat
  cases hat with
  | main on =>
    exact h.calm hn hi 0 (by decide) on rfl rfl rfl rfl (by decide)
      (hkeep (.main₁ ⟨on.1, rfl⟩ rfl))
  | main₁ on r4 =>
    exact h.calm hn hi 1 (by decide) on rfl rfl rfl rfl (by decide)
      (hkeep (.main₂ ⟨on.1, rfl⟩ ⟨rfl, r4⟩))
  | main₂ on turn =>
    exact h.calm hn hi 2 (by decide) on rfl rfl rfl rfl (by decide)
      (hkeep (.loop ⟨on.1, rfl⟩ ⟨turn.r1, turn.r4⟩ hn₁))
  | loop on turn lt =>
    refine h.takes hn hi hip 3 (by decide) on rfl rfl s.vm.memory rfl rfl (fun _ _ => rfl)
      (.read hseen (hdone.trans_lt lt)) h.count 6 ?_
    dsimp only
    rw [Function.update_self, hdone]
    exact .loop₁ ⟨on.1, rfl⟩ ⟨turn.r1, turn.r4⟩ lt h.count
  | loop₁ on turn lt r0 =>
    refine h.calm hn hi 4 (by decide) on rfl rfl rfl rfl (by decide)
      (hkeep (.loop₂ ⟨on.1, rfl⟩ ⟨turn.r1, turn.r4⟩ lt ?_))
    exact (congrArg₂ (· + ·) r0 turn.r1).trans (BitVec.ofNat_add _ _).symm
  | loop₂ on turn lt r0 =>
    refine h.takes hn hi hip 5 (by decide) on rfl exec_store
      (poke s.vm.memory COUNT ((s.core i).reg 0)) rfl rfl (fun a ha => poke_ne ha) (.write hseen)
      ((poke_self (by decide)).trans r0) 12 ?_
    dsimp only
    rw [Function.update_self, Function.update_self, hdone]
    exact .loop₃ ⟨on.1, rfl⟩ ⟨turn.r1, turn.r4⟩ lt
  | loop₃ on turn lt =>
    refine h.calm hn hi 6 (by decide) on rfl rfl rfl rfl (by decide)
      (hkeep (.loop₄ ⟨on.1, rfl⟩ ⟨turn.r1, ?_⟩ lt))
    refine (congrArg₂ (· - ·) turn.r4 turn.r1).trans ?_
    bv_omega
  | loop₄ on turn le =>
    have hslt : ((s.core i).reg 5).slt ((s.core i).reg 4) = true ↔ 0 < n - done := by
      rw [h.zero, turn.r4, zero_slt (by omega)]
    rcases Nat.lt_or_eq_of_le le with lt | rfl
    · exact h.calm hn hi 7 (by decide) on rfl rfl rfl rfl (by decide)
        (hkeep (.loop ⟨on.1, if_pos (hslt.mpr (by omega))⟩ ⟨turn.r1, turn.r4⟩ lt))
    · exact h.calm hn hi 7 (by decide) on rfl rfl rfl rfl (by decide)
        (hkeep (.last ⟨on.1, if_neg fun ht => absurd (hslt.mp ht) (by omega)⟩))
  | last on =>
    exact h.calm hn hi 8 (by decide) on rfl rfl rfl rfl (by decide) (hkeep (.halted rfl))
  | halted status => exact absurd (status.symm.trans hi.2) (by decide)

/-! ## Runs -/

theorem Inv.index (h : Inv p n t s) (hi : s.Running i) : i < p := by
  have hlt := hi.1
  rw [h.procs] at hlt
  bv_omega

theorem At.status {c : Core} {seen : Option Nat} {k : Nat} (h : At n c seen k r) :
    c.status = 1 ∨ c.status ≠ 1 ∧ seen = none ∧ k = n := by
  cases h with
  | halted status => exact Or.inr ⟨fun h => absurd (status.symm.trans h) (by decide), rfl, rfl⟩
  | main on | main₁ on | main₂ on | loop on | loop₁ on | loop₂ on | loop₃ on | loop₄ on
  | last on => exact Or.inl on.1

variable (fpu) in
theorem Inv.step (h : Inv p n t s) (hn : n < 2 ^ 19) (hn₁ : 1 ≤ n) :
    ∃ s' t', step fpu i s = .ok s' ∧ Inv p n t' s' := by
  by_cases hi : s.Running i
  · have hip := h.index hi
    obtain ⟨r, hat⟩ := h.place i hip
    obtain ⟨s', t', hs', hinv, -⟩ := hat.steps fpu h hn hn₁ hi hip
    exact ⟨s', t', hs', hinv⟩
  · exact ⟨s, t, step_idle hi, h⟩

/-- When the cores have stopped, the tally is over. -/
theorem Inv.over (h : Inv p n t s) (hstop : ∀ i < p, (s.core i).status ≠ 1) :
    Tally.Over n (Finset.range p) t := by
  intro i hi
  rw [Finset.mem_range] at hi
  obtain ⟨r, hat⟩ := h.place i hi
  obtain ⟨-, hseen, hdone⟩ := hat.status.resolve_left (hstop i hi)
  exact ⟨hdone, hseen⟩

theorem Inv.running (h : Inv p n t s) (hp : p ≤ 16) (hip : i < p)
    (hstatus : (s.core i).status = 1) : s.Running i := by
  refine ⟨?_, hstatus⟩
  rw [h.procs]
  bv_omega

variable (fpu) in
/-- A core that has a step of the tally left makes it. -/
theorem Inv.makes (h : Inv p n t s) (hp : p ≤ 16) (hn : n < 2 ^ 19) (hn₁ : 1 ≤ n) (hip : i < p)
    (hstep : Tally.Step n i t t') : ∃ is s', play fpu is s = .ok s' ∧ Inv p n t' s' := by
  obtain ⟨r, hat⟩ := h.place i hip
  induction r using Nat.strong_induction_on generalizing s with
  | _ r ih =>
    have hstatus : (s.core i).status = 1 := by
      rcases hat.status with hstatus | ⟨-, hseen, hdone⟩
      · exact hstatus
      · cases hstep with
        | read _ hlt => omega
        | write hv => cases hv.symm.trans hseen
    obtain ⟨s', u, hs', hinv, hu | ⟨rfl, r', hr, hat'⟩⟩ :=
      hat.steps fpu h hn hn₁ (h.running hp hip hstatus) hip
    · obtain rfl := hu.unique hstep
      exact ⟨[i], s', by rw [play, playFrom, hs']; rfl, hinv⟩
    · obtain ⟨is, s'', hrun, hinv'⟩ := ih r' hr hinv hat'
      exact ⟨i :: is, s'', by rw [play, playFrom, hs']; exact hrun, hinv'⟩

variable (fpu) in
theorem Inv.follows (h : Inv p n t s) (hp : p ≤ 16) (hn : n < 2 ^ 19) (hn₁ : 1 ≤ n)
    (hrun : Tally.Run n (Finset.range p) t t') :
    ∃ is s', play fpu is s = .ok s' ∧ Inv p n t' s' := by
  induction hrun with
  | refl => exact ⟨[], s, rfl, h⟩
  | tail _ hstep ih =>
    obtain ⟨is, s', hrun, hinv⟩ := ih
    obtain ⟨i, hi, hstep⟩ := hstep
    obtain ⟨js, s'', hrun', hinv'⟩ :=
      hinv.makes fpu hp hn hn₁ (Finset.mem_range.mp hi) hstep
    exact ⟨is ++ js, s'', playFrom_trans hrun hrun', hinv'⟩

variable (fpu) in
/-- A core that has done its turns stops. -/
theorem Inv.halts (h : Inv p n t s) (hp : p ≤ 16) (hn : n < 2 ^ 19) (hn₁ : 1 ≤ n) (hip : i < p)
    (hover : Tally.Over n (Finset.range p) t) : ∃ is s', play fpu is s = .ok s' ∧ Inv p n t s' ∧
      (s'.core i).status ≠ 1 ∧ ∀ j ≠ i, s'.core j = s.core j := by
  obtain ⟨hdone, hseen⟩ := hover i (Finset.mem_range.mpr hip)
  obtain ⟨r, hat⟩ := h.place i hip
  induction r using Nat.strong_induction_on generalizing s with
  | _ r ih =>
    by_cases hstatus : (s.core i).status = 1
    · obtain ⟨s', u, hs', hinv, hu | ⟨rfl, r', hr, hat'⟩⟩ :=
        hat.steps fpu h hn hn₁ (h.running hp hip hstatus) hip
      · cases hu with
        | read _ hlt => omega
        | write hv => cases hv.symm.trans hseen
      · obtain ⟨is, s'', hrun, hinv', hstop, hother⟩ := ih r' hr hinv hat'
        refine ⟨i :: is, s'', by rw [play, playFrom, hs']; exact hrun, hinv', hstop, fun j hj => ?_⟩
        rw [hother j hj, step_other hj hs']
    · exact ⟨[], s, rfl, h, hstatus, fun _ _ => rfl⟩

variable (fpu) in
theorem Inv.halts_all (h : Inv p n t s) (hp : p ≤ 16) (hn : n < 2 ^ 19) (hn₁ : 1 ≤ n)
    (hover : Tally.Over n (Finset.range p) t) (k : Nat) (hk : k ≤ p) :
    ∃ is s', play fpu is s = .ok s' ∧ Inv p n t s' ∧ ∀ i < k, (s'.core i).status ≠ 1 := by
  induction k with
  | zero => exact ⟨[], s, rfl, h, by simp⟩
  | succ k ih =>
    obtain ⟨is, s', hrun, hinv, hstop⟩ := ih (by omega)
    obtain ⟨js, s'', hrun', hinv', hstop', hother⟩ :=
      hinv.halts fpu (i := k) hp hn hn₁ (by omega) hover
    refine ⟨is ++ js, s'', playFrom_trans hrun hrun', hinv', fun i hi => ?_⟩
    rcases Nat.lt_succ_iff_lt_or_eq.mp hi with hi | rfl
    · rw [hother i (by omega)]
      exact hstop i hi
    · exact hstop'

theorem Inv.count_toNat (h : Inv p n t s) (hp : 1 ≤ p ∧ p ≤ 16) (hn : n < 2 ^ 19)
    (hover : Tally.Over n (Finset.range p) t) : (s.vm.memory COUNT).toNat = t.count := by
  have hps : (Finset.range p).Nonempty := Finset.nonempty_range_iff.mpr (by omega)
  have hle := Tally.count_le hps h.run hover
  have hmul : p * n ≤ 16 * 2 ^ 19 := Nat.mul_le_mul hp.2 hn.le
  rw [Finset.card_range] at hle
  rw [h.count, BitVec.toNat_ofNat]
  omega

/-- No core executes `count`. -/
theorem Inv.noRace (h : Inv p n t s) (hn : n < 2 ^ 19) : Locked.NoRace fpu s := by
  have hon : ∀ {i}, s.Running i → ∃ pc < 9, (s.core i).On (BitVec.ofNat 32 (pc + 1)) := by
    intro i hi
    obtain ⟨r, hat⟩ := h.place i (h.index hi)
    generalize t.seen i = seen at hat
    generalize t.done i = done at hat
    cases hat with
    | main on => exact ⟨0, by decide, on⟩
    | main₁ on => exact ⟨1, by decide, on⟩
    | main₂ on => exact ⟨2, by decide, on⟩
    | loop on => exact ⟨3, by decide, on⟩
    | loop₁ on => exact ⟨4, by decide, on⟩
    | loop₂ on => exact ⟨5, by decide, on⟩
    | loop₃ on => exact ⟨6, by decide, on⟩
    | loop₄ on => exact ⟨7, by decide, on⟩
    | last on => exact ⟨8, by decide, on⟩
    | halted status => exact absurd (status.symm.trans hi.2) (by decide)
  intro i j _ hi hw
  obtain ⟨hj, ins, hins, hstores⟩ := footprint_writes hw
  obtain ⟨pc, hpc, hpcj⟩ := hon hj
  obtain ⟨pc', hpc', hpci⟩ := hon hi
  rw [h.instr hn hpc hpcj] at hins
  have hlist : ins.stores (s.fetched j) ⊆ [COUNT] := by
    interval_cases pc <;> cases hins <;> simp [Instr.stores]
  have hcount : s.pc i = COUNT := by simpa using hlist hstores
  have hpc₁ : s.pc i = BitVec.ofNat 32 (pc' + 1) := hpci.2
  rw [hpc₁] at hcount
  unfold COUNT at hcount
  bv_omega

end

theorem inv_start {vm : VM} {p n : Nat} {initialSP : Nat → Word} (hzero : vm.reg 5 = 0) :
    Inv p n .start ⟨{ withProgram vm n with numProcessors := BitVec.ofNat 32 p },
      startCore (withProgram vm n) initialSP⟩ := by
  constructor
  · intro k hk
    have hlen : (counterNoLock n).length = 10 := rfl
    have hk' : (BitVec.ofNat 32 (k + 1)).toNat = k + 1 := by bv_omega
    dsimp only [withProgram, withCode]
    rw [hk', if_pos (by omega)]
  · rfl
  · exact fun _ => hzero
  · exact fun _ _ => ⟨10, .main ⟨rfl, rfl⟩⟩
  · simp [withCode, withProgram, COUNT, counterNoLock, Tally.start]
  · exact .refl

/-- From 1 to 16 threads run the program with the loop count `n`, with their accesses in any order.
No thread fails. When all have stopped, `count` can have any value from 2 to all their turns, and no
other one. (One thread alone does all its turns, and with one turn each `count` can be 1.) -/
theorem no_lock_counts {p n : Nat} (hp : 1 ≤ p ∧ p ≤ 16) (hn : 1 ≤ n ∧ n < 2 ^ 19)
    (junk : Nat → Word) (block : VM) (initialSP : Nat → Word) (fpu : Fpu) :
    ∃ vm s₀,
      loadExecutableFile junk (initVm block) (some (noLockFile n)) = .ok ⟨1, none, vm⟩ ∧
      getAddress vm countName = .ok (some COUNT) ∧
      execute vm (BitVec.ofNat 32 p) initialSP = some s₀ ∧
      (∀ is, ∃ t, Locked.play s₀.vm fpu is (Locked.begin s₀) = .ok t) ∧
      ∀ c, (∃ is t, Locked.play s₀.vm fpu is (Locked.begin s₀) = .ok t ∧
          (∀ i < p, (t.own i).status ≠ 1) ∧ (t.mem COUNT).toNat = c) ↔
        (if p = 1 then n else min n 2) ≤ c ∧ c ≤ p * n := by
  have hstart : Inv p n .start
      ⟨{ withProgram (initVm block) n with numProcessors := BitVec.ofNat 32 p },
        startCore (withProgram (initVm block) n) initialSP⟩ := inv_start rfl
  generalize hs₀ : Sys.mk _ _ = s₀ at hstart
  have hcounts (js : List Nat) : ∃ s', play fpu js s₀ = .ok s' ∧ ∃ t, Inv p n t s' :=
    playFrom_total (fun i s ⟨t, h⟩ => by
      obtain ⟨s', t', hs', h'⟩ := h.step fpu (i := i) hn.2 hn.1
      exact ⟨s', hs', t', h'⟩) ⟨_, hstart⟩
  have hrace (js : List Nat) (s' : Sys) (h : play fpu js s₀ = .ok s') : Locked.NoRace fpu s' := by
    obtain ⟨u, hu, t, hinv⟩ := hcounts js
    cases hu.symm.trans h
    exact hinv.noRace hn.2
  have hok (is : List Nat) : ∃ t, Locked.play s₀.vm fpu is (Locked.begin s₀) = .ok t := by
    cases hrun : Locked.play s₀.vm fpu is (Locked.begin s₀) with
    | ok t => exact ⟨t, rfl⟩
    | error e =>
      obtain ⟨js, hjs⟩ := (Locked.instructions_fail hrace e).mp ⟨is, hrun⟩
      obtain ⟨u, hu, -⟩ := hcounts js
      cases hu.symm.trans hjs
  have hps : (Finset.range p).Nonempty := Finset.nonempty_range_iff.mpr (by omega)
  have hiff (c : Nat) := Tally.lost_updates_iff (c := c) hps hn.1
  simp only [Finset.card_range] at hiff
  refine ⟨_, s₀, load_program, rfl, ?_, hok, fun c => ?_⟩
  · unfold execute
    rw [if_neg (by unfold VMX20_MAX_PROCESSORS; bv_omega)]
    exact congrArg some hs₀
  refine Iff.trans ?_ (hiff c)
  constructor
  · rintro ⟨is, t, ht, hstop, rfl⟩
    have hprocs : s₀.vm.numProcessors.toNat = p := by
      rw [← hs₀]
      bv_omega
    have hrest : t.AtRest := by
      refine atRest_of_ended (fun _ _ _ => Locked.sect_code) ht fun i => if_neg ?_
      rintro ⟨hi, hstatus⟩
      exact hstop i (hprocs ▸ hi) hstatus
    obtain ⟨js, s', hs', rfl⟩ := (Locked.instructions_atomic hrace t hrest).mp ⟨is, ht⟩
    obtain ⟨u, hu, tally, hinv⟩ := hcounts js
    cases hu.symm.trans hs'
    exact ⟨tally, hinv.run, hinv.over hstop, (hinv.count_toNat hp hn.2 (hinv.over hstop)).symm⟩
  · rintro ⟨tally, hrun, hover, rfl⟩
    obtain ⟨is, s₁, hs₁, hinv₁⟩ := hstart.follows fpu hp.2 hn.2 hn.1 hrun
    obtain ⟨js, s₂, hs₂, hinv, hstop⟩ := hinv₁.halts_all fpu hp.2 hn.2 hn.1 hover p le_rfl
    obtain ⟨ks, hks⟩ := (Locked.instructions_atomic hrace (Locked.begin s₂) ⟨rfl, fun _ => rfl⟩).mpr
      ⟨_, s₂, playFrom_trans hs₁ hs₂, rfl⟩
    exact ⟨ks, _, hks, hstop, hinv.count_toNat hp hn.2 hover⟩

/-- Two threads with 10000 turns each, which add 2. -/
theorem no_lock_counts_two : ∃ vm s₀ is t,
    loadExecutableFile (fun _ => 0) (initVm blank) (some (noLockFile 10000)) = .ok ⟨1, none, vm⟩ ∧
    execute vm 2 (fun _ => 100) = some s₀ ∧
    Locked.play s₀.vm noFpu is (Locked.begin s₀) = .ok t ∧
    (∀ i < 2, (t.own i).status ≠ 1) ∧ (t.mem COUNT).toNat = 2 := by
  obtain ⟨vm, s₀, hload, -, hexecute, -, hcounts⟩ := no_lock_counts (p := 2) (n := 10000)
    ⟨by decide, by decide⟩ ⟨by decide, by decide⟩ (fun _ => 0) blank (fun _ => 100) noFpu
  obtain ⟨is, t, ht, hstop, htwo⟩ := (hcounts 2).mpr ⟨by decide, by decide⟩
  exact ⟨vm, s₀, is, t, hload, hexecute, ht, hstop, htwo⟩

end Cs720.Vm.NoLock
