import Cs720.Vm.DataAccess
import Cs720.Vm.Stack

/-! # Pushes and pops in a row

The values come back in reverse order, but the first `pop` stops the core.
-/

namespace Cs720.Vm

open Cs720.Lib

/-- The instructions are executed one after the other, and return `gos`. -/
inductive Executes (fpu : Fpu) : List Instr → Machine → List Bool → Machine → Prop
  | nil {m : Machine} : Executes fpu [] m [] m
  | cons {i : Instr} {is : List Instr} {m m₁ m₂ : Machine} {go : Bool} {gos : List Bool} :
      m.instr = some i → executeInstruction fpu (m.core.reg PC) m = .ok (go, m₁) →
      Executes fpu is m₁ gos m₂ → Executes fpu (i :: is) m (go :: gos) m₂

/-- SP leaves room for `k` words above the end of the program. -/
structure PushRoom (k : Nat) (m : Machine) : Prop where
  sp : m.core.reg SP ≤ m.core.stack
  memory : 0 < k → (m.core.reg SP).toNat ≤ MEM_SIZE
  program : m.vm.progEnd.toNat + k < (m.core.reg SP).toNat

/-- The values are in memory from `a` on. -/
def Stacked (memory : Word → Word) (a : Word) : List Word → Prop
  | [] => True
  | v :: vs => memory a = v ∧ Stacked memory (a + 1) vs

/-- The registers when the values have gone into the registers `qs`, one after the other. -/
def deliver : List Reg → List Word → (Reg → Word) → Reg → Word
  | q :: qs, v :: vs, f => deliver qs vs (Function.update f q v)
  | _, _, f => f

/-- Registers that `push` and `pop` have no use for themselves. -/
def Plain (r : Reg) : Prop := r ≠ SP ∧ r ≠ PC

instance (r : Reg) : Decidable (Plain r) := inferInstanceAs (Decidable (_ ∧ _))

section
variable {fpu : Fpu} {m m₁ m' : Machine} {r : Reg} {go : Bool} {gos : List Bool} {is : List Instr}
  {rs qs : List Reg} {vs : List Word}

theorem stacked_append {memory : Word → Word} {a v : Word} :
    Stacked memory a (vs ++ [v]) ↔
      Stacked memory a vs ∧ memory (a + BitVec.ofNat 32 vs.length) = v := by
  induction vs generalizing a with
  | nil => simp [Stacked]
  | cons w vs ih =>
    have haddr : a + 1 + BitVec.ofNat 32 vs.length = a + BitVec.ofNat 32 (w :: vs).length := by
      rw [List.length_cons]
      bv_omega
    rw [List.cons_append, Stacked, Stacked, ih, haddr, and_assoc]

theorem deliver_congr {f g : Reg → Word} (h : ∀ q, Plain q → f q = g q) (hr : Plain r) :
    deliver qs vs f r = deliver qs vs g r := by
  induction qs generalizing vs f g with
  | nil => exact h r hr
  | cons q qs ih =>
    cases vs with
    | nil => exact h r hr
    | cons v vs =>
      apply ih
      intro p hp
      by_cases hpq : p = q
      · rw [hpq, Function.update_self, Function.update_self]
      · rw [Function.update_of_ne hpq, Function.update_of_ne hpq, h p hp]

theorem SP_ne_PC : SP ≠ PC := by decide

/-! ## One instruction -/

theorem pushed_reg : (m.pushed r).core.reg =
    Function.update m.core.reg SP (m.core.reg SP - 1) := rfl

theorem popped_reg : (m.popped r).core.reg =
    let reg := Function.update m.core.reg r (peek m.vm.memory (m.core.reg SP) (m.core.reg r))
    Function.update reg SP (reg SP + 1) := rfl

theorem push_step (hi : m.instr = some (.push r))
    (hok : ¬ Rejects m.vm.progEnd m.core.stack (m.core.reg SP) (.push r)) (hr : Plain r)
    (hx : executeInstruction fpu (m.core.reg PC) m = .ok (go, m₁)) :
    go = true ∧ m₁.core.reg SP = m.core.reg SP - 1 ∧ (∀ q, Plain q → m₁.core.reg q = m.core.reg q) ∧
      m₁.core.stack = m.core.stack ∧
      m₁.vm = { m.vm with memory := poke m.vm.memory (m.core.reg SP - 1) (m.core.reg r) } := by
  rw [execute_one hi (exec_push hok)] at hx
  obtain ⟨rfl, rfl⟩ := Prod.mk.inj (Except.ok.inj hx)
  have hval : (if r = SP then m.core.reg SP - 1 else m.core.reg r) = m.core.reg r := if_neg hr.1
  refine ⟨rfl, ?_, fun q hq => ?_, rfl, ?_⟩
  · rw [Machine.finish_reg SP_ne_PC, pushed_reg, Function.update_self]
    rfl
  · rw [Machine.finish_reg hq.2, pushed_reg, Function.update_of_ne hq.1]
    rfl
  · rw [← hval]
    rfl

theorem pop_step (hi : m.instr = some (.pop r))
    (hok : ¬ Rejects m.vm.progEnd m.core.stack (m.core.reg SP) (.pop r)) (hr : Plain r)
    (hx : executeInstruction fpu (m.core.reg PC) m = .ok (go, m₁)) :
    go = false ∧ m₁.core.reg SP = m.core.reg SP + 1 ∧
      (∀ q, Plain q → m₁.core.reg q =
        Function.update m.core.reg r (peek m.vm.memory (m.core.reg SP) (m.core.reg r)) q) ∧
      m₁.core.stack = m.core.stack ∧ m₁.vm = m.vm := by
  rw [execute_one hi (exec_pop hok)] at hx
  obtain ⟨rfl, rfl⟩ := Prod.mk.inj (Except.ok.inj hx)
  refine ⟨rfl, ?_, fun q hq => ?_, rfl, rfl⟩
  · rw [Machine.finish_reg SP_ne_PC, popped_reg, Function.update_self,
      Function.update_of_ne hr.1.symm]
    rfl
  · rw [Machine.finish_reg hq.2, popped_reg, Function.update_of_ne hq.1]
    rfl

/-! ## Many -/

theorem executes_cons {i : Instr} (h : Executes fpu (i :: is) m gos m') :
    ∃ go m₁ gos', gos = go :: gos' ∧ m.instr = some i ∧
      executeInstruction fpu (m.core.reg PC) m = .ok (go, m₁) ∧ Executes fpu is m₁ gos' m' := by
  cases h with
  | cons hi hx hrest => exact ⟨_, _, _, rfl, hi, hx, hrest⟩

/-- What `push rs` has done. -/
structure Pushed (rs : List Reg) (m m₁ : Machine) : Prop where
  sp : m₁.core.reg SP = m.core.reg SP - BitVec.ofNat 32 rs.length
  reg : ∀ q, Plain q → m₁.core.reg q = m.core.reg q
  stack : m₁.core.stack = m.core.stack
  vm : m₁.vm = { m.vm with memory := m₁.vm.memory }
  frame : ∀ a : Word,
    a.toNat + rs.length < (m.core.reg SP).toNat ∨ (m.core.reg SP).toNat ≤ a.toNat →
    m₁.vm.memory a = m.vm.memory a
  stacked : Stacked m₁.vm.memory (m₁.core.reg SP) (rs.map m.core.reg).reverse

theorem pushes_run (hroom : PushRoom rs.length m) (hrs : ∀ r ∈ rs, Plain r)
    (h : Executes fpu (rs.map .push ++ is) m gos m') :
    ∃ m₁ gos₁, gos = List.replicate rs.length true ++ gos₁ ∧ Executes fpu is m₁ gos₁ m' ∧
      Pushed rs m m₁ := by
  induction rs generalizing m gos with
  | nil => exact ⟨m, gos, rfl, h, by simp, fun _ _ => rfl, rfl, rfl, fun _ _ => rfl, trivial⟩
  | cons r rs ih =>
    obtain ⟨hr, hrs'⟩ := List.forall_mem_cons.mp hrs
    obtain ⟨hsp, hmem, hprog⟩ := hroom
    rw [List.length_cons] at hmem hprog
    have hmem := hmem (by omega)
    obtain ⟨go, m₁, gos', rfl, hi, hx, hrest⟩ := executes_cons h
    have hok : ¬ Rejects m.vm.progEnd m.core.stack (m.core.reg SP) (.push r) := by
      unfold Rejects
      bv_omega
    obtain ⟨rfl, hsp₁, hreg₁, hstack₁, hvm₁⟩ := push_step hi hok hr hx
    have hroom₁ : PushRoom rs.length m₁ := by
      refine ⟨?_, ?_, ?_⟩
      · rw [hsp₁, hstack₁]
        bv_omega
      · rw [hsp₁]
        bv_omega
      · rw [hsp₁, hvm₁]
        bv_omega
    obtain ⟨m₂, gos₂, rfl, hrest₂, hp⟩ := ih hroom₁ hrs' hrest
    refine ⟨m₂, gos₂, rfl, hrest₂, ?_, ?_, ?_, ?_, ?_, ?_⟩
    · rw [hp.sp, hsp₁, List.length_cons]
      bv_omega
    · exact fun q hq => (hp.reg q hq).trans (hreg₁ q hq)
    · exact hp.stack.trans hstack₁
    · rw [hp.vm, hvm₁]
    · intro a ha
      rw [List.length_cons] at ha
      rw [hp.frame a (by rw [hsp₁]; bv_omega), hvm₁]
      exact poke_ne (by bv_omega)
    · have hvals : rs.map m.core.reg = rs.map m₁.core.reg :=
        List.map_congr_left fun q hq => (hreg₁ q (hrs' q hq)).symm
      rw [List.map_cons, List.reverse_cons, hvals, stacked_append]
      refine ⟨hp.stacked, ?_⟩
      have haddr : m₂.core.reg SP + BitVec.ofNat 32 (rs.map m₁.core.reg).reverse.length =
          m.core.reg SP - 1 := by
        rw [List.length_reverse, List.length_map, hp.sp, hsp₁]
        bv_omega
      rw [haddr, hp.frame _ (by rw [hsp₁]; bv_omega), hvm₁]
      exact poke_self (by bv_omega)

theorem pops_run (hlen : vs.length = qs.length) (hqs : ∀ q ∈ qs, Plain q)
    (hst : Stacked m.vm.memory (m.core.reg SP) vs) (hend : m.vm.progEnd ≤ m.core.reg SP)
    (hstack : (m.core.reg SP).toNat + qs.length ≤ m.core.stack.toNat)
    (hmem : 0 < qs.length → (m.core.reg SP).toNat + qs.length ≤ MEM_SIZE)
    (h : Executes fpu (qs.map .pop) m gos m') :
    gos = List.replicate qs.length false ∧ m'.vm = m.vm ∧
      m'.core.reg SP = m.core.reg SP + BitVec.ofNat 32 qs.length ∧
      ∀ q, Plain q → m'.core.reg q = deliver qs vs m.core.reg q := by
  induction qs generalizing m gos vs with
  | nil =>
    cases h
    exact ⟨rfl, rfl, by simp, fun _ _ => rfl⟩
  | cons q qs ih =>
    obtain ⟨v, vs, rfl⟩ := List.exists_cons_of_length_eq_add_one hlen
    obtain ⟨hq, hqs'⟩ := List.forall_mem_cons.mp hqs
    obtain ⟨hv, hst⟩ := hst
    simp only [List.length_cons] at hlen hstack hmem
    have hmem := hmem (by omega)
    obtain ⟨go, m₁, gos', rfl, hi, hx, hrest⟩ := executes_cons h
    have hok : ¬ Rejects m.vm.progEnd m.core.stack (m.core.reg SP) (.pop q) := by
      unfold Rejects
      bv_omega
    obtain ⟨rfl, hsp₁, hreg₁, hstack₁, hvm₁⟩ := pop_step hi hok hq hx
    have hv' : peek m.vm.memory (m.core.reg SP) (m.core.reg q) = v := by
      rw [peek_of_lt (by omega), hv]
    have hstack' := m.core.stack.isLt
    have hsp₁' : (m₁.core.reg SP).toNat = (m.core.reg SP).toNat + 1 := by
      rw [hsp₁]
      bv_omega
    have hlen' : vs.length = qs.length := by omega
    obtain ⟨rfl, hvm, hsp, hreg⟩ := ih hlen' hqs' (by rw [hsp₁, hvm₁]; exact hst)
      (by rw [hvm₁]; bv_omega) (by rw [hstack₁]; omega) (by omega) hrest
    refine ⟨rfl, hvm.trans hvm₁, ?_, ?_⟩
    · rw [hsp, hsp₁, List.length_cons]
      bv_omega
    · intro p hp
      rw [hreg p hp]
      apply deliver_congr _ hp
      intro p' hp'
      rw [hreg₁ p' hp', hv']

/-- The values of the registers `rs`, pushed, have come to the registers `qs` in reverse order, and
nothing else has changed but the words that held them. -/
structure Delivered (rs qs : List Reg) (m m' : Machine) : Prop where
  reg : ∀ q, Plain q → m'.core.reg q = deliver qs (rs.map m.core.reg).reverse m.core.reg q
  sp : m'.core.reg SP = m.core.reg SP
  memory : ∀ a : Word,
    a.toNat + rs.length < (m.core.reg SP).toNat ∨ (m.core.reg SP).toNat ≤ a.toNat →
    m'.vm.memory a = m.vm.memory a
  vm : m'.vm = { m.vm with memory := m'.vm.memory }

/-- What the instructions do, whether the core goes on or not. -/
theorem push_pop_run (hroom : PushRoom rs.length m) (hlen : qs.length = rs.length)
    (hrs : ∀ r ∈ rs, Plain r) (hqs : ∀ q ∈ qs, Plain q)
    (h : Executes fpu (rs.map .push ++ qs.map .pop) m gos m') :
    gos = List.replicate rs.length true ++ List.replicate rs.length false ∧
      Delivered rs qs m m' := by
  obtain ⟨m₁, gos₁, rfl, hrest, hp⟩ := pushes_run hroom hrs h
  obtain ⟨hsp, hmem, hprog⟩ := hroom
  have hsp₁ : (m₁.core.reg SP).toNat + rs.length = (m.core.reg SP).toNat := by
    rw [hp.sp]
    bv_omega
  have hvals : (rs.map m.core.reg).reverse.length = qs.length := by
    rw [List.length_reverse, List.length_map, hlen]
  obtain ⟨rfl, hvm, hsp', hreg⟩ := pops_run hvals hqs hp.stacked
    (by rw [hp.vm]; bv_omega) (by rw [hp.stack]; bv_omega) (by omega) hrest
  rw [hlen]
  refine ⟨rfl, ?_, ?_, ?_, ?_⟩
  · intro q hq
    rw [hreg q hq]
    exact deliver_congr hp.reg hq
  · rw [hsp', hp.sp, hlen]
    bv_omega
  · intro a ha
    rw [hvm]
    exact hp.frame a ha
  · rw [hvm]
    exact hp.vm

/-- The values are delivered and the core goes on after each instruction, if and only if there is no
`pop` among them. -/
theorem push_pop_iff (hroom : PushRoom rs.length m) (hlen : qs.length = rs.length)
    (hrs : ∀ r ∈ rs, Plain r) (hqs : ∀ q ∈ qs, Plain q)
    (h : Executes fpu (rs.map .push ++ qs.map .pop) m gos m') :
    (Delivered rs qs m m' ∧ ∀ go ∈ gos, go = true) ↔ rs.length = 0 := by
  obtain ⟨rfl, hdel⟩ := push_pop_run hroom hlen hrs hqs h
  rw [and_iff_right hdel]
  constructor
  · intro hgo
    by_contra h0
    have := hgo false (by simp [h0])
    cases this
  · intro h0
    simp [h0]

end

/-! ### One push and one pop -/

/-- `push r0` and `pop r1`, with 7 in r0. -/
def pushPop : Machine where
  vm := blank.withExecutable 0 [0x00000018, 0x00000119]
  core := ⟨fun r => if r = 0 then 7 else if r = SP then 100 else 0, 100, 1, 0⟩
  log := []

theorem push_pop_once : ∃ gos m', Executes noFpu [.push 0, .pop 1] pushPop gos m' ∧
    ¬ (Delivered [0] [1] pushPop m' ∧ ∀ go ∈ gos, go = true) := by
  have hrun : Executes noFpu ([0].map .push ++ [1].map .pop) pushPop [true, false] _ :=
    .cons rfl rfl (.cons rfl rfl .nil)
  have hroom : PushRoom [(0 : Reg)].length pushPop := ⟨by decide, fun _ => by decide, by decide⟩
  have h0 : ∀ q ∈ [(0 : Reg)], Plain q := by decide
  have h1 : ∀ q ∈ [(1 : Reg)], Plain q := by decide
  have hlen : [(1 : Reg)].length = [(0 : Reg)].length := rfl
  have hiff := push_pop_iff hroom hlen h0 h1 hrun
  exact ⟨_, _, hrun, fun h => absurd (hiff.mp h) (by decide)⟩

/-- The `pop` brings 7 to r1 and stops the core. -/
theorem pop_stops : ∃ m₁ m₂, executeInstruction noFpu 0 pushPop = .ok (true, m₁) ∧
    m₁.instr = some (.pop 1) ∧ executeInstruction noFpu 1 m₁ = .ok (false, m₂) ∧
    m₂.core.reg 1 = 7 ∧ m₂.core.status = VMX20_ILLEGAL_INSTRUCTION :=
  ⟨_, _, rfl, rfl, rfl, rfl, rfl⟩

end Cs720.Vm
