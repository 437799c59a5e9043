import Mathlib.Logic.Relation
import Cs720.Vm.Load
import Cs720.Vm.Stack

/-! # Nested calls

In the run of a core with nested calls, the calls that have not returned yet are kept beside the
state of the system.
-/

namespace Cs720.Vm

open Cs720.Lib

/-- Where a call returns to, and the FP and SP of the caller. -/
structure Caller where
  pc : Word
  fp : Word
  sp : Word

def Sys.caller (s : Sys) (i : Nat) : Caller := ⟨s.pc i + 1, (s.core i).reg FP, (s.core i).reg SP⟩

/-- From `s` to `s'` SP and FP of the core `i`, the words of the program and its stack words at SP
and above have not changed. In a call, the word at FP - 1 may have. -/
structure Quiet (i : Nat) (inCall : Prop) (s s' : Sys) : Prop where
  sp : (s'.core i).reg SP = (s.core i).reg SP
  fp : (s'.core i).reg FP = (s.core i).reg FP
  program : ∀ a, a < s.vm.progEnd → s'.vm.memory a = s.vm.memory a
  stack : ∀ a, (s.core i).reg SP ≤ a → a < (s.core i).stack →
    ¬ (inCall ∧ a = (s.core i).reg FP - 1) → s'.vm.memory a = s.vm.memory a

/-- A step of a run in which the calls of the core `i` are nested, up to `depth`. -/
inductive Nested (fpu : Fpu) (i depth : Nat) : Sys × List Caller → Sys × List Caller → Prop where
  | call {s s' : Sys} {fr : List Caller} {a : Word} (running : s.Running i)
      (instr : s.instr i = some (.call a)) (room : fr.length < depth)
      (step : step fpu i s = .ok s') : Nested fpu i depth (s, fr) (s', s.caller i :: fr)
  | ret {s s' : Sys} {c : Caller} {fr : List Caller} {word : Word} (running : s.Running i)
      (instr : s.instr i = some (.ret word)) (step : step fpu i s = .ok s') :
      Nested fpu i depth (s, c :: fr) (s', fr)
  /-- A step of any core. -/
  | other {s s' : Sys} {fr : List Caller} {j : Nat} (step : step fpu j s = .ok s')
      (quiet : Quiet i (fr ≠ []) s s') : Nested fpu i depth (s, fr) (s', fr)

/-- The stack of the core `i` lies in memory, with room for `depth` calls, and FP - 1 is not in the
program. -/
structure Room (i depth : Nat) (s : Sys) : Prop where
  sp : (s.core i).reg SP ≤ (s.core i).stack
  stack : (s.core i).stack.toNat ≤ MEM_SIZE
  room : s.vm.progEnd.toNat + 3 * depth ≤ ((s.core i).reg SP).toNat
  fp : s.vm.progEnd ≤ (s.core i).reg FP - 1

/-! ## Frames -/

/-- The frames of the calls are on the stack at `sp`. FP was `fp₀` before the first call. -/
def Saved (memory : Word → Word) (fp₀ : Word) : Word → Word → List Caller → Prop
  | _, fp, [] => fp = fp₀
  | sp, fp, c :: fr => sp = c.sp - 3 ∧ fp = c.sp - 2 ∧ memory (c.sp - 1) = c.pc ∧
      memory (c.sp - 2) = c.fp ∧ Saved memory fp₀ c.sp c.fp fr

section
variable {memory memory' : Word → Word} {fp₀ sp fp top : Word} {fr : List Caller}

variable (top) in
theorem Saved.congr (h : Saved memory fp₀ sp fp fr)
    (hroom : sp.toNat + 3 * fr.length ≤ top.toNat)
    (hmem : ∀ a, sp ≤ a → a < top → ¬ (fr ≠ [] ∧ a = fp - 1) → memory' a = memory a) :
    Saved memory' fp₀ sp fp fr := by
  induction fr generalizing sp fp with
  | nil => exact h
  | cons c fr ih =>
    obtain ⟨hsp, hfp, hpc, hsaved, h⟩ := h
    rw [List.length_cons] at hroom
    have hslot : fp - 1 = sp := by rw [hfp, hsp]; bv_omega
    have hsame (a : Word) (ha : sp < a) (hat : a < top) : memory' a = memory a :=
      hmem a (by bv_omega) hat (by rw [hslot]; bv_omega)
    refine ⟨hsp, hfp, ?_, ?_, ?_⟩
    · rw [hsame _ (by bv_omega) (by bv_omega), hpc]
    · rw [hsame _ (by bv_omega) (by bv_omega), hsaved]
    · refine ih h (by bv_omega) ?_
      intro a ha hat _
      exact hsame a (by bv_omega) hat

theorem Saved.mem (h : Saved memory fp₀ sp fp fr) :
    ∀ c ∈ fr, memory (c.sp - 1) = c.pc ∧ memory (c.sp - 2) = c.fp := by
  induction fr generalizing sp fp with
  | nil => simp
  | cons c fr ih =>
    obtain ⟨-, -, hpc, hfp, h⟩ := h
    rw [List.forall_mem_cons]
    exact ⟨⟨hpc, hfp⟩, ih h⟩

end

/-- The invariant of the run. -/
structure Framed (i depth : Nat) (s₀ s : Sys) (fr : List Caller) : Prop where
  progEnd : s.vm.progEnd = s₀.vm.progEnd
  stack : (s.core i).stack = (s₀.core i).stack
  depth : fr.length ≤ depth
  sp : ((s.core i).reg SP).toNat + 3 * fr.length = ((s₀.core i).reg SP).toNat
  saved : Saved s.vm.memory ((s₀.core i).reg FP) ((s.core i).reg SP) ((s.core i).reg FP) fr
  program : ∀ a, a < s₀.vm.progEnd → s.vm.memory a = s₀.vm.memory a

section
variable {fpu : Fpu} {i j depth : Nat} {s₀ s s' : Sys} {fr : List Caller} {a word : Word}
  {c : Caller}

theorem Framed.call_accepted (h₀ : Room i depth s₀) (h : Framed i depth s₀ s fr)
    (hd : fr.length < depth) : ¬ s.Rejects i (.call a) := by
  have hsp := h.sp
  have hroom := h₀.room
  have hle := h₀.sp
  unfold Sys.Rejects Rejects
  rw [h.progEnd, h.stack]
  bv_omega

theorem Framed.ret_accepted (h₀ : Room i depth s₀) (h : Framed i depth s₀ s (c :: fr)) :
    ¬ s.Rejects i (.ret word) := by
  have hsp := h.sp
  have hroom := h₀.room
  have hle := h₀.sp
  have hd := h.depth
  unfold Sys.Rejects Rejects
  rw [h.progEnd, h.stack]
  rw [List.length_cons] at hsp hd
  bv_omega

theorem Framed.call (h₀ : Room i depth s₀) (h : Framed i depth s₀ s fr) (hr : s.Running i)
    (hi : s.instr i = some (.call a)) (hd : fr.length < depth) :
    ∃ s', step fpu i s = .ok s' ∧ s'.pc i = a ∧ Framed i depth s₀ s' (s.caller i :: fr) := by
  obtain ⟨s', hs, hmem, hcore⟩ := step_call fpu hr hi (h.call_accepted h₀ hd) rfl rfl
  have hsp := h.sp
  have hroom := h₀.room
  have hle := h₀.sp
  have htop := h₀.stack
  have hend := h.progEnd
  unfold MEM_SIZE at htop
  have hreg : (s'.core i).reg = Function.update (Function.update (Function.update (s.core i).reg FP
      ((s.core i).reg SP - 2)) SP ((s.core i).reg SP - 3)) PC a := by
    rw [hcore, Function.update_self]
  have hsp' : (s'.core i).reg SP = (s.core i).reg SP - 3 := by rw [hreg]; rfl
  have hfp' : (s'.core i).reg FP = (s.core i).reg SP - 2 := by rw [hreg]; rfl
  refine ⟨s', hs, ?_, ?_⟩
  · unfold Sys.pc
    rw [hreg, Function.update_self]
  have hold (b : Word) (hb : b < s₀.vm.progEnd ∨ (s.core i).reg SP ≤ b) :
      s'.vm.memory b = s.vm.memory b := by
    rw [hmem, poke_ne (by bv_omega), poke_ne (by bv_omega), poke_ne (by bv_omega)]
  constructor
  · rw [(step_keeps hs).1]
    exact hend
  · rw [(step_keeps hs).2 i]
    exact h.stack
  · exact hd
  · rw [hsp', List.length_cons]
    bv_omega
  · rw [hsp', hfp']
    refine ⟨rfl, rfl, ?_, ?_, ?_⟩
    · rw [hmem]
      unfold Sys.caller
      rw [poke_ne (by bv_omega), poke_ne (by bv_omega), poke_self (by unfold MEM_SIZE; bv_omega)]
    · rw [hmem]
      unfold Sys.caller
      rw [poke_ne (by bv_omega), poke_self (by unfold MEM_SIZE; bv_omega)]
    · refine h.saved.congr (s₀.core i).stack ?_ ?_
      · bv_omega
      · intro b hb _ _
        exact hold b (Or.inr hb)
  · intro b hb
    rw [hold b (Or.inl hb), h.program b hb]

theorem Framed.ret (h₀ : Room i depth s₀) (h : Framed i depth s₀ s (c :: fr)) (hr : s.Running i)
    (hi : s.instr i = some (.ret word)) :
    ∃ s', step fpu i s = .ok s' ∧ s'.pc i = c.pc ∧ (s'.core i).reg FP = c.fp ∧
      (s'.core i).reg SP = c.sp ∧ (fr ≠ [] ∨ (c.fp - 1).toNat < MEM_SIZE →
        s'.vm.getWord (c.fp - 1) = some (s.vm.memory ((s.core i).reg SP))) ∧
      Framed i depth s₀ s' fr := by
  have hsp := h.sp
  have hroom := h₀.room
  have hle := h₀.sp
  have htop := h₀.stack
  have hd := h.depth
  have hfp₀ := h₀.fp
  obtain ⟨hcsp, -, hpc, hfp, hsaved⟩ := h.saved
  rw [List.length_cons] at hsp hd
  unfold MEM_SIZE at htop
  have hread (b out : Word) (hb : b < c.sp) : peek s.vm.memory b out = s.vm.memory b :=
    peek_of_lt (by unfold MEM_SIZE; bv_omega)
  have hsp₁ : (s.core i).reg SP + 1 = c.sp - 2 := by bv_omega
  have hsp₂ : (s.core i).reg SP + 2 = c.sp - 1 := by bv_omega
  have hsp₃ : (s.core i).reg SP + 3 = c.sp := by bv_omega
  obtain ⟨s', hs, hmem, hcore⟩ := step_ret fpu hr hi (h.ret_accepted h₀) rfl rfl
  rw [hsp₁, hread _ _ (by bv_omega), hread _ _ (by bv_omega), hfp] at hmem
  rw [hsp₁, hsp₂, hsp₃, hread _ _ (by bv_omega), hread _ _ (by bv_omega), hfp, hpc] at hcore
  have hreg : (s'.core i).reg = Function.update (Function.update (Function.update (s.core i).reg FP
      c.fp) SP c.sp) PC c.pc := by
    rw [hcore, Function.update_self]
  have hsp' : (s'.core i).reg SP = c.sp := by rw [hreg]; rfl
  have hfp' : (s'.core i).reg FP = c.fp := by rw [hreg]; rfl
  -- The caller's FP - 1 is its SP, or it is as before the first call.
  have hslot : fr ≠ [] ∧ c.fp - 1 = c.sp ∨ fr = [] ∧ c.fp = (s₀.core i).reg FP := by
    cases fr with
    | nil => exact Or.inr ⟨rfl, hsaved⟩
    | cons b fr =>
      obtain ⟨hb, hbfp, -⟩ := hsaved
      refine Or.inl ⟨List.cons_ne_nil b fr, ?_⟩
      rw [hb, hbfp]
      bv_omega
  refine ⟨s', hs, ?_, hfp', hsp', ?_, ?_⟩
  · unfold Sys.pc
    rw [hreg, Function.update_self]
  · intro hin
    have hlt : (c.fp - 1).toNat < MEM_SIZE := by
      rcases hslot with ⟨hfr, hslot⟩ | ⟨hfr, -⟩
      · rw [hslot]
        unfold MEM_SIZE
        have hlen := List.length_pos_iff.mpr hfr
        bv_omega
      · exact hin.resolve_left (not_not.mpr hfr)
    unfold VM.getWord
    rw [if_neg (by omega), hmem, poke_self hlt]
  constructor
  · rw [(step_keeps hs).1]
    exact h.progEnd
  · rw [(step_keeps hs).2 i]
    exact h.stack
  · omega
  · rw [hsp']
    bv_omega
  · rw [hsp', hfp', hmem]
    rcases hslot with ⟨hfr, hslot⟩ | ⟨rfl, hslot⟩
    · refine hsaved.congr (s₀.core i).stack ?_ ?_
      · bv_omega
      · intro b hb _ hbne
        exact poke_ne fun hbs => hbne ⟨hfr, hbs⟩
    · exact hslot
  · intro b hb
    rw [hmem, poke_ne, h.program b hb]
    rcases hslot with ⟨-, hslot⟩ | ⟨-, hslot⟩ <;> rw [hslot] <;> bv_omega

theorem Framed.other (h₀ : Room i depth s₀) (h : Framed i depth s₀ s fr)
    (hs : step fpu j s = .ok s') (hq : Quiet i (fr ≠ []) s s') : Framed i depth s₀ s' fr := by
  constructor
  · rw [(step_keeps hs).1]
    exact h.progEnd
  · rw [(step_keeps hs).2 i]
    exact h.stack
  · exact h.depth
  · rw [hq.sp]
    exact h.sp
  · rw [hq.sp, hq.fp]
    refine h.saved.congr (s.core i).stack ?_ hq.stack
    have hsp := h.sp
    have hle := h₀.sp
    rw [h.stack]
    bv_omega
  · intro b hb
    rw [hq.program b (h.progEnd ▸ hb), h.program b hb]

theorem Framed.start : Framed i depth s₀ s₀ [] :=
  ⟨rfl, rfl, Nat.zero_le _, rfl, rfl, fun _ _ => rfl⟩

/-- The invariant of a run in which the calls are nested. -/
theorem Framed.run (h₀ : Room i depth s₀)
    (h : Relation.ReflTransGen (Nested fpu i depth) (s₀, []) (s, fr)) : Framed i depth s₀ s fr := by
  generalize hg : (s, fr) = g at h
  induction h generalizing s fr with
  | refl =>
    cases hg
    exact Framed.start
  | tail _ hstep ih =>
    cases hstep with
    | call hr hi hd hs =>
      obtain ⟨t, ht, -, hframed⟩ := (ih rfl).call h₀ hr hi hd
      rw [hs] at ht
      cases ht
      cases hg
      exact hframed
    | ret hr hi hs =>
      obtain ⟨t, ht, -, -, -, -, hframed⟩ := (ih rfl).ret h₀ hr hi
      rw [hs] at ht
      cases ht
      cases hg
      exact hframed
    | other hs hq =>
      cases hg
      exact (ih rfl).other h₀ hs hq

/-- In a run with nested calls nothing overwrites the program or what a call has saved. The next
call is accepted, and so is the next return, which goes back to its caller. -/
theorem call_return (h₀ : Room i depth s₀)
    (h : Relation.ReflTransGen (Nested fpu i depth) (s₀, []) (s, fr)) :
    (∀ a, a < s₀.vm.progEnd → s.vm.memory a = s₀.vm.memory a) ∧
    (∀ c ∈ fr, s.vm.memory (c.sp - 1) = c.pc ∧ s.vm.memory (c.sp - 2) = c.fp) ∧
    (∀ a, s.Running i → s.instr i = some (.call a) → fr.length < depth →
      ¬ s.Rejects i (.call a) ∧ ∃ s', step fpu i s = .ok s' ∧ s'.pc i = a) ∧
    ∀ word c fr', s.Running i → s.instr i = some (.ret word) → fr = c :: fr' →
      ¬ s.Rejects i (.ret word) ∧ ∃ s', step fpu i s = .ok s' ∧ s'.pc i = c.pc ∧
        (s'.core i).reg SP = c.sp ∧ (s'.core i).reg FP = c.fp ∧
        (fr' ≠ [] ∨ (c.fp - 1).toNat < MEM_SIZE →
          s'.vm.getWord (c.fp - 1) = some (s.vm.memory ((s.core i).reg SP))) := by
  have hframed := Framed.run h₀ h
  refine ⟨hframed.program, hframed.saved.mem, ?_, ?_⟩
  · intro a hr hi hd
    obtain ⟨s', hs, hpc, -⟩ := hframed.call h₀ hr hi hd
    exact ⟨hframed.call_accepted h₀ hd, s', hs, hpc⟩
  · rintro word c fr' hr hi rfl
    obtain ⟨s', hs, hpc, hfp, hsp, hword, -⟩ := hframed.ret h₀ hr hi
    exact ⟨hframed.ret_accepted h₀, s', hs, hpc, hsp, hfp, hword⟩

end

/-- A call of a function that returns at once. -/
def callRet : VM := blank.withExecutable 0 [0x0000100f, 0, 0x00000010]

theorem room_callRet : Room 0 1 (oneCore callRet 100) :=
  ⟨by decide, by decide, by decide, by decide⟩

/-- The run up to the return. -/
theorem callRet_run : ∃ s, s.Running 0 ∧ s.instr 0 = some (.ret 0x10) ∧
    Relation.ReflTransGen (Nested noFpu 0 1) (oneCore callRet 100, []) (s, [⟨1, 0, 100⟩]) := by
  have hcall : Nested noFpu 0 1 (oneCore callRet 100, []) (_, [⟨1, 0, 100⟩]) :=
    .call (a := 2) ⟨by decide, rfl⟩ rfl (by decide) rfl
  exact ⟨_, ⟨by decide, rfl⟩, rfl, Relation.ReflTransGen.single hcall⟩

theorem call_return_once : ∃ s s', step noFpu 0 s = .ok s' ∧ s'.pc 0 = 1 ∧
    (s'.core 0).reg SP = 100 ∧ (s'.core 0).reg FP = 0 := by
  obtain ⟨s, hr, hi, hrun⟩ := callRet_run
  obtain ⟨-, -, -, hret⟩ := call_return room_callRet hrun
  obtain ⟨-, s', hs, hpc, hsp, hfp, -⟩ := hret _ _ _ hr hi rfl
  exact ⟨s, s', hs, hpc, hsp, hfp⟩

/-- At the start FP is 0, so what a function returns to there is lost. -/
theorem outermost_lost : Room 0 1 (oneCore callRet 100) ∧ ∃ s s' c,
    Relation.ReflTransGen (Nested noFpu 0 1) (oneCore callRet 100, []) (s, [c]) ∧
    s.Running 0 ∧ s.instr 0 = some (.ret 0x10) ∧ step noFpu 0 s = .ok s' ∧ c.fp = 0 ∧
    s'.vm.getWord (c.fp - 1) = none ∧
    s'.vm.getWord (c.fp - 1) ≠ some (s.vm.memory ((s.core 0).reg SP)) := by
  obtain ⟨s, hr, hi, hrun⟩ := callRet_run
  obtain ⟨s', hs, -⟩ := (Framed.run room_callRet hrun).ret room_callRet hr hi
  exact ⟨room_callRet, s, s', _, hrun, hr, hi, hs, rfl, rfl, nofun⟩

end Cs720.Vm
