import Cs720.Vm.DataAccess
import Cs720.Vm.Fetch
import Cs720.Vm.Loads
import Cs720.Vm.ParseCode

/-! # What the disassembler marks, and what the processor executes

The recursive disassembler follows the jumps and the calls, and takes the line behind a call for an
instruction, as the call may return.
-/

namespace Cs720.Vm

open Cs720.Lib

/-! ## The instructions of a run -/

/-- The system, and the addresses of the instructions that its cores have executed. -/
abbrev Traced := Sys × List Word

def trace (fpu : Fpu) (i : Nat) (t : Traced) : C Traced := do
  let s ← step fpu i t.1
  return (s, if t.1.Running i then t.1.pc i :: t.2 else t.2)

/-- The next step of the core `i` writes no word of the code, and a `ret` leads behind a call that
has been executed. -/
structure Behaves (fpu : Fpu) (code : List Word) (i : Nat) (t : Traced) : Prop where
  writes : ∀ a, Wrote (footprint fpu i t.1) a → code.length ≤ a.toNat
  returns : ∀ word, t.1.Running i → t.1.instr i = some (.ret word) →
    (Instr.ret word).GoesOn t.1.vm (t.1.core i) →
    ∃ a ∈ t.2, (∃ b, decode (t.1.vm.memory a) a = .call b) ∧
      (Instr.ret word).target t.1.vm (t.1.core i) (t.1.pc i + 1) = a + 1

/-! ## Lines -/

/-- No line that is seen falls through to the end of the code, and what is behind a jump of
displacement 0 is seen. -/
structure Complete (code : List Word) : Prop where
  targets : TargetsIn code
  ends : ∀ i w, Seen code i → code[i]? = some w → Falls w → i + 1 < code.length
  jumps : ∀ i w, Seen code i → code[i]? = some w → JmpZero w → Seen code (i + 1)

/-- The address is that of a line that is seen. -/
def OnLine (code : List Word) (a : Word) : Prop :=
  ∃ k, a = BitVec.ofNat 32 k ∧ k < code.length ∧ Seen code k

/-- The code is in memory, and nothing but its lines has been executed. -/
structure Covered (code : List Word) (t : Traced) : Prop where
  memory : ∀ k w, code[k]? = some w → t.1.vm.memory (BitVec.ofNat 32 k) = w
  executed : ∀ a ∈ t.2, OnLine code a
  pc : ∀ i, t.1.Running i → OnLine code (t.1.pc i)

section
variable {fpu : Fpu} {code : List Word} {k i : Nat} {w word a : Word} {vm : VM} {core : Core}
  {t t' : Traced}

theorem falls_onLine (hc : Complete code) (hk : Seen code k) (hw : code[k]? = some w)
    (hf : Falls w) : OnLine code (BitVec.ofNat 32 k + 1) := by
  have hlt := hc.ends k w hk hw hf
  refine ⟨k + 1, ?_, hlt, hk.tail (.next hw hf hlt)⟩
  exact (BitVec.ofNat_add k 1).symm

theorem target_onLine (hc : Complete code) (hk : Seen code k) (hw : code[k]? = some w) {z : Int}
    (ht : target? w k = some z) : OnLine code (BitVec.ofInt 32 z) := by
  obtain ⟨hlo, hhi⟩ := hc.targets k w z hk.reached hw ht
  obtain ⟨j, rfl⟩ := Int.eq_ofNat_of_zero_le hlo
  refine ⟨j, BitVec.ofInt_natCast 32 j, by omega, ?_⟩
  by_cases hz : JmpZero w
  · obtain rfl : j = k + 1 := by
      unfold target? at ht
      simp [hz.1, hz.2] at ht
      omega
    exact hc.jumps k w hk hw hz
  · exact hk.tail (.target hw hz ht)

/-- An instruction of a line leads to a line, unless it is a `ret`. -/
theorem goesOn_onLine (hc : Complete code) (hfits : code.length ≤ MEM_SIZE) (hk : Seen code k)
    (hw : code[k]? = some w) (hret : ∀ word, decode w (BitVec.ofNat 32 k) ≠ .ret word)
    (hg : (decode w (BitVec.ofNat 32 k)).GoesOn vm core) :
    OnLine code ((decode w (BitVec.ofNat 32 k)).target vm core (BitVec.ofNat 32 k + 1)) := by
  have hlt : (BitVec.ofNat 32 k).toNat = k := by
    have hk := (List.getElem?_eq_some_iff.mp hw).1
    unfold MEM_SIZE at hfits
    rw [BitVec.toNat_ofNat]
    omega
  have hnext (hf : Falls w) := falls_onLine hc hk hw hf
  have htarget (d : Word) (ht : target? w k = some (k + 1 + d.toInt)) :
      OnLine code (BitVec.ofNat 32 k + 1 + d) := by
    have hofInt : BitVec.ofInt 32 (k + 1 + d.toInt) = BitVec.ofNat 32 k + 1 + d := by
      rw [← ofInt_target, hlt]
    rw [← hofInt]
    exact target_onLine hc hk hw ht
  unfold Falls at hnext
  unfold target? at htarget
  unfold decode at hret hg ⊢
  cases hop : ins (w.setWidth 8) <;> simp only [hop] at hnext htarget hret hg ⊢
  case halt | pop | nop | invalid => exact hg.elim
  case ret => exact absurd rfl (hret w)
  case call | jmp => exact htarget _ rfl
  case blt | bgt | beq =>
    dsimp only [Instr.target]
    split
    · exact htarget _ rfl
    · exact hnext trivial
  all_goals exact hnext trivial

theorem Covered.instr (h : Covered code t) (hfits : code.length ≤ MEM_SIZE) (hr : t.1.Running i) :
    ∃ k w, t.1.pc i = BitVec.ofNat 32 k ∧ Seen code k ∧ code[k]? = some w ∧
      t.1.instr i = some (decode w (BitVec.ofNat 32 k)) := by
  obtain ⟨k, hpc, hlt, hk⟩ := h.pc i hr
  have hw := List.getElem?_eq_getElem hlt
  refine ⟨k, _, hpc, hk, hw, ?_⟩
  have hmem := h.memory k _ hw
  unfold MEM_SIZE at hfits
  unfold Sys.instr VM.getWord
  rw [hpc, if_neg (by rw [BitVec.toNat_ofNat]; unfold MEM_SIZE; omega), hmem]
  rfl

/-- A core that goes on is on a line again. -/
theorem Covered.next (hc : Complete code) (hfits : code.length ≤ MEM_SIZE) (h : Covered code t)
    (hb : Behaves fpu code i t) (hr : t.1.Running i) {s' : Sys} (hs : step fpu i t.1 = .ok s')
    (hr' : s'.Running i) : OnLine code (s'.pc i) := by
  obtain ⟨k, w, hpc, hk, hw, hi⟩ := h.instr hfits hr
  by_cases hg : (decode w (BitVec.ofNat 32 k)).GoesOn t.1.vm (t.1.core i)
  · rw [(step_goesOn hr hi hg hs).1]
    by_cases hret : ∃ word, decode w (BitVec.ofNat 32 k) = .ret word
    · obtain ⟨word, hret⟩ := hret
      rw [hret] at hi hg ⊢
      obtain ⟨a, ha, ⟨b, hcall⟩, htarget⟩ := hb.returns word hr hi hg
      obtain ⟨j, rfl, hlt, hj⟩ := h.executed a ha
      have hword := List.getElem?_eq_getElem hlt
      rw [h.memory j _ hword] at hcall
      rw [htarget]
      refine falls_onLine hc hj hword ?_
      unfold decode at hcall
      unfold Falls
      split at hcall <;> cases hcall
      rename_i hop
      rw [hop]
      trivial
    · rw [hpc]
      exact goesOn_onLine hc hfits hk hw (not_exists.mp hret) hg
  · exact absurd hr' (step_stops hr hi hg hs)

theorem Covered.step (hc : Complete code) (hfits : code.length ≤ MEM_SIZE) (h : Covered code t)
    (hb : Behaves fpu code i t) (hs : trace fpu i t = .ok t') : Covered code t' := by
  unfold trace at hs
  rw [bind_ok] at hs
  obtain ⟨s', hstep, hs⟩ := hs
  cases hs
  by_cases hr : t.1.Running i
  swap
  · rw [step_idle hr] at hstep
    cases hstep
    rw [if_neg hr]
    exact h
  rw [if_pos hr]
  refine ⟨?_, ?_, ?_⟩
  · intro k w hw
    rcases step_cases hstep with ⟨-, hidle⟩ | ⟨-, m, hm, rfl⟩
    · exact absurd hr hidle
    · refine (hm.frame.memory _ fun hwrote => ?_).trans (h.memory k w hw)
      rw [← hm.footprint] at hwrote
      have hle := hb.writes _ hwrote
      have hlt := (List.getElem?_eq_some_iff.mp hw).1
      rw [BitVec.toNat_ofNat] at hle
      have hmod := Nat.mod_le k (2 ^ 32)
      omega
  · rw [List.forall_mem_cons]
    exact ⟨h.pc i hr, h.executed⟩
  · intro j hj
    by_cases hji : j = i
    · subst hji
      exact h.next hc hfits hb hr hstep hj
    · have hcore := step_other hji hstep
      have hvm := (step_keeps hstep).1
      unfold Sys.Running at hj
      unfold Sys.pc
      dsimp only at hj ⊢
      rw [hcore] at hj ⊢
      rw [hvm] at hj
      exact h.pc j hj

theorem covered_execute {n : Word} {initialSP : Nat → Word} {s : Sys}
    (h : execute vm n initialSP = some s)
    (hmem : ∀ k w, code[k]? = some w → vm.memory (BitVec.ofNat 32 k) = w)
    (hentry : OnLine code vm.entryPoint) : Covered code (s, []) := by
  unfold execute at h
  split at h
  · cases h
  cases h
  refine ⟨hmem, by simp, ?_⟩
  intro i _
  unfold Sys.pc startCore
  simpa only [Function.update_self] using hentry

end

/-- Each instruction that is executed is marked as one, in every run in which the code is not
overwritten and each `ret` leads behind a call that has been executed. -/
theorem executed_marked {p : Program} (hc : Complete p.code) (hentry : OnLine p.code p.entry)
    {vm : VM} (hvm : vm.Has p) {n : Word} {initialSP : Nat → Word} {s₀ : Sys}
    (h : execute vm n initialSP = some s₀) {fpu : Fpu} {is : List Nat}
    (hb : Along (trace fpu) (Behaves fpu p.code) is (s₀, [])) :
    ∃ budget data, parse_code budget p.code (BitVec.ofNat 32 p.code.length) = .ok data ∧
      ∀ s executed, playFrom (trace fpu) is (s₀, []) = .ok (s, executed) →
        ∀ a ∈ executed, data[a.toNat]? = some D_INS := by
  have hfits := p.fits
  unfold MEM_SIZE at hfits
  have hlen : p.code.length = (BitVec.ofNat 32 p.code.length).toNat := by
    rw [BitVec.toNat_ofNat]
    omega
  obtain ⟨budget, data, hdata, hmarks⟩ := parse_code_marks hlen (by omega) hc.targets
  refine ⟨budget, data, hdata, ?_⟩
  intro s executed hrun a ha
  have hstart : Covered p.code (s₀, []) := covered_execute h hvm.memory (hvm.entryPoint ▸ hentry)
  have hcovered : Covered p.code (s, executed) :=
    playFrom_keeps (fun i t t' ht hi hs => ht.step hc p.fits hi hs) hstart hb hrun
  obtain ⟨k, rfl, hlt, hk⟩ := hcovered.executed a ha
  have hnat : (BitVec.ofNat 32 k).toNat = k := by
    rw [BitVec.toNat_ofNat]
    omega
  rw [hnat]
  exact (hmarks k hlt).mpr hk

theorem callsBack_main : ([⟨Link.mainx20, 0⟩] : List Link.Entry).filter
    (fun e => e.name.bytes = mainx20) = [⟨Link.mainx20, 0⟩] := by decide

theorem callsBack_fits : ([0x0000100f, 0, 0x00000010] : List Word).length ≤ MEM_SIZE := by decide

/-- A call of the line 2, which returns to the line 1. -/
def callsBack : Program where
  insyms := [⟨Link.mainx20, 0⟩]
  code := [0x0000100f, 0, 0x00000010]
  entry := 0
  main := callsBack_main
  fits := callsBack_fits

theorem callsBack_complete : Complete callsBack.code := by
  refine ⟨?_, ?_, ?_⟩
  · intro i w t _ hw ht
    match i with
    | 0 =>
      cases hw
      have ht : some (2 : Int) = some t := ht
      cases ht
      exact ⟨by decide, by decide⟩
    | 1 =>
      cases hw
      cases ht
    | 2 =>
      cases hw
      cases ht
    | i + 3 => cases hw
  · intro i w _ hw hf
    match i with
    | 0 => decide
    | 1 =>
      cases hw
      exact hf.elim
    | 2 =>
      cases hw
      exact hf.elim
    | i + 3 => cases hw
  · intro i w _ hw hz
    match i with
    | 0 =>
      cases hw
      cases hz.1
    | 1 =>
      cases hw
      cases hz.1
    | 2 =>
      cases hw
      cases hz.1
    | i + 3 => cases hw

theorem executed_marked_call : ∃ budget data, parse_code budget callsBack.code 3 = .ok data ∧
    ∀ a ∈ ([1, 2, 0] : List Word), data[a.toNat]? = some D_INS := by
  have hvm : (blank.withProgram callsBack).Has callsBack :=
    has_withProgram (fun label a h => nomatch h) (fun label => ⟨none, rfl⟩)
  have hentry : OnLine callsBack.code callsBack.entry :=
    ⟨0, rfl, by decide, Relation.ReflTransGen.refl⟩
  have hb : Along (trace noFpu) (Behaves noFpu callsBack.code) [0, 0, 0]
      (oneCore (blank.withProgram callsBack) 100, []) := by
    have hwrites (l : List Access) {l' : List Access} (hl : l' = l)
        (h : ∀ a, .write a ∈ l → 3 ≤ a.toNat) (a : Word) (ha : Wrote l' a) : 3 ≤ a.toNat :=
      h a (hl ▸ ha.1)
    have hother (ins : Instr) {s : Sys} (hi : s.instr 0 = some ins) (hne : ∀ word, ins ≠ .ret word)
        (word : Word) (h : s.instr 0 = some (.ret word)) : False :=
      hne word (Option.some.inj (hi.symm.trans h))
    refine ⟨⟨hwrites [.fetch 0, .write 99, .write 98, .write 97] rfl (by simp), ?_⟩, ?_⟩
    · exact fun word _ h => (hother (.call 2) rfl nofun word h).elim
    intro t₁ h₁
    cases h₁
    refine ⟨⟨hwrites [.fetch 2, .read 97, .read 98, .read 99, .write (-1)] rfl (by simp), ?_⟩, ?_⟩
    · exact fun _ _ _ _ => ⟨0, List.mem_singleton_self _, ⟨2, rfl⟩, rfl⟩
    intro t₂ h₂
    cases h₂
    refine ⟨⟨hwrites [.fetch 1] rfl (by simp), ?_⟩, fun _ _ => trivial⟩
    exact fun word _ h => (hother .halt rfl nofun word h).elim
  obtain ⟨budget, data, hdata, hall⟩ :=
    executed_marked callsBack_complete hentry hvm execute_oneCore hb
  exact ⟨budget, data, hdata, hall _ [1, 2, 0] rfl⟩

end Cs720.Vm
