import Cs720.Link.RoundTrip
import Cs720.Vm.Commute

/-! # What a linked program executes

In memory the program has the instructions of its object files. Where a file has a reference, the
instruction takes the address that `getAddress` gives for the name.
-/

namespace Cs720.Link

open Cs720.Lib Cs720.Vm

/-! ## Instructions with another address -/

/-- The instruction with the address `a`, if it has one. -/
def retarget (a : Word) : Instr → Instr
  | .load r _ => .load r a
  | .store r _ => .store r a
  | .ldaddr r _ => .ldaddr r a
  | .call _ => .call a
  | .jmp _ => .jmp a
  | .blt r s _ => .blt r s a
  | .bgt r s _ => .bgt r s a
  | .beq r s _ => .beq r s a
  | .cmpxchg r s _ => .cmpxchg r s a
  | i => i

section
variable {w w' a pc : Word}

/-- An instruction with the same fields is the same, but for its address. -/
theorem decode_fields (hwidth : (addressWidth w).isSome) (h : SameFields w w')
    (ha : address? (decode w' pc) = some a) : decode w' pc = retarget a (decode w pc) := by
  have hop : w'.setWidth 8 = w.setWidth 8 := by
    have hlow (x : Word) : x.setWidth 8 = (x.extractLsb' 0 12).setWidth 8 := by
      ext i hi
      interval_cases i <;> simp
    rw [hlow, h.1, ← hlow]
  have hreg : w'.extractLsb' 8 4 = w.extractLsb' 8 4 := by
    have hlow (x : Word) : x.extractLsb' 8 4 = (x.extractLsb' 0 12).extractLsb' 8 4 := by
      ext i hi
      interval_cases i <;> simp
    rw [hlow, h.1, ← hlow]
  have h16 := h.2
  unfold addressWidth at hwidth h16
  rw [opcode_toNat] at hwidth h16
  unfold decode ins at ha ⊢
  rw [hop, hreg] at ha ⊢
  split at hwidth <;> rename_i hcase <;> simp only [hcase] at h16 ha ⊢
  case h_10 => cases hwidth
  case h_6 | h_7 | h_8 | h_9 =>
    obtain rfl := Option.some.inj ha
    rw [h16 trivial]
    rfl
  all_goals
    obtain rfl := Option.some.inj ha
    rfl

theorem decode_rewrite (hwidth : (addressWidth w).isSome) (h : FitsField w (a - (pc + 1))) :
    decode (rewrite w (a - (pc + 1))) pc = retarget a (decode w pc) :=
  decode_fields hwidth (rewrite_fields hwidth) ((rewrite_address hwidth).mpr h)

end

/-! ## Words that are not written -/

section
variable {fpu : Fpu} {is : List Nat} {s s' t : Sys} {i : Nat} {a : Word}

theorem step_unwritten (h : .write a ∉ footprint fpu i s) (hs : step fpu i s = .ok s') :
    s'.vm.memory a = s.vm.memory a := by
  rcases step_cases hs with ⟨rfl, -⟩ | ⟨-, m, hm, rfl⟩
  · rfl
  · rw [hm.footprint] at h
    exact hm.frame.memory a fun hw => h hw.1

theorem play_unwritten (h : ∀ i, (i, .write a) ∉ accesses fpu is s)
    (hs : Vm.play fpu is s = .ok t) : t.vm.memory a = s.vm.memory a := by
  induction is generalizing s with
  | nil =>
    cases hs
    rfl
  | cons i is ih =>
    unfold Vm.play playFrom at hs
    rw [bind_ok] at hs
    obtain ⟨s', hi, hs⟩ := hs
    simp only [accesses, hi, List.mem_append, not_or] at h
    rw [ih (fun j => (h j).2) hs]
    refine step_unwritten (fun hmem => (h i).1 ?_) hi
    exact List.mem_map_of_mem hmem

end

/-! ## The linked program -/

/-- `ins` is the instruction at the place `k` of the joined files. If it is a reference, it has the
address that the VM gives for the name. -/
structure Means (os : List Object) (vm : VM) (k : Nat) (ins : Instr) : Prop where
  own : (∀ r ∈ refs 0 os, r.pos ≠ k) →
    ∃ w, (codes os)[k]? = some w ∧ ins = decode w (BitVec.ofNat 32 k)
  ref : ∀ r ∈ refs 0 os, r.pos = k → ∃ w a, (codes os)[k]? = some w ∧
    getAddress vm r.name.bytes = .ok (some a) ∧ ins = retarget a (decode w (BitVec.ofNat 32 k))

section
variable {os : List Object} {vm : VM} {k : Nat} {r : Ref}

/-- An executable has a definition for each reference. -/
theorem resolves_executable (hd : Distinct (os.flatMap Object.insyms))
    (hexe : (linked os).is_object = false) (hr : r ∈ refs 0 os) : ∃ d, Resolves os r d := by
  have hobject : (!os.any Object.hasMain || !(merged os).outsyms.isEmpty) = false := hexe
  rw [Bool.or_eq_false_iff, Bool.not_eq_false', Bool.not_eq_false', List.isEmpty_iff] at hobject
  have hnone : unresolved (defs 0 (os.map Object.extracted))
      (refs 0 (os.map Object.extracted)) = [] := List.map_eq_nil_iff.mp hobject.2
  unfold unresolved at hnone
  rw [List.filter_eq_nil_iff] at hnone
  have hdef := hnone r (refs_extracted.mem_iff.mpr hr)
  rw [definition_perm (distinct_extracted hd) defs_extracted, Option.isNone_iff_eq_none] at hdef
  obtain ⟨a, ha⟩ := Option.ne_none_iff_exists'.mp hdef
  exact ⟨⟨r.name, a⟩, hr, (definition_iff (distinct_defs.mpr hd)).mp ha, rfl⟩

/-- What is in memory at the place `k`. -/
theorem means_memory (hd : Distinct (os.flatMap Object.insyms)) (hwf : ∀ o ∈ os, o.WellFormed)
    (hexe : (linked os).is_object = false) (hfits : Fits os) (h : Usable os (linked os) vm)
    (hk : k < (codes os).length) :
    Means os vm k (decode (vm.memory (BitVec.ofNat 32 k)) (BitVec.ofNat 32 k)) := by
  refine ⟨fun hother => ?_, ?_⟩
  · have hw := List.getElem?_eq_getElem hk
    have hout := linked_other hd hwf fun r d hr => hother r hr.1
    exact ⟨_, hw, congrArg (decode · _) (h.memory k _ (hout.trans hw))⟩
  · rintro r hr rfl
    obtain ⟨d, hres⟩ := resolves_executable hd hexe hr
    obtain ⟨w, hw, hwidth, hout⟩ := linked_ref hd hwf hres
    refine ⟨w, d.address, hw, ?_, ?_⟩
    · rw [← hres.2.2]
      exact h.symbols d hres.2.1
    · rw [h.memory _ _ hout]
      exact decode_rewrite hwidth (hfits r d hres w hw)

end

/-- In every run of a linked program, an instruction that has not been overwritten is executed as
the object files have it, with the addresses of the symbols. -/
theorem executable_means {junk : Nat → Word} {files : List (List Word)} {os : List Object}
    {out : Output} (h : List.Forall₂ Holds files os) (hwf : ∀ o ∈ os, o.WellFormed)
    (hd : Distinct (os.flatMap Object.insyms)) (hlink : link junk files = .ok out)
    (hexe : out.is_object = false) (hmem : (codes os).length ≤ MEM_SIZE) (hfits : Fits os)
    (hshort : Short (os.flatMap Object.insyms))
    (hsize : 5 * (os.flatMap Object.insyms).length < 2 ^ 31) (buffer : Nat → Word) (vm : VM) :
    ∃ loaded, loadExecutableFile buffer vm (some out.file) = .ok loaded ∧ loaded.success = 1 ∧
      (⟨mainx20, loaded.vm.entryPoint⟩ : Entry) ∈ defs 0 os ∧
      ∀ fpu n initialSP s₀ is s i k, execute loaded.vm n initialSP = some s₀ →
        Vm.play fpu is s₀ = .ok s → s.Running i → s.pc i = BitVec.ofNat 32 k →
        k < (codes os).length → (∀ j, (j, .write (s.pc i)) ∉ accesses fpu is s₀) →
        ∃ ins, Means os loaded.vm k ins ∧
          step fpu i s = ins.step fpu (s.pc i) (s.machine i) >>= fun r => .ok (s.after i r.2) := by
  have hcode : codes os ≠ [] := by
    intro hcode
    rw [link_empty h hcode] at hlink
    cases hlink
  rw [link_holds h hwf hd hcode] at hlink
  obtain rfl : linked os = out := Except.ok.inj hlink
  obtain ⟨p, hperm, hpcode, hfile⟩ := linked_program hd hexe hmem
  have hnames : ((os.flatMap Object.insyms).map Entry.name).Perm (p.insyms.map Entry.name) := by
    rw [← names_defs]
    exact (hperm.map _).symm
  have hlen : (os.flatMap Object.insyms).length = p.insyms.length := by
    simpa using hnames.length_eq
  have husable : Usable os (linked os) (vm.withProgram p) :=
    usable_program (distinct_defs.mpr hd) hperm hpcode
  rw [hfile]
  refine ⟨_, load_program (in_file (hlen ▸ hsize)) ((short_perm hnames).mp hshort), rfl,
    husable.entryPoint, ?_⟩
  intro fpu n initialSP s₀ is s i k hexec hrun hi hpc hk hun
  have hword : s.vm.memory (s.pc i) = (vm.withProgram p).memory (s.pc i) := by
    rw [play_unwritten hun hrun]
    unfold execute at hexec
    split at hexec <;> cases hexec
    rfl
  refine ⟨_, means_memory hd hwf hexe hfits husable hk, ?_⟩
  have hins : s.instr i = some (decode ((vm.withProgram p).memory (BitVec.ofNat 32 k))
      (BitVec.ofNat 32 k)) := by
    unfold MEM_SIZE at hmem
    unfold Sys.instr VM.getWord
    rw [hword, hpc, if_neg (by rw [BitVec.toNat_ofNat]; unfold MEM_SIZE; omega)]
    rfl
  rw [step_running hi, execute_instr hins]

/-- A call of `f`. -/
def callsF : Object := ⟨[⟨mainx20, 0⟩], [⟨nameF, 0⟩], [0x0000000f, 0]⟩

/-- The call goes to `f`, in the other file. -/
theorem executable_means_call : ∃ loaded a s,
    loadExecutableFile (fun _ => 0) blank (some (linked [callsF, farF 0]).file) = .ok loaded ∧
    execute loaded.vm 1 (fun _ => 100) = some s ∧ getAddress loaded.vm nameF.bytes = .ok (some a) ∧
    step noFpu 0 s =
      (Instr.call a).step noFpu (s.pc 0) (s.machine 0) >>= fun r => .ok (s.after 0 r.2) := by
  have hholds : List.Forall₂ Holds [callsF.words, (farF 0).words] [callsF, farF 0] :=
    .cons (holds_words (by decide) (by decide)) (.cons (holds_words (by decide) (by decide)) .nil)
  have hwf : ∀ o ∈ [callsF, farF 0], o.WellFormed := by
    simp only [List.forall_mem_cons, List.not_mem_nil, false_imp_iff, implies_true, and_true]
    refine ⟨⟨?_, by decide⟩, ⟨nofun, List.nodup_nil⟩⟩
    intro e he
    obtain rfl : e = ⟨nameF, 0⟩ := by simpa [callsF] using he
    exact ⟨0xf, rfl, rfl⟩
  have hd : Distinct ([callsF, farF 0].flatMap Object.insyms) := by decide
  have hlink : link (fun _ => 0) [callsF.words, (farF 0).words] = .ok (linked [callsF, farF 0]) :=
    link_holds hholds hwf hd (by decide)
  have hfits : Fits [callsF, farF 0] := by
    rintro r d ⟨hr, hd, hname⟩ w hw
    obtain rfl : r = ⟨nameF, 0⟩ := by simpa [refs, callsF, farF, Entry.ref] using hr
    obtain rfl | rfl : d = ⟨mainx20, 0⟩ ∨ d = ⟨nameF, 2⟩ := by
      simpa [defs, callsF, farF, Entry.shift] using hd
    · exact absurd hname (by decide)
    · obtain rfl : w = 0xf := (Option.some.inj hw).symm
      constructor <;> decide
  obtain ⟨loaded, hload, -, hentry, hall⟩ := executable_means hholds hwf hd hlink
    (by decide) (by decide) hfits (by decide) (by decide) (fun _ => 0) blank
  have hpc : loaded.vm.entryPoint = 0 := by
    have hmem : (⟨mainx20, loaded.vm.entryPoint⟩ : Entry) ∈
        ([⟨mainx20, 0⟩, ⟨nameF, 2⟩] : List Entry) := hentry
    simpa [show mainx20 ≠ nameF by decide] using hmem
  obtain ⟨ins, hmeans, hstep⟩ := hall noFpu 1 (fun _ => 100) _ [] _ 0 0 execute_oneCore rfl
    ⟨Nat.zero_lt_one, rfl⟩ hpc (by decide) (fun _ => List.not_mem_nil)
  obtain ⟨w, a, hw, ha, rfl⟩ := hmeans.ref ⟨nameF, 0⟩ (by simp [refs, callsF, Entry.ref]) rfl
  obtain rfl : w = 0xf := (Option.some.inj hw).symm
  exact ⟨loaded, a, _, hload, execute_oneCore, ha, hstep⟩

end Cs720.Link
