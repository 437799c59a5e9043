import Cs720.Link.Relocate

/-! # Linking files

The order of the symbols in a file does not matter for the code.
-/

namespace Cs720.Link

open Cs720.Lib Cs720.Vm

section
variable {os : List Object} {ds ds' : List Entry} {name : Name} {a : Word} {offset : Nat}

theorem definition_iff (hd : Distinct ds) :
    definition ds name = some a ↔ (⟨name, a⟩ : Entry) ∈ ds := by
  induction ds with
  | nil => simp [definition]
  | cons d ds ih =>
    unfold Distinct at hd ih
    rw [List.map_cons, List.nodup_cons] at hd
    rw [definition_cons, List.mem_cons]
    split
    · rename_i hname
      constructor
      · intro h
        left
        ext1
        · exact hname.symm
        · exact (Option.some.inj h).symm
      · rintro (h | h)
        · rw [← h]
        · exact absurd (List.mem_map_of_mem h) (hname ▸ hd.1)
    · rename_i hname
      rw [ih hd.2]
      constructor
      · exact Or.inr
      · rintro (rfl | h)
        · exact absurd rfl hname
        · exact h

theorem definition_perm (hd : Distinct ds) (h : ds.Perm ds') :
    definition ds name = definition ds' name := by
  have hd' : Distinct ds' := (h.map Entry.name).nodup_iff.mp hd
  ext a
  rw [definition_iff hd, definition_iff hd', h.mem_iff]

theorem patchWord_perm {r : Ref} (hd : Distinct ds) (h : ds.Perm ds') :
    patchWord ds r = patchWord ds' r := by
  funext w
  unfold patchWord
  rw [definition_perm hd h]

theorem patchWord_none {r : Ref} (h : definition ds r.name = none) : patchWord ds r = id := by
  funext w
  unfold patchWord
  rw [h]
  rfl

theorem names_defs :
    (defs offset os).map Entry.name = (os.flatMap Object.insyms).map Entry.name := by
  induction os generalizing offset with
  | nil => rfl
  | cons o os ih =>
    rw [defs, List.map_append, ih, List.flatMap_cons, List.map_append, List.map_map]
    rfl

theorem distinct_defs : Distinct (defs offset os) ↔ Distinct (os.flatMap Object.insyms) := by
  unfold Distinct
  rw [names_defs]

/-! ## The order of the symbols -/

theorem codes_extracted : codes (os.map Object.extracted) = codes os := by
  unfold codes
  rw [List.flatMap_map]
  rfl

theorem defs_extracted : (defs offset (os.map Object.extracted)).Perm (defs offset os) := by
  induction os generalizing offset with
  | nil => exact .nil
  | cons o os ih => exact ((List.reverse_perm _).map _).append ih

theorem refs_extracted : (refs offset (os.map Object.extracted)).Perm (refs offset os) := by
  induction os generalizing offset with
  | nil => exact .nil
  | cons o os ih => exact ((List.reverse_perm _).map _).append ih

theorem wellFormed_extracted (hwf : ∀ o ∈ os, o.WellFormed) :
    ∀ o ∈ os.map Object.extracted, o.WellFormed := by
  intro o ho
  obtain ⟨p, hp, rfl⟩ := List.mem_map.mp ho
  refine ⟨?_, ?_⟩
  · intro e he
    exact (hwf p hp).address e (List.mem_reverse.mp he)
  · unfold Object.extracted
    rw [List.map_reverse, List.nodup_reverse]
    exact (hwf p hp).once

end

section
variable {junk : Nat → Word} {files : List (List Word)} {os : List Object}

/-- The objects as the linker joins them. -/
def merged (os : List Object) : Object := joined (os.map Object.extracted)

/-- What the linker writes for these files. -/
def linked (os : List Object) : Output :=
  let o := merged os
  o.output (!os.any Object.hasMain || !o.outsyms.isEmpty)

theorem distinct_extracted (hd : Distinct (os.flatMap Object.insyms)) :
    Distinct (defs 0 (os.map Object.extracted)) :=
  (defs_extracted.map Entry.name).nodup_iff.mpr (distinct_defs.mpr hd)

theorem inCode_extracted (hd : Distinct (os.flatMap Object.insyms)) {n : Nat} :
    InCode (defs 0 (os.map Object.extracted)) (refs 0 (os.map Object.extracted)) n ↔
      InCode (defs 0 os) (refs 0 os) n := by
  unfold InCode
  simp only [refs_extracted.mem_iff, definition_perm (distinct_extracted hd) defs_extracted]

theorem link_inCode (h : List.Forall₂ Holds files os) (hd : Distinct (os.flatMap Object.insyms))
    (hpos : InCode (defs 0 os) (refs 0 os) (codes os).length) (hcode : codes os ≠ []) :
    link junk files = .ok (linked os) := by
  obtain ⟨fh, hfh, hheaders⟩ := readHeaders_holds h
  unfold link
  rw [hfh, ok_bind]
  refine generate_headers hheaders (distinct_extracted hd) ?_ (by rwa [codes_extracted])
  rwa [codes_extracted, inCode_extracted hd]

theorem link_fault (h : List.Forall₂ Holds files os) (hd : Distinct (os.flatMap Object.insyms))
    (hpos : ¬ InCode (defs 0 os) (refs 0 os) (codes os).length) (hcode : codes os ≠ []) :
    link junk files = .error .fault := by
  obtain ⟨fh, hfh, hheaders⟩ := readHeaders_holds h
  unfold link
  rw [hfh, ok_bind]
  refine generate_fault hheaders (distinct_extracted hd) ?_ (by rwa [codes_extracted])
  rwa [codes_extracted, inCode_extracted hd]

theorem link_duplicate (h : List.Forall₂ Holds files os)
    (hd : ¬ Distinct (os.flatMap Object.insyms)) (hcode : codes os ≠ []) :
    link junk files = .error (.exit 1) := by
  obtain ⟨fh, hfh, hheaders⟩ := readHeaders_holds h
  unfold link
  rw [hfh, ok_bind]
  refine generate_duplicate hheaders ?_ (by rwa [codes_extracted])
  intro hdist
  exact hd (distinct_defs.mp ((defs_extracted.map Entry.name).nodup_iff.mp hdist))

theorem link_holds (h : List.Forall₂ Holds files os) (hwf : ∀ o ∈ os, o.WellFormed)
    (hd : Distinct (os.flatMap Object.insyms)) (hcode : codes os ≠ []) :
    link junk files = .ok (linked os) := by
  refine link_inCode h hd (fun r hr _ => ?_) hcode
  have hlt := refs_lt hwf hr
  rwa [Nat.zero_add] at hlt

theorem link_empty (h : List.Forall₂ Holds files os) (hcode : codes os = []) :
    link junk files = .error (.exit 50) := by
  obtain ⟨fh, hfh, hheaders⟩ := readHeaders_holds h
  unfold link
  rw [hfh, ok_bind]
  exact generate_empty hheaders (by rwa [codes_extracted])

theorem merged_insyms : (merged os).insyms.Perm (defs 0 os) := defs_extracted

theorem length_merged : (merged os).code.length = (codes os).length := by
  unfold merged joined
  dsimp only
  rw [length_patches, codes_extracted]

theorem merged_at (hd : Distinct (os.flatMap Object.insyms)) (hwf : ∀ o ∈ os, o.WellFormed)
    {r : Ref} (hr : r ∈ refs 0 os) :
    (merged os).code[r.pos]? = (codes os)[r.pos]?.map (patchWord (defs 0 os) r) := by
  unfold merged joined
  dsimp only
  rw [patches_ref (refs_nodup (wellFormed_extracted hwf)) (refs_extracted.mem_iff.mpr hr),
    codes_extracted, patchWord_perm (distinct_defs.mpr hd) defs_extracted.symm]

theorem merged_ne {k : Nat} (h : ∀ r ∈ refs 0 os, r.pos ≠ k) :
    (merged os).code[k]? = (codes os)[k]? := by
  unfold merged joined
  dsimp only
  rw [patches_ne fun r hr => h r (refs_extracted.mem_iff.mp hr), codes_extracted]

theorem any_hasMain (offset : Nat) (os : List Object) :
    os.any Object.hasMain = (defs offset os).any fun e => e.name = mainx20 := by
  induction os generalizing offset with
  | nil => rfl
  | cons o os ih =>
    rw [List.any_cons, defs, List.any_append, ← ih, List.any_map]
    rfl

/-! ## Relocation -/

/-- The reference `r` has the definition `d`. -/
def Resolves (os : List Object) (r : Ref) (d : Entry) : Prop :=
  r ∈ refs 0 os ∧ d ∈ defs 0 os ∧ d.name = r.name

/-- The words that are no resolved references are as in the files. Each resolved reference has its
opcode and registers, and the processor takes the address of the definition from it. -/
structure Correct (os : List Object) (out : Output) : Prop where
  other : ∀ k, (∀ r d, Resolves os r d → r.pos ≠ k) → out.code[k]? = (codes os)[k]?
  ref : ∀ r d, Resolves os r d → ∃ w w', (codes os)[r.pos]? = some w ∧
    out.code[r.pos]? = some w' ∧ SameFields w w' ∧
    address? (decode w' (BitVec.ofNat 32 r.pos)) = some d.address

/-- The displacement of each resolved reference fits. -/
def Fits (os : List Object) : Prop :=
  ∀ r d, Resolves os r d → ∀ w, (codes os)[r.pos]? = some w →
    FitsField w (d.address - (BitVec.ofNat 32 r.pos + 1))

/-- The output is correct, and the link reports an error if a displacement does not fit. -/
structure Relocated (os : List Object) (result : C Output) : Prop where
  output : ∀ out, result = .ok out → Correct os out
  reports : ¬ Fits os → ∃ status, result = .error (.exit status)

theorem linked_ref (hd : Distinct (os.flatMap Object.insyms)) (hwf : ∀ o ∈ os, o.WellFormed)
    {r : Ref} {d : Entry} (h : Resolves os r d) : ∃ w, (codes os)[r.pos]? = some w ∧
      (addressWidth w).isSome ∧
      (linked os).code[r.pos]? = some (rewrite w (d.address - (BitVec.ofNat 32 r.pos + 1))) := by
  obtain ⟨hr, hmem, hname⟩ := h
  obtain ⟨-, w, hw, hwidth⟩ := refs_bounds hwf hr
  rw [Nat.sub_zero] at hw
  have hdef : definition (defs 0 os) r.name = some d.address := by
    rw [definition_iff (distinct_defs.mpr hd), ← hname]
    exact hmem
  refine ⟨w, hw, hwidth, (merged_at hd hwf hr).trans ?_⟩
  unfold patchWord
  rw [hw, Option.map_some, hdef]

theorem linked_other (hd : Distinct (os.flatMap Object.insyms)) (hwf : ∀ o ∈ os, o.WellFormed)
    {k : Nat} (hk : ∀ r d, Resolves os r d → r.pos ≠ k) :
    (linked os).code[k]? = (codes os)[k]? := by
  by_cases hex : ∃ r ∈ refs 0 os, r.pos = k
  · obtain ⟨r, hr, rfl⟩ := hex
    have hdef : definition (defs 0 os) r.name = none := by
      rw [Option.eq_none_iff_forall_ne_some]
      intro a ha
      rw [definition_iff (distinct_defs.mpr hd)] at ha
      exact hk r _ ⟨hr, ha, rfl⟩ rfl
    refine (merged_at hd hwf hr).trans ?_
    rw [patchWord_none hdef, Option.map_id]
    rfl
  · exact merged_ne fun r hr hpos => hex ⟨r, hr, hpos⟩

variable (junk) in
/-- Linking relocates the code correctly if and only if each displacement fits. -/
theorem relocation (h : List.Forall₂ Holds files os) (hwf : ∀ o ∈ os, o.WellFormed)
    (hd : Distinct (os.flatMap Object.insyms)) :
    (codes os ≠ [] → ∃ out, link junk files = .ok out) ∧
      (Relocated os (link junk files) ↔ Fits os) := by
  by_cases hcode : codes os = []
  · have hfits : Fits os := by
      intro r d _ w hw
      rw [hcode] at hw
      cases hw
    rw [link_empty h hcode]
    exact ⟨absurd hcode, fun _ => hfits, fun _ => ⟨nofun, absurd hfits⟩⟩
  rw [link_holds h hwf hd hcode]
  refine ⟨fun _ => ⟨_, rfl⟩, ?_, ?_⟩
  · intro hrel
    by_contra hfits
    obtain ⟨status, herror⟩ := hrel.reports hfits
    cases herror
  · intro hfits
    refine ⟨?_, absurd hfits⟩
    rintro out ⟨⟩
    refine ⟨fun k => linked_other hd hwf, ?_⟩
    intro r d hr
    obtain ⟨w, hw, hwidth, hout⟩ := linked_ref hd hwf hr
    exact ⟨w, _, hw, hout, rewrite_fields hwidth, (rewrite_address hwidth).mpr (hfits r d hr w hw)⟩

end

/-- A branch to `f`. -/
def branchF : Object := ⟨[], [⟨nameF, 0⟩], [0x00000013]⟩

/-- `f`, with `n` words before it. -/
def farF (n : Nat) : Object := ⟨[⟨nameF, BitVec.ofNat 32 n⟩], [], List.replicate (n + 1) 0⟩

theorem holds_branchF {n : Nat} (h : n < 2 ^ 31) :
    List.Forall₂ Holds [branchF.words, (farF n).words] [branchF, farF n] := by
  refine .cons (holds_words (by decide) (by decide))
    (.cons (holds_words (show 5 * (1 + 0) < 2 ^ 31 by decide) ?_) .nil)
  unfold farF
  rw [List.length_replicate]
  omega

theorem wellFormed_branchF (n : Nat) : ∀ o ∈ [branchF, farF n], o.WellFormed := by
  simp only [List.forall_mem_cons, List.not_mem_nil, false_imp_iff, implies_true, and_true]
  refine ⟨⟨?_, by decide⟩, ⟨nofun, List.nodup_nil⟩⟩
  intro e he
  obtain rfl : e = ⟨nameF, 0⟩ := by simpa [branchF] using he
  exact ⟨0x13, rfl, rfl⟩

theorem resolves_branchF (n : Nat) :
    Resolves [branchF, farF n] ⟨nameF, 0⟩ ((⟨nameF, BitVec.ofNat 32 n⟩ : Entry).shift 1) :=
  ⟨by simp [refs, branchF, Entry.ref], by simp [defs, branchF, farF], rfl⟩

theorem distinct_branchF (n : Nat) : Distinct ([branchF, farF n].flatMap Object.insyms) := by
  simp [Distinct, branchF, farF]

theorem relocation_near : ∃ out, link (fun _ => 0) [branchF.words, (farF 0).words] = .ok out ∧
    Correct [branchF, farF 0] out := by
  obtain ⟨hok, hiff⟩ := relocation (fun _ => 0) (holds_branchF (n := 0) (by decide))
    (wellFormed_branchF 0) (distinct_branchF 0)
  obtain ⟨out, hout⟩ := hok (by decide)
  refine ⟨out, hout, (hiff.mpr ?_).output out hout⟩
  rintro r d ⟨hr, hd, -⟩ w hw
  obtain rfl : r = ⟨nameF, 0⟩ := by simpa [refs, branchF, farF, Entry.ref] using hr
  obtain rfl : d = ⟨nameF, 1⟩ := by simpa [defs, branchF, farF, Entry.shift] using hd
  obtain rfl : w = 0x13 := (Option.some.inj hw).symm
  constructor <;> decide

/-- The displacement 32768 becomes -32768. -/
theorem relocation_far : ∃ out, link (fun _ => 0) [branchF.words, (farF 32768).words] = .ok out ∧
    out.code[0]? = some 0x80000013 ∧ address? (decode 0x80000013 0) = some (-32767) ∧
    ⟨nameF, 32769⟩ ∈ defs 0 [branchF, farF 32768] ∧
    ¬ Relocated [branchF, farF 32768] (link (fun _ => 0) [branchF.words, (farF 32768).words]) := by
  have hlink : link (fun _ => 0) [branchF.words, (farF 32768).words] =
      .ok (linked [branchF, farF 32768]) :=
    link_holds (holds_branchF (by decide)) (wellFormed_branchF _) (distinct_branchF _)
      (by simp [codes, branchF])
  have hres := resolves_branchF 32768
  obtain ⟨w, hw, hwidth, hcode⟩ := linked_ref (distinct_branchF _) (wellFormed_branchF _) hres
  obtain rfl : w = 0x13 := (Option.some.inj hw).symm
  refine ⟨_, hlink, hcode, by decide, hres.2.1, ?_⟩
  intro hrel
  obtain ⟨-, w', -, hw', -, haddr⟩ := (hrel.output _ hlink).ref _ _ hres
  obtain rfl : w' = 0x80000013 := Option.some.inj (hw'.symm.trans hcode)
  exact absurd haddr (by decide)

end Cs720.Link
