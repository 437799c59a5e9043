import Cs720.Link.Generate
import Cs720.Vm.Decode

/-! # Rewritten instructions

The linker writes as many bits of a displacement as the field has, and the processor extends the
sign.
-/

namespace Cs720.Link

open Cs720.Lib Cs720.Vm

/-- The address of an instruction that has one. -/
def address? : Instr → Option Word
  | .load _ a | .store _ a | .ldaddr _ a | .call a | .jmp a | .blt _ _ a | .bgt _ _ a | .beq _ _ a
  | .cmpxchg _ _ a => some a
  | _ => none

/-- The signed displacement fits the field of the instruction. -/
def FitsField (instr d : Word) : Prop :=
  match addressWidth instr with
  | some 20 => -2 ^ 19 ≤ d.toInt ∧ d.toInt < 2 ^ 19
  | _ => -2 ^ 15 ≤ d.toInt ∧ d.toInt < 2 ^ 15

/-- The opcode and the registers. -/
def SameFields (w w' : Word) : Prop :=
  w'.extractLsb' 0 12 = w.extractLsb' 0 12 ∧
    (addressWidth w = some 16 → w'.extractLsb' 12 4 = w.extractLsb' 12 4)

/-! ## Bits -/

section
variable {w d a pc : Word}

theorem opcode_toNat : (w &&& 0xff).toNat = (w.setWidth 8).toNat := by
  have h : w &&& 0xff = (w.setWidth 8).setWidth 32 := by
    ext i hi
    interval_cases i <;> simp
  rw [h]
  simp
  omega

theorem field20 :
    (((d <<< 12) &&& 0xfffff000) ||| (w &&& 0xfff)).extractLsb' 12 20 = d.extractLsb' 0 20 := by
  ext i hi
  interval_cases i <;> simp

theorem low20 :
    (((d <<< 12) &&& 0xfffff000) ||| (w &&& 0xfff)).extractLsb' 0 12 = w.extractLsb' 0 12 := by
  ext i hi
  interval_cases i <;> simp

theorem field16 :
    (((d <<< 16) &&& 0xffff0000) ||| (w &&& 0xffff)).extractLsb' 16 16 = d.extractLsb' 0 16 := by
  ext i hi
  interval_cases i <;> simp

theorem low16 :
    (((d <<< 16) &&& 0xffff0000) ||| (w &&& 0xffff)).extractLsb' 0 12 = w.extractLsb' 0 12 := by
  ext i hi
  interval_cases i <;> simp

theorem reg16 :
    (((d <<< 16) &&& 0xffff0000) ||| (w &&& 0xffff)).extractLsb' 12 4 = w.extractLsb' 12 4 := by
  ext i hi
  interval_cases i <;> simp

/-- A field of `n + 1` bits holds these numbers. -/
theorem fits_iff {n : Nat} (hn : n + 1 ≤ 32) :
    (d.extractLsb' 0 (n + 1)).signExtend 32 = d ↔ -2 ^ n ≤ d.toInt ∧ d.toInt < 2 ^ n := by
  have hfield : ((d.extractLsb' 0 (n + 1)).signExtend 32).toInt = d.toInt.bmod (2 ^ (n + 1)) := by
    rw [BitVec.toInt_signExtend_of_le hn, ← BitVec.setWidth_eq_extractLsb' hn,
      BitVec.toInt_setWidth, BitVec.toInt_eq_toNat_bmod,
      Int.bmod_bmod_of_dvd (pow_dvd_pow 2 hn)]
  have hhalf : ((2 ^ (n + 1) : Nat) : Int) = 2 * 2 ^ n := by
    rw [Nat.cast_pow, pow_succ, mul_comm]
    rfl
  rw [← BitVec.toInt_inj, hfield]
  constructor
  · intro h
    have h1 := Int.le_bmod (x := d.toInt) (m := 2 ^ (n + 1)) (Nat.two_pow_pos _)
    have h2 := Int.bmod_lt (x := d.toInt) (m := 2 ^ (n + 1)) (Nat.two_pow_pos _)
    rw [h, hhalf] at h1 h2
    omega
  · rintro ⟨h1, h2⟩
    apply Int.bmod_eq_of_le
    · rw [hhalf]
      omega
    · rw [hhalf]
      omega

/-- The width depends on the opcode only. -/
theorem addressWidth_low {w' : Word} (h : w'.extractLsb' 0 12 = w.extractLsb' 0 12) :
    addressWidth w' = addressWidth w := by
  have hop (x : Word) : x.setWidth 8 = (x.extractLsb' 0 12).setWidth 8 := by
    ext i hi
    interval_cases i <;> simp
  unfold addressWidth
  rw [opcode_toNat, opcode_toNat, hop w', hop w, h]

/-! ## One instruction -/

theorem address_decode20 (h : addressWidth w = some 20) :
    address? (decode w pc) = some (pc + 1 + disp20 w) := by
  unfold addressWidth at h
  unfold decode ins
  rw [← opcode_toNat]
  split at h <;> cases h <;> rename_i hop <;> rw [hop] <;> rfl

theorem address_decode16 (h : addressWidth w = some 16) :
    address? (decode w pc) = some (pc + 1 + disp16 w) := by
  unfold addressWidth at h
  unfold decode ins
  rw [← opcode_toNat]
  split at h <;> cases h <;> rename_i hop <;> rw [hop] <;> rfl

theorem rewrite20 (h : addressWidth w = some 20) :
    rewrite w d = ((d <<< 12) &&& 0xfffff000) ||| (w &&& 0xfff) := by
  unfold addressWidth at h
  unfold rewrite
  split at h <;> cases h <;> rename_i hop <;> simp only [hop]

theorem rewrite16 (h : addressWidth w = some 16) :
    rewrite w d = ((d <<< 16) &&& 0xffff0000) ||| (w &&& 0xffff) := by
  unfold addressWidth at h
  unfold rewrite
  split at h <;> cases h <;> rename_i hop <;> simp only [hop]

theorem width_cases (h : (addressWidth w).isSome) :
    addressWidth w = some 20 ∨ addressWidth w = some 16 := by
  unfold addressWidth at h ⊢
  split <;> simp_all

theorem rewrite_fields (h : (addressWidth w).isSome) : SameFields w (rewrite w d) := by
  rcases width_cases h with h | h
  · rw [rewrite20 h]
    exact ⟨low20, fun h' => by rw [h] at h'; cases h'⟩
  · rw [rewrite16 h]
    exact ⟨low16, fun _ => reg16⟩

/-- A rewritten instruction has the address if and only if the displacement fits. -/
theorem rewrite_address (h : (addressWidth w).isSome) :
    address? (decode (rewrite w (a - (pc + 1))) pc) = some a ↔ FitsField w (a - (pc + 1)) := by
  have hwidth := addressWidth_low (rewrite_fields (d := a - (pc + 1)) h).1
  have hiff (x : Word) : pc + 1 + x = a ↔ x = a - (pc + 1) := by
    rw [BitVec.eq_sub_iff_add_eq, BitVec.add_comm]
  unfold FitsField
  rcases width_cases h with h | h
  · rw [h] at hwidth ⊢
    rw [address_decode20 hwidth, rewrite20 h, Option.some.injEq, hiff]
    unfold disp20
    rw [field20]
    exact fits_iff (n := 19) (by omega)
  · rw [h] at hwidth ⊢
    rw [address_decode16 hwidth, rewrite16 h, Option.some.injEq, hiff]
    unfold disp16
    rw [field16]
    exact fits_iff (n := 15) (by omega)

end

/-! ## The joined code -/

section
variable {ds : List Entry} {rs : List Ref} {code : List Word} {r : Ref} {k : Nat}

/-- The word of a reference in the output, if it is `w` in the file. -/
def patchWord (ds : List Entry) (r : Ref) (w : Word) : Word :=
  match definition ds r.name with
  | some a => rewrite w (a - (BitVec.ofNat 32 r.pos + 1))
  | none => w

theorem patch_self : (patch ds code r)[r.pos]? = code[r.pos]?.map (patchWord ds r) := by
  unfold patch patchWord
  cases hdef : definition ds r.name with
  | none => simp
  | some a =>
    rw [List.getElem?_set_self', List.getD_eq_getElem?_getD]
    cases code[r.pos]? <;> rfl

theorem patch_ne (h : r.pos ≠ k) : (patch ds code r)[k]? = code[k]? := by
  unfold patch
  split
  · exact List.getElem?_set_ne h
  · rfl

theorem patches_ne (h : ∀ r ∈ rs, r.pos ≠ k) : (rs.foldl (patch ds) code)[k]? = code[k]? := by
  induction rs generalizing code with
  | nil => rfl
  | cons r rs ih =>
    obtain ⟨hr, hrs⟩ := List.forall_mem_cons.mp h
    rw [List.foldl_cons, ih hrs, patch_ne hr]

theorem patches_ref (hn : (rs.map Ref.pos).Nodup) (hr : r ∈ rs) :
    (rs.foldl (patch ds) code)[r.pos]? = code[r.pos]?.map (patchWord ds r) := by
  induction rs generalizing code with
  | nil => cases hr
  | cons q rs ih =>
    rw [List.map_cons, List.nodup_cons] at hn
    rw [List.foldl_cons]
    rcases List.mem_cons.mp hr with rfl | hmem
    · rw [patches_ne, patch_self]
      intro q hq hpos
      exact hn.1 (hpos ▸ List.mem_map_of_mem hq)
    · rw [ih hn.2 hmem, patch_ne]
      intro hpos
      exact hn.1 (hpos ▸ List.mem_map_of_mem hmem)

end

/-! ## References -/

section
variable {os : List Object} {offset : Nat} {r : Ref}

theorem codes_cons (o : Object) : codes (o :: os) = o.code ++ codes os := List.flatMap_cons

/-- A reference is in the code of its object. -/
theorem refs_bounds (hwf : ∀ o ∈ os, o.WellFormed) (hr : r ∈ refs offset os) :
    offset ≤ r.pos ∧ ∃ w, (codes os)[r.pos - offset]? = some w ∧ (addressWidth w).isSome := by
  induction os generalizing offset with
  | nil => cases hr
  | cons o os ih =>
    obtain ⟨ho, hos⟩ := List.forall_mem_cons.mp hwf
    rw [codes_cons]
    rcases List.mem_append.mp hr with hr | hr
    · obtain ⟨e, he, rfl⟩ := List.mem_map.mp hr
      obtain ⟨w, hw, hwidth⟩ := ho.address e he
      obtain ⟨hlt, -⟩ := List.getElem?_eq_some_iff.mp hw
      have hpos : (e.ref offset).pos = offset + e.address.toNat := rfl
      refine ⟨by omega, w, ?_, hwidth⟩
      rw [hpos, Nat.add_sub_cancel_left, List.getElem?_append_left hlt, hw]
    · obtain ⟨hle, w, hw, hwidth⟩ := ih hos hr
      refine ⟨by omega, w, ?_, hwidth⟩
      rw [List.getElem?_append_right (by omega), ← hw]
      congr 1
      omega

theorem refs_lt (hwf : ∀ o ∈ os, o.WellFormed) (hr : r ∈ refs offset os) :
    r.pos < offset + (codes os).length := by
  obtain ⟨hle, w, hw, -⟩ := refs_bounds hwf hr
  obtain ⟨hlt, -⟩ := List.getElem?_eq_some_iff.mp hw
  omega

/-- No two references are at the same instruction. -/
theorem refs_nodup (hwf : ∀ o ∈ os, o.WellFormed) : ((refs offset os).map Ref.pos).Nodup := by
  induction os generalizing offset with
  | nil => exact List.nodup_nil
  | cons o os ih =>
    obtain ⟨ho, hos⟩ := List.forall_mem_cons.mp hwf
    rw [refs, List.map_append, List.nodup_append]
    refine ⟨?_, ih hos, ?_⟩
    · have hmap : (o.outsyms.map (Entry.ref offset)).map Ref.pos =
          (o.outsyms.map Entry.address).map fun a => offset + a.toNat := by
        simp [Entry.ref, Function.comp_def]
      rw [hmap]
      refine ho.once.map ?_
      intro a b hab
      exact BitVec.eq_of_toNat_eq (Nat.add_left_cancel hab)
    · intro p hp q hq
      obtain ⟨r, hr, rfl⟩ := List.mem_map.mp hp
      obtain ⟨r', hr', rfl⟩ := List.mem_map.mp hq
      obtain ⟨e, he, rfl⟩ := List.mem_map.mp hr
      obtain ⟨w, hw, -⟩ := ho.address e he
      obtain ⟨hlt, -⟩ := List.getElem?_eq_some_iff.mp hw
      have hpos : (e.ref offset).pos = offset + e.address.toNat := rfl
      have hle := (refs_bounds hos hr').1
      omega

end

end Cs720.Link
