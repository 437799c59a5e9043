import Cs720.Alloc.Blocks

/-! # The first block

`memInitialize` asks for a fifth more than the size given, and makes one free block of it.
-/

namespace Cs720.Alloc

open Cs720.Lib

/-- The header of the first block, in a heap of `total_heap_size` words at `p`. -/
def firstHeader (m : Mem) (p total_heap_size : Word) : Mem :=
  ((m.set p (infoMake 0#32 0#32 (total_heap_size - BLOCK_SIZE))).set (p + 8) 0).set (p + 16) 0

section
variable {size p rsp rbp : Word} {s s₀ : State}

/-- What a `memInitialize` that returns 1 has done. -/
theorem memInitialize_ok (h : memInitialize size p rsp rbp s = (s₀, 1)) :
    size ≠ 0 ∧ size ≤ SIZE_MASK ∧ p ≠ 0 ∧
      s₀ = { s with
        initialized := 1
        total_heap_size := size * 6 / 5
        heap := p
        stack_top := rsp
        frame_bottom := rbp
        mem := firstHeader s.mem p (size * 6 / 5) } := by
  have hfail : ∀ {t u : State}, (t, (0 : Int)) ≠ (u, 1) := by simp
  unfold memInitialize at h
  split at h
  · exact absurd h hfail
  split at h
  · exact absurd h hfail
  rename_i hpos
  split at h
  · exact absurd h hfail
  rename_i hmask
  simp only at h
  split at h
  · exact absurd h hfail
  rename_i hnull
  refine ⟨?_, BitVec.not_lt.mp hmask, hnull, (Prod.mk.inj h).1.symm⟩
  rintro rfl
  exact hpos (BitVec.le_refl _)

theorem firstHeader_words (m : Mem) (p total : Word) :
    firstHeader m p total p = infoMake 0#32 0#32 (total - BLOCK_SIZE) ∧
      firstHeader m p total (p + 8) = 0 ∧ firstHeader m p total (p + 16) = 0 := by
  have h8 : p ≠ p + 8 := by bv_omega
  have h16 : p ≠ p + 16 := by bv_omega
  have h24 : p + 8 ≠ p + 16 := by bv_omega
  unfold firstHeader
  refine ⟨?_, ?_, set_self _ _ _⟩
  · rw [set_ne _ _ h16, set_ne _ _ h8, set_self]
  · rw [set_ne _ _ h24, set_self]

/-- The words asked for, exact if and only if the product does not wrap. -/
theorem total_exact (size : Word) :
    (size * 6 / 5).toNat = 6 * size.toNat / 5 ↔ 6 * size.toNat < 2 ^ 64 := by
  have h6 : (6 : Word).toNat = 6 := rfl
  have h5 : (5 : Word).toNat = 5 := rfl
  rw [BitVec.toNat_udiv, BitVec.toNat_mul, h6, h5]
  have := Nat.div_add_mod (size.toNat * 6) (2 ^ 64)
  omega

/-- The first block records at least `size` words, and its end is the end of the heap, exactly when
the product does not wrap and the extra fifth covers the header. -/
theorem memInitialize_fits_iff (h : memInitialize size p rsp rbp s = (s₀, 1)) :
    (s₀.total_heap_size.toNat = 6 * size.toNat / 5 ∧
      BLOCK_SIZE.toNat + (s₀.mem s₀.heap &&& SIZE_MASK).toNat = s₀.total_heap_size.toNat ∧
      size.toNat ≤ (s₀.mem s₀.heap &&& SIZE_MASK).toNat) ↔
      15 ≤ size.toNat ∧ 6 * size.toNat < 2 ^ 64 := by
  obtain ⟨-, hmask, -, rfl⟩ := memInitialize_ok h
  have h3 : BLOCK_SIZE.toNat = 3 := by decide
  simp only [(firstHeader_words _ _ _).1, size_infoMake_free, total_exact, h3]
  constructor
  · rintro ⟨hwrap, htotal, hsize⟩
    have hexact := (total_exact size).mpr hwrap
    omega
  · rintro ⟨hsize, hwrap⟩
    have hexact := (total_exact size).mpr hwrap
    have hsub : (size * 6 / 5 - BLOCK_SIZE).toNat = 6 * size.toNat / 5 - 3 := by
      rw [BitVec.toNat_sub_of_le (by rw [BitVec.le_def]; omega), hexact, h3]
    have hpayload : ((size * 6 / 5 - BLOCK_SIZE) &&& SIZE_MASK).toNat = 6 * size.toNat / 5 - 3 := by
      rw [size_toNat, hsub]
      omega
    omega

/-- The size of the tests. -/
theorem memInitialize_fits_twoHundred : ∃ s,
    memInitialize 200 0x1000 0 0 { mem := fun _ => 0 } = (s, 1) ∧
    s.total_heap_size.toNat = 240 ∧ (s.mem s.heap &&& SIZE_MASK).toNat = 237 := by
  have hinit : memInitialize 200 0x1000 0 0 { mem := fun _ => 0 } =
      ((memInitialize 200 0x1000 0 0 { mem := fun _ => 0 }).1, 1) := rfl
  obtain ⟨htotal, hblock, -⟩ := (memInitialize_fits_iff hinit).mpr (by decide)
  refine ⟨_, hinit, htotal, ?_⟩
  have h3 : BLOCK_SIZE.toNat = 3 := by decide
  have h200 : (200 : Word).toNat = 200 := rfl
  omega

end

/-- For 1 the payload is counted from below zero. For 10 it is short. For a size near the limit the
product wraps, and the heap has one word. -/
theorem memInitialize_short :
    (∃ s, memInitialize 1 0x1000 0 0 { mem := fun _ => 0 } = (s, 1) ∧ s.total_heap_size = 1 ∧
      s.mem s.heap &&& SIZE_MASK = 0x3ffffffffffffffe) ∧
    (∃ s, memInitialize 10 0x1000 0 0 { mem := fun _ => 0 } = (s, 1) ∧ s.total_heap_size = 12 ∧
      s.mem s.heap &&& SIZE_MASK = 9) ∧
    ∃ s, memInitialize 3074457345618258604 0x1000 0 0 { mem := fun _ => 0 } = (s, 1) ∧
      s.total_heap_size = 1 :=
  ⟨⟨_, rfl, rfl, rfl⟩, ⟨_, rfl, rfl, rfl⟩, ⟨_, rfl, rfl⟩⟩

end Cs720.Alloc
