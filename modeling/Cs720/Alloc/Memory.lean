import Mathlib.Tactic.Common
import Mathlib.Data.BitVec

/-! # Words of memory, and the info word of a block header

Memory is a map from the multiples of 8 to 64-bit words. Only a load can be unaligned: it takes its
bytes from two words, little end first.
-/

namespace Cs720.Alloc

abbrev Word := BitVec 64

/-- The word at each multiple of 8. -/
abbrev Mem := Word → Word

def Mem.set (m : Mem) (a v : Word) : Mem := fun b => if b = a then v else m b

@[simp] theorem set_self (m : Mem) (a v : Word) : m.set a v a = v := by simp [Mem.set]

theorem set_ne (m : Mem) {a b : Word} (v : Word) (h : b ≠ a) : m.set a v b = m b := by
  simp [Mem.set, h]

/-- `*(long *)a`, for any address. -/
def readLong (m : Mem) (a : Word) : Word :=
  let k := a.toNat % 8
  let b := a - BitVec.ofNat 64 k
  m b >>> (8 * k) ||| m (b + 8) <<< (64 - 8 * k)

theorem readLong_aligned (m : Mem) {a : Word} (h : a.toNat % 8 = 0) : readLong m a = m a := by
  simp [readLong, h]

/-! ## The info word -/

def ALLOC_BIT : Word := 0x8000000000000000
def MARK_BIT : Word := 0x4000000000000000
def SIZE_MASK : Word := 0x3FFFFFFFFFFFFFFF

/-- The header of a block, in words. -/
def BLOCK_SIZE : Word := 3

def infoMake (alloc mark : BitVec 32) (size : Word) : Word :=
  alloc.signExtend 64 <<< 63 ||| (mark &&& 1).signExtend 64 <<< 62 ||| (size &&& SIZE_MASK)

/-- `info & ALLOC_BIT`, as a condition. -/
def isAlloc (info : Word) : Bool := info &&& ALLOC_BIT != 0

/-- `info & MARK_BIT`, as a condition. -/
def isMarked (info : Word) : Bool := info &&& MARK_BIT != 0

theorem size_toNat (i : Word) : (i &&& SIZE_MASK).toNat = i.toNat % 2 ^ 62 := by
  rw [BitVec.toNat_and]
  exact Nat.and_two_pow_sub_one_eq_mod _ 62

theorem or_and_of_disjoint {c d : Word} (h : c &&& d = 0) (x : Word) :
    (x ||| c) &&& d = x &&& d := by
  rw [BitVec.and_or_distrib_right, h]
  exact BitVec.or_zero

theorem and_not_and_of_disjoint {c d : Word} (h : ~~~c &&& d = d) (x : Word) :
    x &&& ~~~c &&& d = x &&& d := by
  rw [BitVec.and_assoc, h]

@[simp] theorem size_mark (i : Word) : (i ||| MARK_BIT) &&& SIZE_MASK = i &&& SIZE_MASK :=
  or_and_of_disjoint (by decide) i

@[simp] theorem isAlloc_mark (i : Word) : isAlloc (i ||| MARK_BIT) = isAlloc i := by
  rw [isAlloc, or_and_of_disjoint (by decide), isAlloc]

@[simp] theorem isMarked_mark (i : Word) : isMarked (i ||| MARK_BIT) = true := by
  have h : (i ||| MARK_BIT) &&& MARK_BIT = MARK_BIT := by
    rw [BitVec.and_comm]
    ext k hk
    simp
    tauto
  rw [isMarked, h]
  decide

theorem mark_of_isMarked {i : Word} (h : isMarked i = true) : i ||| MARK_BIT = i := by
  rw [isMarked, show MARK_BIT = BitVec.twoPow 64 62 by decide, BitVec.and_twoPow] at h
  rw [show MARK_BIT = BitVec.twoPow 64 62 by decide]
  split at h
  · rename_i hbit
    ext k hk
    by_cases h62 : k = 62
    · subst h62
      have hget : i[62] = true := hbit
      simp [hget]
    · simp [BitVec.getElem_twoPow, h62]
  · simp at h

@[simp] theorem size_unmark (i : Word) : i &&& ~~~MARK_BIT &&& SIZE_MASK = i &&& SIZE_MASK :=
  and_not_and_of_disjoint (by decide) i

@[simp] theorem isAlloc_unmark (i : Word) : isAlloc (i &&& ~~~MARK_BIT) = isAlloc i := by
  rw [isAlloc, and_not_and_of_disjoint (by decide), isAlloc]

@[simp] theorem isMarked_unmark (i : Word) : isMarked (i &&& ~~~MARK_BIT) = false := by
  rw [isMarked, BitVec.and_assoc, show ~~~MARK_BIT &&& MARK_BIT = 0 by decide]
  simp

@[simp] theorem size_release (i : Word) : i &&& ~~~ALLOC_BIT &&& SIZE_MASK = i &&& SIZE_MASK :=
  and_not_and_of_disjoint (by decide) i

@[simp] theorem isMarked_release (i : Word) : isMarked (i &&& ~~~ALLOC_BIT) = isMarked i := by
  rw [isMarked, and_not_and_of_disjoint (by decide), isMarked]

@[simp] theorem isAlloc_release (i : Word) : isAlloc (i &&& ~~~ALLOC_BIT) = false := by
  rw [isAlloc, BitVec.and_assoc, show ~~~ALLOC_BIT &&& ALLOC_BIT = 0 by decide]
  simp

/-- An unmarked word gets its value back when it is marked and unmarked. -/
theorem unmark_mark {i : Word} (h : isMarked i = false) : (i ||| MARK_BIT) &&& ~~~MARK_BIT = i := by
  have h0 : i &&& MARK_BIT = 0 := by simpa [isMarked] using h
  have h1 : i &&& ~~~MARK_BIT = i := by
    calc i &&& ~~~MARK_BIT = (i &&& ~~~MARK_BIT) ||| (i &&& MARK_BIT) := by rw [h0]; simp
      _ = i &&& (~~~MARK_BIT ||| MARK_BIT) := by rw [BitVec.and_or_distrib_left]
      _ = i := by
        rw [show ~~~MARK_BIT ||| MARK_BIT = BitVec.allOnes 64 by decide, BitVec.and_allOnes]
  rw [BitVec.and_or_distrib_right, h1, show MARK_BIT &&& ~~~MARK_BIT = 0 by decide]
  simp

/-! ### `infoMake` and the merged size -/

theorem infoMake_alloc (size : Word) :
    infoMake 1#32 0#32 size = ALLOC_BIT ||| (size &&& SIZE_MASK) := by
  rw [infoMake, show (1#32).signExtend 64 <<< 63 = ALLOC_BIT by decide,
    show (0#32 &&& 1).signExtend 64 <<< 62 = 0 by decide]
  simp

theorem infoMake_free (size : Word) : infoMake 0#32 0#32 size = size &&& SIZE_MASK := by
  rw [infoMake, show (0#32).signExtend 64 <<< 63 = 0 by decide,
    show (0#32 &&& 1).signExtend 64 <<< 62 = 0 by decide]
  simp

@[simp] theorem size_size (i : Word) : i &&& SIZE_MASK &&& SIZE_MASK = i &&& SIZE_MASK := by
  rw [BitVec.and_assoc, BitVec.and_self]

@[simp] theorem size_and_alloc (i : Word) : i &&& SIZE_MASK &&& ALLOC_BIT = 0 := by
  rw [BitVec.and_assoc, show SIZE_MASK &&& ALLOC_BIT = 0 by decide]
  simp

@[simp] theorem size_and_mark (i : Word) : i &&& SIZE_MASK &&& MARK_BIT = 0 := by
  rw [BitVec.and_assoc, show SIZE_MASK &&& MARK_BIT = 0 by decide]
  simp

@[simp] theorem size_infoMake_alloc (size : Word) :
    infoMake 1#32 0#32 size &&& SIZE_MASK = size &&& SIZE_MASK := by
  rw [infoMake_alloc, BitVec.and_or_distrib_right, size_size,
    show ALLOC_BIT &&& SIZE_MASK = 0 by decide]
  simp

@[simp] theorem size_infoMake_free (size : Word) :
    infoMake 0#32 0#32 size &&& SIZE_MASK = size &&& SIZE_MASK := by
  rw [infoMake_free, size_size]

@[simp] theorem isAlloc_infoMake_alloc (size : Word) :
    isAlloc (infoMake 1#32 0#32 size) = true := by
  rw [infoMake_alloc, isAlloc, BitVec.and_or_distrib_right, size_and_alloc]
  decide

@[simp] theorem isAlloc_infoMake_free (size : Word) :
    isAlloc (infoMake 0#32 0#32 size) = false := by
  rw [infoMake_free, isAlloc, size_and_alloc]
  rfl

@[simp] theorem isMarked_infoMake_alloc (size : Word) :
    isMarked (infoMake 1#32 0#32 size) = false := by
  rw [infoMake_alloc, isMarked, BitVec.and_or_distrib_right, size_and_mark]
  decide

@[simp] theorem isMarked_infoMake_free (size : Word) :
    isMarked (infoMake 0#32 0#32 size) = false := by
  rw [infoMake_free, isMarked, size_and_mark]
  rfl

/-- The info word after a merge: the bits of `i`, and the size `n`. -/
def withSize (i n : Word) : Word := i &&& ~~~SIZE_MASK ||| (n &&& SIZE_MASK)

@[simp] theorem size_withSize (i n : Word) : withSize i n &&& SIZE_MASK = n &&& SIZE_MASK := by
  rw [withSize, BitVec.and_or_distrib_right, size_size, BitVec.and_assoc,
    show ~~~SIZE_MASK &&& SIZE_MASK = 0 by decide]
  simp

@[simp] theorem isAlloc_withSize (i n : Word) : isAlloc (withSize i n) = isAlloc i := by
  rw [isAlloc, withSize, BitVec.and_or_distrib_right, size_and_alloc,
    and_not_and_of_disjoint (by decide), isAlloc]
  simp

@[simp] theorem isMarked_withSize (i n : Word) : isMarked (withSize i n) = isMarked i := by
  rw [isMarked, withSize, BitVec.and_or_distrib_right, size_and_mark,
    and_not_and_of_disjoint (by decide), isMarked]
  simp

end Cs720.Alloc
