import Cs720.Alloc.Blocks

/-! # Which block `getBlock` finds

The walk stops at the first header that is not below the address, one block behind. It is right
strictly between two headers and at the first one.
-/

namespace Cs720.Alloc

open Cs720.Lib

/-- The address is in the block, header included. -/
def Block.Has (b : Block) (p : Word) : Prop := b.start ≤ p.toNat ∧ p.toNat < b.stop

instance (b : Block) (p : Word) : Decidable (b.Has p) := inferInstanceAs (Decidable (_ ∧ _))

section
variable {g : Statics} {m : Mem} {bs : List Block} {p : Word}

theorem linked_nonnull {q : Word} (h : Linked m q bs) {b : Block} (hb : b ∈ bs) : b.addr ≠ 0 :=
  (linked_block h hb).1

/-- The walk runs off the list behind the last header. -/
theorem locate_null {prev : Word} (hprev : prev ≠ 0) (hnull : ∀ b ∈ bs, b.addr ≠ 0) :
    locate prev bs p = 0 ↔ ∀ b ∈ bs, b.addr < p := by
  induction bs generalizing prev with
  | nil => simp [locate]
  | cons b bs ih =>
    obtain ⟨hb, hbs⟩ := List.forall_mem_cons.mp hnull
    simp only [locate, List.forall_mem_cons]
    split
    · rename_i hlt
      rw [ih hb hbs]
      simp [hlt]
    · rename_i hlt
      exact iff_of_false hprev fun h => hlt h.1

theorem has_unique (hok : HeapOk g m bs) (hp : inHeapRange g p = true) :
    ∃! b, b ∈ bs ∧ b.Has p := by
  rw [inHeapRange_iff hok] at hp
  obtain ⟨b, hb, hhas⟩ := tiles_cover hok.fill.1 hp.1 hp.2
  refine ⟨b, ⟨hb, hhas⟩, ?_⟩
  rintro c ⟨hc, hc'⟩
  exact tiles_unique Block.start_lt_stop hok.fill.1 hc hb hc' hhas

/-- The block that is found is the right one at the first header, and strictly between two headers.
-/
theorem locate_has (hok : HeapOk g m bs) (hp : inHeapRange g p = true) :
    (∃ b ∈ bs, b.Has p ∧ locate g.heap bs p = b.addr) ↔
      p = g.heap ∨ (∀ b ∈ bs, b.addr ≠ p) ∧ ∃ b ∈ bs, p < b.addr := by
  have hnull : locate g.heap bs p = 0 ↔ ∀ b ∈ bs, b.addr < p :=
    locate_null hok.nonnull fun b hb => linked_nonnull hok.linked hb
  have hrange := (inHeapRange_iff hok p).mp hp
  constructor
  · rintro ⟨b, hb, ⟨h1, h2⟩, hloc⟩
    have h0 : locate g.heap bs p ≠ 0 := by
      rw [hloc]
      exact linked_nonnull hok.linked hb
    rcases locate_owner hok.fill h0 with ⟨-, hall⟩ | ⟨c, hc, hc', h3, -⟩
    · left
      obtain ⟨d, rest, rfl, hd⟩ := heap_cons hok
      have := hall d (by simp)
      unfold Block.start at this
      rw [hd] at this
      exact BitVec.eq_of_toNat_eq (by omega)
    · right
      obtain rfl : b = c := addr_inj hok.fill hb hc (hloc.symm.trans hc')
      have hno : ∀ d ∈ bs, d.addr ≠ p := by
        rintro d hd rfl
        have : b = d := by
          apply tiles_unique Block.start_lt_stop hok.fill.1 hb hd (p := d.start)
          · exact ⟨h1, h2⟩
          · exact ⟨Nat.le_refl _, d.start_lt_stop⟩
        rw [this] at h3
        exact absurd h3 (lt_irrefl _)
      refine ⟨hno, ?_⟩
      rw [Ne, hnull] at h0
      obtain ⟨d, hd, hlt⟩ : ∃ d ∈ bs, ¬ d.addr < p := by
        by_contra hall
        exact h0 fun d hd => by_contra fun h => hall ⟨d, hd, h⟩
      have hne : p.toNat ≠ d.addr.toNat := fun h => hno d hd (BitVec.eq_of_toNat_eq h.symm)
      rw [BitVec.lt_def] at hlt
      exact ⟨d, hd, BitVec.lt_def.mpr (by omega)⟩
  · rintro (rfl | ⟨hno, c, hc, hlt⟩)
    · obtain ⟨b, rest, rfl, hb⟩ := heap_cons hok
      refine ⟨b, by simp, ⟨?_, ?_⟩, ?_⟩
      · unfold Block.start
        rw [hb]
      · rw [← hb]
        exact b.start_lt_stop
      · simp only [locate]
        rw [if_neg (by rw [hb]; exact BitVec.lt_irrefl _), hb]
    · obtain ⟨b, hb, h1, h2⟩ := tiles_cover hok.fill.1 hrange.1 hrange.2
      have h3 : b.start < p.toNat := by
        refine lt_of_le_of_ne h1 fun h => hno b hb (BitVec.eq_of_toNat_eq h)
      refine ⟨b, hb, ⟨h1, h2⟩, ?_⟩
      refine (locate_inside g.heap hok.fill hb h3 (le_of_lt h2)).resolve_right fun h => ?_
      have hlt' := hnull.mp h c hc
      rw [BitVec.lt_def] at hlt hlt'
      omega

end

/-- `getBlock` returns the one block that has the address, if and only if that is the first header,
or no header and below the last one. It returns NULL behind the last header. -/
theorem getBlock_correct_iff {g : Statics} {m : Mem} {bs : List Block} {p : Word}
    (hok : HeapOk g m bs) (hp : inHeapRange g p = true) :
    ∃ r, (∀ n, bs.length < n → getBlock g n m p = .ok r) ∧ (∃! b, b ∈ bs ∧ b.Has p) ∧
      ((∃ b ∈ bs, b.Has p ∧ r = b.addr) ↔
        p = g.heap ∨ (∀ b ∈ bs, b.addr ≠ p) ∧ ∃ b ∈ bs, p < b.addr) ∧
      (r = 0 ↔ ∀ b ∈ bs, b.addr < p) :=
  ⟨locate g.heap bs p, fun _ hn => getBlock_run hok hp hn, has_unique hok hp, locate_has hok hp,
    locate_null hok.nonnull fun _ hb => linked_nonnull hok.linked hb⟩

/-! ### A heap of one block -/

/-- The payload word of the only block is its own address. -/
def oneBlock : State where
  initialized := 1
  heap := 0x1000
  total_heap_size := 4
  mem a := if a = 0x1000 then infoMake 1#32 0#32 1 else if a = 0x1018 then 0x1018 else 0

/-- A heap of two blocks. -/
def twoBlocks : State where
  initialized := 1
  heap := 0x1000
  total_heap_size := 8
  mem a := if a = 0x1000 then 1 else if a = 0x1008 then 0x1020 else if a = 0x1020 then 1 else 0

def twoFree : List Block := [⟨0x1000, 1, 0⟩, ⟨0x1020, 1, 0⟩]

theorem twoBlocks_ok : HeapOk twoBlocks.toStatics twoBlocks.mem twoFree :=
  ⟨rfl, by decide, by decide, ⟨by decide, ⟨rfl, rfl, rfl⟩, by decide, ⟨rfl, rfl, rfl⟩, rfl⟩,
    ⟨rfl, by decide, rfl⟩, by decide⟩

theorem getBlock_twoBlocks : ∃ b ∈ twoFree, b.Has 0x1018 ∧
    getBlock twoBlocks.toStatics 3 twoBlocks.mem 0x1018 = .ok b.addr := by
  obtain ⟨r, hr, -, hiff, -⟩ :=
    getBlock_correct_iff twoBlocks_ok (by decide : inHeapRange twoBlocks.toStatics 0x1018 = true)
  obtain ⟨b, hb, hhas, rfl⟩ := hiff.mpr (Or.inr (by decide))
  exact ⟨b, hb, hhas, hr 3 (by decide)⟩

/-- In the last block nothing is found, and step 1c exits. For the header of a block the one before
it is found. -/
theorem getBlock_wrong :
    HeapOk oneBlock.toStatics oneBlock.mem [⟨0x1000, infoMake 1#32 0#32 1, 0⟩] ∧
      inHeapRange oneBlock.toStatics 0x1018 = true ∧
      getBlock oneBlock.toStatics 2 oneBlock.mem 0x1018 = .ok 0 ∧
      markHeap ⟨0x800, 0x808, 0x800, fun _ m => m⟩ oneBlock.toStatics 2 oneBlock.mem =
        .error (.exit (-1)) ∧
      inHeapRange twoBlocks.toStatics 0x1020 = true ∧
      getBlock twoBlocks.toStatics 3 twoBlocks.mem 0x1020 = .ok 0x1000 := by
  refine ⟨?_, by decide, rfl, rfl, by decide, rfl⟩
  exact ⟨rfl, by decide, by decide, ⟨by decide, ⟨rfl, rfl, rfl⟩, rfl⟩, ⟨rfl, rfl⟩, by decide⟩

end Cs720.Alloc
