import Cs720.Alloc.Safety

/-! # What the sweep leaves -/

namespace Cs720.Alloc

open Cs720.Lib

/-- The sweep ends. It keeps the marked blocks and clears their marks, merges all free neighbours,
and counts the words by which the free payload grows. -/
theorem sweep_coalesces {e : Env} {g : Statics} {m : Mem} {bs : List Block}
    (log : List (Word × Word)) (hok : HeapOk g m bs)
    (hmarks : ∀ b ∈ bs, b.marked = true → b.alloc = true) (hsafe : HeapSafe e g) :
    ∃ w bs', (∀ n, bs.length < n → loop (sweepStep e) n ⟨g.heap, 0, 0, m, log⟩ = .ok w) ∧
      HeapOk g w.mem bs' ∧
      bs'.filter (·.alloc) = (bs.filter (·.marked)).map Block.unmark ∧
      (∀ b ∈ bs', b.marked = false) ∧
      (∀ b ∈ bs, b.marked = true → ∀ a ∈ payload b, w.mem a = m a) ∧
      bs'.IsChain Apart ∧
      freeWords bs + w.words_freed.toNat = freeWords bs' := by
  have hfin : ∀ f m a, (∃ c ∈ bs, a ∈ payload c) → e.finalizer f m a = m a := by
    rintro f m' a ⟨c, hc, ha⟩
    exact heapSafe_payload hok hsafe hc ha f m'
  have hno : ∀ a, (∃ c ∈ bs, a ∈ payload c) → ∀ b ∈ bs, ¬ Header b a := by
    rintro a ⟨c, hc, ha⟩ b hb
    exact payload_no_header hok.fill hok.aligned hc hb ha
  have hheaders := heapSafe_headers hok hsafe
  obtain ⟨w, hw⟩ := sweep_total hheaders hfin (sweepInv_start log hok hno) (Nat.lt_succ_self _)
  obtain ⟨hok', -, hfreed, hkept⟩ := sweep_run hheaders hfin hok hno hw
  have hwords := sweepBlocks_words none (by simpa using hok.fill) (by simp) hmarks
  refine ⟨w, sweepBlocks none bs, fun n hn => loop_mono hn hw, hok',
    sweepBlocks_allocs none (by simp) hmarks,
    fun b hb => (sweepBlocks_alloc none (by simp) hb).1,
    fun b hb _ a ha => hkept a ⟨b, hb, ha⟩, sweepBlocks_apart none hmarks, ?_⟩
  have hle := freeWords_le hok'.fill
  have hlim := hok'.fill.2
  rw [Option.toList_none, List.nil_append, Option.isSome_none] at hwords
  rw [hfreed, BitVec.toNat_ofNat, hwords]
  omega

/-! ### A heap of four blocks -/

/-- A free block, an allocated one, a marked one, and a free one. -/
def fourBlocks : Mem := fun a =>
  if a = 0x1000 then 1
  else if a = 0x1008 then 0x1020
  else if a = 0x1020 then infoMake 1#32 0#32 1
  else if a = 0x1028 then 0x1040
  else if a = 0x1030 then 0x400
  else if a = 0x1040 then infoMake 1#32 1#32 1
  else if a = 0x1048 then 0x1060
  else if a = 0x1060 then 1
  else 0

def fourList : List Block :=
  [⟨0x1000, 1, 0⟩, ⟨0x1020, infoMake 1#32 0#32 1, 0x400⟩, ⟨0x1040, infoMake 1#32 1#32 1, 0⟩,
    ⟨0x1060, 1, 0⟩]

def fourStatics : Statics := { initialized := 1, heap := 0x1000, total_heap_size := 16 }

theorem fourBlocks_ok : HeapOk fourStatics fourBlocks fourList :=
  ⟨rfl, by decide, by decide, ⟨by decide, ⟨rfl, rfl, rfl⟩, by decide, ⟨rfl, rfl, rfl⟩, by decide,
    ⟨rfl, rfl, rfl⟩, by decide, ⟨rfl, rfl, rfl⟩, rfl⟩,
    ⟨rfl, by decide, by decide, by decide, rfl⟩, by decide⟩

theorem sweep_coalesces_four : ∃ w bs,
    loop (sweepStep ⟨0x800, 0x800, 0x800, fun _ m => m⟩) 5 ⟨0x1000, 0, 0, fourBlocks, []⟩ = .ok w ∧
      HeapOk fourStatics w.mem bs ∧
      bs.filter (·.alloc) = [⟨0x1040, infoMake 1#32 0#32 1, 0⟩] ∧
      freeWords fourList + w.words_freed.toNat = freeWords bs := by
  obtain ⟨w, bs, hrun, hok, halloc, -, -, -, hwords⟩ :=
    sweep_coalesces (e := ⟨0x800, 0x800, 0x800, fun _ m => m⟩) [] fourBlocks_ok (by decide)
      (fun _ _ _ _ => rfl)
  exact ⟨w, bs, hrun 5 (by decide), hok, halloc, hwords⟩

end Cs720.Alloc
