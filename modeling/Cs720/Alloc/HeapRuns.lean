import Cs720.Alloc.Allocate
import Cs720.Alloc.Initialize

/-! # Runs of the allocator

A run starts after a `memInitialize` that returned 1. Then the program writes where it likes, block
headers apart, and calls `memAllocate`.
-/

namespace Cs720.Alloc

open Cs720.Lib

/-! ## What the fit test misses -/

/-- If first fit gives the request a block, the block is large enough. -/
def FitsRequest (size : Word) (bs : List Block) : Prop :=
  ∀ b, firstFit size bs = some b → size.toNat ≤ b.size

/-- The request fits the block that first fit selects in the heap of `s`; and if there is none, the
one that it selects in the heap that steps 1 and 2 make of it. -/
def CallFits (e : Env) (n : Nat) (size rsp rbp : Word) (s : State) : Prop :=
  ∀ bs, HeapOk s.toStatics s.mem bs → FitsRequest size bs ∧
    (firstFit size bs = none → ∀ S, OnBlocks bs S →
      markAll e { s.toStatics with stack_top := rsp, frame_bottom := rbp } n s.mem =
        .ok (marks s.mem S) →
      FitsRequest size (collected bs S))

/-! ## Runs -/

inductive Run (e : Env) (s₀ : State) : State → Prop
  | start : Run e s₀ s₀
  | write {s : State} (m : Mem) : Run e s₀ s →
      (∀ bs, HeapOk s.toStatics s.mem bs → ∀ b ∈ bs, ∀ a, Header b a → m a = s.mem a) →
      Run e s₀ { s with mem := m }
  | allocate {s s' : State} {n : Nat} {size finalize rsp rbp ptr : Word} : Run e s₀ s →
      CallFits e n size rsp rbp s → memAllocate e n size finalize rsp rbp s = .ok (ptr, s') →
      Run e s₀ s'

/-- The list tiles the heap, and no mark is set. -/
def Good (s : State) (bs : List Block) : Prop :=
  HeapOk s.toStatics s.mem bs ∧ ∀ b ∈ bs, b.marked = false

/-- `ptr` is the payload of an allocated block of at least `size` words, inside the heap and apart
from every other block. -/
def Given (s : State) (bs : List Block) (size ptr : Word) : Prop :=
  ∃ b ∈ bs, b.alloc = true ∧ ptr = b.addr + 8 * BLOCK_SIZE ∧ size.toNat ≤ b.size ∧
    s.heap.toNat ≤ b.start ∧ b.stop ≤ s.heap.toNat + 8 * s.total_heap_size.toNat ∧
    ∀ c ∈ bs, c ≠ b → c.stop ≤ b.start ∨ b.stop ≤ c.start

/-- A heap of one free block. -/
theorem heapOk_one {g : Statics} {m : Mem} (h1 : g.initialized = 1)
    (haligned : g.heap.toNat % 8 = 0) (hnull : g.heap ≠ 0)
    (hroom : g.heap.toNat + 8 * g.total_heap_size.toNat < 2 ^ 64)
    (hmin : 3 ≤ g.total_heap_size.toNat)
    (hinfo : m g.heap = infoMake 0#32 0#32 (g.total_heap_size - BLOCK_SIZE))
    (hnext : m (g.heap + 8) = 0) (hfin : m (g.heap + 16) = 0) :
    HeapOk g m [⟨g.heap, infoMake 0#32 0#32 (g.total_heap_size - BLOCK_SIZE), 0⟩] := by
  have h3 : BLOCK_SIZE.toNat = 3 := by decide
  have hsub : (g.total_heap_size - BLOCK_SIZE).toNat = g.total_heap_size.toNat - 3 := by
    rw [BitVec.toNat_sub_of_le (by rw [BitVec.le_def]; omega), h3]
  have hsize : (⟨g.heap, infoMake 0#32 0#32 (g.total_heap_size - BLOCK_SIZE), 0⟩ : Block).size =
      g.total_heap_size.toNat - 3 := by
    unfold Block.size
    rw [size_infoMake_free, size_toNat, hsub]
    omega
  refine ⟨h1, haligned, hnull, ⟨hnull, ⟨rfl, hinfo, hfin⟩, hnext⟩, ⟨rfl, ?_⟩, hroom⟩
  unfold Block.stop
  rw [hsize]
  change g.heap.toNat + 24 + 8 * (g.total_heap_size.toNat - 3) = _
  omega

theorem memInitialize_good {size p rsp rbp : Word} {s s₀ : State}
    (h : memInitialize size p rsp rbp s = (s₀, 1)) (haligned : p.toNat % 8 = 0)
    (hroom : p.toNat + 8 * s₀.total_heap_size.toNat < 2 ^ 64)
    (hmin : 3 ≤ s₀.total_heap_size.toNat) :
    ∃ b, Good s₀ [b] ∧ b.alloc = false := by
  obtain ⟨-, -, hnull, rfl⟩ := memInitialize_ok h
  obtain ⟨hinfo, hnext, hfin⟩ := firstHeader_words s.mem p (size * 6 / 5)
  refine ⟨_, ⟨heapOk_one rfl haligned hnull hroom hmin hinfo hnext hfin, ?_⟩, by simp [Block.alloc]⟩
  intro b hb
  obtain rfl := List.mem_singleton.mp hb
  simp [Block.marked]

/-! ## One call -/

section
variable {e : Env} {n : Nat} {s s' : State} {size finalize rsp rbp ptr : Word} {bs : List Block}

/-- The heap after an allocation. -/
theorem split_good (finalize : Word) {xs ys : List Block} {b : Block}
    (hgood : Good s (xs ++ b :: ys)) (hsize : size.toNat ≤ b.size) :
    Good { s with mem := splitBlock s.mem b.addr size finalize }
      (xs ++ (give size finalize b ++ ys)) := by
  obtain ⟨hok, hmarks⟩ := hgood
  refine ⟨split_heap finalize hok hsize, fun d hd => ?_⟩
  rw [List.mem_append, List.mem_append] at hd
  rcases hd with hd | hd | hd
  · exact hmarks d (by simp [hd])
  · exact give_unmarked hd
  · exact hmarks d (by simp [hd])

/-- A block that is large enough is given. -/
theorem split_given (finalize : Word) {b : Block} (hgood : Good s bs) (hb : b ∈ bs)
    (hsize : size.toNat ≤ b.size) :
    ∃ bs', Good { s with mem := splitBlock s.mem b.addr size finalize } bs' ∧
      Given { s with mem := splitBlock s.mem b.addr size finalize } bs' size (b.addr + 24) := by
  obtain ⟨xs, ys, rfl⟩ := List.append_of_mem hb
  have hgood' := split_good finalize hgood hsize
  have hfill := hgood'.1.fill
  obtain ⟨c, rest, hgive, haddr, halloc, hcsize, -⟩ := give_head finalize hsize
  have hc : c ∈ xs ++ (give size finalize b ++ ys) := by simp [hgive]
  obtain ⟨hlo, hhi, -⟩ := fill_bounds hfill hc
  refine ⟨_, hgood', c, hc, halloc, by rw [haddr]; rfl, hcsize, hlo, hhi, ?_⟩
  intro d hd hne
  rcases tiles_disjoint Block.start_lt_stop hfill.1 hd hc with h | h | h
  · exact absurd h hne
  · exact Or.inl h
  · exact Or.inr h

/-- The step lemma. -/
theorem memAllocate_good (hsafe : HeadersSafe e s.toStatics) (hgood : Good s bs)
    (hfits : CallFits e n size rsp rbp s)
    (h : memAllocate e n size finalize rsp rbp s = .ok (ptr, s')) :
    ∃ bs', Good s' bs' ∧ (s'.initialized = s.initialized ∧ s'.heap = s.heap ∧
      s'.total_heap_size = s.total_heap_size) ∧ (ptr ≠ 0 → Given s' bs' size ptr) := by
  obtain ⟨hok, hmarks⟩ := hgood
  obtain ⟨hfit, hfit'⟩ := hfits bs hok
  have hgood₀ : Good { s with stack_top := rsp, frame_bottom := rbp } bs :=
    ⟨heapOk_statics hok rfl rfl rfl, hmarks⟩
  cases memAllocate_serves hok hsafe h with
  | first hb =>
    obtain ⟨bs', hgood', hgiven⟩ := split_given finalize hgood₀ (firstFit_free hb).1 (hfit _ hb)
    exact ⟨bs', hgood', ⟨rfl, rfl, rfl⟩, fun _ => hgiven⟩
  | full hnone hS =>
    refine ⟨_, ⟨hS.heap, fun b hb => collected_unmarked hb⟩, ?_, fun h => absurd rfl h⟩
    rw [hS.statics]
    exact ⟨rfl, rfl, rfl⟩
  | second hnone hS hb =>
    have hsize := hfit' hnone _ hS.on_blocks hS.marked _ hb
    obtain ⟨bs', hgood', hgiven⟩ := split_given finalize
      ⟨hS.heap, fun b hb => collected_unmarked hb⟩ (firstFit_free hb).1 hsize
    refine ⟨bs', hgood', ?_, fun _ => hgiven⟩
    rw [hS.statics]
    exact ⟨rfl, rfl, rfl⟩

end

/-! ## Whole runs -/

/-- The invariant of a run. -/
theorem run_good {e : Env} {s₀ s : State} (hsafe : HeadersSafe e s₀.toStatics)
    (h₀ : ∃ bs, Good s₀ bs) (hrun : Run e s₀ s) :
    (∃ bs, Good s bs) ∧ s.heap = s₀.heap ∧ s.total_heap_size = s₀.total_heap_size := by
  induction hrun with
  | start => exact ⟨h₀, rfl, rfl⟩
  | write m _ hkeep ih =>
    obtain ⟨⟨bs, hok, hmarks⟩, hheap, htotal⟩ := ih
    exact ⟨⟨bs, heapOk_congr hok (hkeep bs hok), hmarks⟩, hheap, htotal⟩
  | allocate _ hfits h ih =>
    obtain ⟨⟨bs, hgood⟩, hheap, htotal⟩ := ih
    obtain ⟨bs', hgood', ⟨-, hheap', htotal'⟩, -⟩ :=
      memAllocate_good (headersSafe_statics hsafe hheap htotal) hgood hfits h
    exact ⟨⟨bs', hgood'⟩, hheap'.trans hheap, htotal'.trans htotal⟩

/-- In every run whose calls fit, the list tiles the heap in every state, and every pointer that a
call returns is a block of its own that is large enough. -/
theorem heap_well_formed {e : Env} {size p rsp rbp : Word} {s s₀ : State}
    (hinit : memInitialize size p rsp rbp s = (s₀, 1)) (haligned : p.toNat % 8 = 0)
    (hroom : p.toNat + 8 * s₀.total_heap_size.toNat < 2 ^ 64)
    (hmin : BLOCK_SIZE ≤ s₀.total_heap_size) (hsafe : HeadersSafe e s₀.toStatics) {s₁ : State}
    (hrun : Run e s₀ s₁) :
    (∃ bs, Good s₁ bs) ∧
      ∀ {n : Nat} {size' finalize rsp' rbp' ptr : Word} {s₂ : State},
        CallFits e n size' rsp' rbp' s₁ →
        memAllocate e n size' finalize rsp' rbp' s₁ = .ok (ptr, s₂) →
        ∃ bs, Good s₂ bs ∧ (ptr ≠ 0 → Given s₂ bs size' ptr) := by
  have hmin' : 3 ≤ s₀.total_heap_size.toNat := hmin
  obtain ⟨b, hb, -⟩ := memInitialize_good hinit haligned hroom hmin'
  obtain ⟨⟨bs, hgood⟩, hheap, htotal⟩ := run_good hsafe ⟨[b], hb⟩ hrun
  refine ⟨⟨bs, hgood⟩, fun hfits h => ?_⟩
  obtain ⟨bs', hgood', -, hgiven⟩ :=
    memAllocate_good (headersSafe_statics hsafe hheap htotal) hgood hfits h
  exact ⟨bs', hgood', hgiven⟩

/-! ### A heap of twelve words -/

/-- A program with no globals, whose finalizers do nothing. -/
def quiet : Env := ⟨0x800, 0x800, 0x800, fun _ m => m⟩

/-- The state after `memInitialize(10)`. -/
def twelve : State := (memInitialize 10 0x1000 0 0 { mem := fun _ => 0 }).1

theorem twelve_ok : HeapOk twelve.toStatics twelve.mem [⟨0x1000, 9, 0⟩] :=
  heapOk_one rfl (by decide) (by decide) (by decide) (by decide) (by decide) (by decide) (by decide)

theorem twelve_list {bs : List Block} (h : HeapOk twelve.toStatics twelve.mem bs) :
    bs = [⟨0x1000, 9, 0⟩] :=
  linked_unique h.linked twelve_ok.linked

/-- A request of four words, in a heap that has nine. -/
theorem heap_well_formed_four : ∃ s bs, memAllocate quiet 5 4 0 0 0 twelve = .ok (0x1018, s) ∧
    Good s bs ∧ Given s bs 4 0x1018 := by
  have hsafe : HeadersSafe quiet twelve.toStatics := fun _ _ _ h _ => h
  have hfits : CallFits quiet 5 4 0 0 twelve := by
    intro bs hbs
    rw [twelve_list hbs]
    refine ⟨?_, fun h => absurd h (by decide)⟩
    intro b hb
    obtain rfl : ⟨0x1000, 9, 0⟩ = b := Option.some.inj hb
    decide
  have hcall : memAllocate quiet 5 4 0 0 0 twelve =
      .ok (0x1018, { twelve with mem := splitBlock twelve.mem 0x1000 4 0 }) := rfl
  have hinit : memInitialize 10 0x1000 0 0 { mem := fun _ => 0 } = (twelve, 1) := rfl
  have hall := heap_well_formed hinit (by decide) (by decide) (by decide) hsafe .start
  obtain ⟨bs, hgood, hgiven⟩ := hall.2 hfits hcall
  exact ⟨_, bs, hcall, hgood, hgiven (by decide)⟩

/-- A request of twelve words gets the block of nine, and its end is past the end of the heap. -/
theorem heap_overrun_twelve : ∃ s, memInitialize 10 0x1000 0 0 { mem := fun _ => 0 } = (twelve, 1) ∧
    memAllocate quiet 5 12 0 0 0 twelve = .ok (0x1018, s) ∧ ¬ ∃ bs, Good s bs := by
  refine ⟨{ twelve with mem := splitBlock twelve.mem 0x1000 12 0 }, rfl, rfl, ?_⟩
  rintro ⟨bs, hok, -⟩
  obtain ⟨b, rest, rfl, hb⟩ := heap_cons hok
  have hinfo := linked_info hok.linked (b := b) (by simp)
  have hend := (fill_bounds hok.fill (b := b) (by simp)).2.1
  rw [hb] at hinfo
  unfold Block.stop Block.start Block.size at hend
  rw [hb, ← hinfo] at hend
  revert hend
  decide

end Cs720.Alloc
