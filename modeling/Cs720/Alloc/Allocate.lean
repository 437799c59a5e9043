import Cs720.Alloc.MarkRun
import Cs720.Alloc.SweepRun

/-! # An allocation on a block list

First fit, the split, and the collection in between, each as what it does to the list.
-/

namespace Cs720.Alloc

open Cs720.Lib

/-! ## The search -/

/-- The test of `nextBlockOfSize`. -/
def fits (size : Word) (b : Block) : Bool := b.info &&& SIZE_MASK ≥ size - BLOCK_SIZE && !b.alloc

def firstFit (size : Word) (bs : List Block) : Option Block := bs.find? (fits size)

theorem nextBlock_run {m : Mem} {size cur r : Word} {bs : List Block} {n : Nat}
    (hl : Linked m cur bs) (h : loop (nextBlockStep m size) n cur = .ok r) :
    r = (firstFit size bs).elim 0 Block.addr := by
  induction bs generalizing cur n with
  | nil =>
    have h0 : cur = 0 := hl
    apply loop_of_done _ h
    rw [nextBlockStep, if_pos h0]
    rfl
  | cons b bs ih =>
    obtain ⟨h0, ⟨rfl, hinfo, -⟩, hl⟩ := hl
    unfold firstFit
    rw [List.find?_cons]
    split
    · rename_i hfit
      apply loop_of_done _ h
      unfold fits Block.alloc at hfit
      rw [nextBlockStep, if_neg h0, hinfo, if_pos hfit]
      rfl
    · rename_i hfit
      have hstep : nextBlockStep m size b.addr = .ok (.next (next m b.addr)) := by
        unfold fits Block.alloc at hfit
        rw [nextBlockStep, if_neg h0, hinfo, if_neg (by simp [hfit])]
      obtain ⟨k, -, hk⟩ := loop_of_next hstep h
      exact ih hl hk

theorem firstFit_cut {size : Word} {bs : List Block} {b : Block} (h : firstFit size bs = some b) :
    ∃ xs ys, bs = xs ++ b :: ys := by
  obtain ⟨-, xs, ys, h, -⟩ := List.find?_eq_some_iff_append.mp h
  exact ⟨xs, ys, h⟩

theorem firstFit_null {m : Mem} {p size : Word} {bs : List Block} (hl : Linked m p bs) {b : Block}
    (h : firstFit size bs = some b) : b.addr ≠ 0 := by
  obtain ⟨xs, ys, rfl⟩ := firstFit_cut h
  exact (linked_cut hl).2.1

theorem firstFit_free {size : Word} {bs : List Block} {b : Block} (h : firstFit size bs = some b) :
    b ∈ bs ∧ b.alloc = false := by
  have hfit := List.find?_some h
  unfold fits at hfit
  exact ⟨List.mem_of_find?_eq_some h, by simpa using (Bool.and_eq_true_iff.mp hfit).2⟩

/-! ## The split -/

/-- What a request makes of the block that it gets. -/
def give (size finalize : Word) (b : Block) : List Block :=
  if size.toNat + 4 ≤ b.size then
    [{ b with info := infoMake 1#32 0#32 size, finalizer := finalize },
      ⟨b.addr + 8 * (BLOCK_SIZE + size),
        infoMake 0#32 0#32 ((b.info &&& SIZE_MASK) - size - BLOCK_SIZE), 0⟩]
  else [{ b with info := infoMake 1#32 0#32 (b.info &&& SIZE_MASK), finalizer := finalize }]

section
variable {size finalize : Word} {b : Block}

/-- The test for the split, without wrap-around. -/
theorem split_iff (hsize : size.toNat ≤ b.size) :
    (b.info &&& SIZE_MASK) - size ≥ BLOCK_SIZE + 1 ↔ size.toNat + 4 ≤ b.size := by
  have hb : (b.info &&& SIZE_MASK).toNat = b.size := rfl
  rw [ge_iff_le, BitVec.le_def, BitVec.toNat_sub_of_le (by rw [BitVec.le_def]; omega), hb,
    show (BLOCK_SIZE + 1).toNat = 4 by decide]
  omega

theorem new_toNat (hroom : size.toNat + 4 ≤ b.size) (hb : b.stop < 2 ^ 64) :
    (b.addr + 8 * (BLOCK_SIZE + size)).toNat = b.start + 24 + 8 * size.toNat := by
  unfold Block.stop Block.start at hb
  unfold BLOCK_SIZE Block.start
  bv_omega

theorem size_lt (b : Block) : b.size < 2 ^ 62 := by
  unfold Block.size
  rw [size_toNat]
  exact Nat.mod_lt _ (by decide)

theorem infoMake_size (size : Word) (h : size.toNat < 2 ^ 62) (a f : Word) :
    (⟨a, infoMake 1#32 0#32 size, f⟩ : Block).size = size.toNat := by
  unfold Block.size
  rw [size_infoMake_alloc, size_toNat]
  omega

theorem rest_size (hroom : size.toNat + 4 ≤ b.size) (a f : Word) :
    (⟨a, infoMake 0#32 0#32 ((b.info &&& SIZE_MASK) - size - BLOCK_SIZE), f⟩ : Block).size =
      b.size - size.toNat - 3 := by
  have hlt := size_lt b
  have hb : (b.info &&& SIZE_MASK).toNat = b.size := rfl
  have h3 : BLOCK_SIZE.toNat = 3 := by decide
  have h1 : ((b.info &&& SIZE_MASK) - size).toNat = b.size - size.toNat := by
    rw [BitVec.toNat_sub_of_le (by rw [BitVec.le_def]; omega), hb]
  unfold Block.size at *
  rw [size_infoMake_free, size_toNat, BitVec.toNat_sub_of_le (by rw [BitVec.le_def]; omega), h1, h3]
  omega

/-- The blocks of a request fill the block that it got. -/
theorem give_tiles (hb : b.stop < 2 ^ 64) :
    Tiles Block.start Block.stop b.start (give size finalize b) b.stop := by
  have hlt := size_lt b
  unfold give
  split
  · rename_i hroom
    have hnew := new_toNat hroom hb
    have h1 := infoMake_size size (by omega) b.addr finalize
    have h2 := rest_size hroom (b.addr + 8 * (BLOCK_SIZE + size)) 0
    refine ⟨rfl, ?_, ?_⟩
    · unfold Block.stop
      rw [h1]
      exact hnew
    · unfold Block.stop
      rw [h2, Block.start, hnew]
      change _ = b.start + 24 + 8 * b.size
      omega
  · have h1 := infoMake_size (b.info &&& SIZE_MASK) hlt b.addr finalize
    refine ⟨rfl, ?_⟩
    unfold Block.stop
    rw [h1]
    rfl

theorem give_head (finalize : Word) (hsize : size.toNat ≤ b.size) :
    ∃ c rest, give size finalize b = c :: rest ∧ c.addr = b.addr ∧ c.alloc = true ∧
      size.toNat ≤ c.size ∧ c.finalizer = finalize := by
  have hlt := size_lt b
  unfold give
  split
  · have h1 := infoMake_size size (by omega) b.addr finalize
    exact ⟨_, _, rfl, rfl, by simp [Block.alloc], by omega, rfl⟩
  · have h1 := infoMake_size (b.info &&& SIZE_MASK) hlt b.addr finalize
    refine ⟨_, _, rfl, rfl, by simp [Block.alloc], ?_, rfl⟩
    rw [h1]
    exact hsize

theorem give_unmarked {c : Block} (hc : c ∈ give size finalize b) : c.marked = false := by
  unfold give at hc
  split at hc
  · rcases List.mem_cons.mp hc with rfl | hc
    · simp [Block.marked]
    · obtain rfl := List.mem_singleton.mp hc
      simp [Block.marked]
  · obtain rfl := List.mem_singleton.mp hc
    simp [Block.marked]

/-! ### The memory after the split -/

/-- The split writes inside the block that it splits. -/
theorem split_other {m : Mem} (hinfo : m b.addr = b.info) (hsize : size.toNat ≤ b.size)
    (hb : b.stop < 2 ^ 64) {a : Word} (ha : a.toNat < b.start ∨ b.stop ≤ a.toNat) :
    splitBlock m b.addr size finalize a = m a := by
  have h0 : ∀ k : Word, k.toNat ≤ 16 → a ≠ b.addr + k := by
    rintro k hk rfl
    unfold Block.stop Block.start at *
    bv_omega
  have h1 : a ≠ b.addr := by simpa using h0 0 (by decide)
  have h2 := h0 8 (by decide)
  have h3 := h0 16 (by decide)
  unfold splitBlock
  simp only [hinfo]
  split
  · rename_i hroom
    rw [split_iff hsize] at hroom
    have hnew := new_toNat hroom hb
    have hn : ∀ k : Word, k.toNat ≤ 16 → a ≠ b.addr + 8 * (BLOCK_SIZE + size) + k := by
      rintro k hk rfl
      have hwrap : (b.addr + 8 * (BLOCK_SIZE + size) + k).toNat =
          b.start + 24 + 8 * size.toNat + k.toNat := by
        rw [BitVec.toNat_add, hnew]
        unfold Block.stop at hb
        omega
      unfold Block.stop at ha
      omega
    have h4 : a ≠ b.addr + 8 * (BLOCK_SIZE + size) := by simpa using hn 0 (by decide)
    rw [set_ne _ _ h3, set_ne _ _ h2, set_ne _ _ h1, set_ne _ _ (hn 16 (by decide)),
      set_ne _ _ (hn 8 (by decide)), set_ne _ _ h4]
  · rw [set_ne _ _ h3, set_ne _ _ h1]

/-- The header words of the two blocks. -/
theorem split_words (finalize : Word) {m : Mem} (hinfo : m b.addr = b.info)
    (hsize : size.toNat ≤ b.size)
    (hroom : size.toNat + 4 ≤ b.size)
    (hfar : b.addr.toNat + 24 ≤ (b.addr + 8 * (BLOCK_SIZE + size)).toNat ∧
      (b.addr + 8 * (BLOCK_SIZE + size)).toNat + 24 < 2 ^ 64) :
    let m' := splitBlock m b.addr size finalize
    let new := b.addr + 8 * (BLOCK_SIZE + size)
    m' b.addr = infoMake 1#32 0#32 size ∧ m' (b.addr + 8) = new ∧ m' (b.addr + 16) = finalize ∧
      m' new = infoMake 0#32 0#32 ((b.info &&& SIZE_MASK) - size - BLOCK_SIZE) ∧
      m' (new + 8) = next m b.addr ∧ m' (new + 16) = 0 := by
  intro m'
  have hm : m' = splitBlock m b.addr size finalize := rfl
  unfold splitBlock at hm
  simp only [hinfo] at hm
  rw [if_pos ((split_iff hsize).mpr hroom)] at hm
  clear_value m'
  subst hm
  generalize b.addr + 8 * (BLOCK_SIZE + size) = new at hfar ⊢
  have hb : b.addr ≠ b.addr + 8 ∧ b.addr ≠ b.addr + 16 ∧ b.addr + 8 ≠ b.addr + 16 := by
    refine ⟨?_, ?_, ?_⟩ <;> bv_omega
  have hn : new ≠ new + 8 ∧ new ≠ new + 16 ∧ new + 8 ≠ new + 16 := by
    refine ⟨?_, ?_, ?_⟩ <;> bv_omega
  have h0 : new ≠ b.addr ∧ new ≠ b.addr + 8 ∧ new ≠ b.addr + 16 := by
    refine ⟨?_, ?_, ?_⟩ <;> bv_omega
  have h8 : new + 8 ≠ b.addr ∧ new + 8 ≠ b.addr + 8 ∧ new + 8 ≠ b.addr + 16 := by
    refine ⟨?_, ?_, ?_⟩ <;> bv_omega
  have h16 : new + 16 ≠ b.addr ∧ new + 16 ≠ b.addr + 8 ∧ new + 16 ≠ b.addr + 16 := by
    refine ⟨?_, ?_, ?_⟩ <;> bv_omega
  refine ⟨?_, ?_, ?_, ?_, ?_, ?_⟩
  · rw [set_ne _ _ hb.2.1, set_ne _ _ hb.1, set_self]
  · rw [set_ne _ _ hb.2.2, set_self]
  · rw [set_self]
  · rw [set_ne _ _ h0.2.2, set_ne _ _ h0.2.1, set_ne _ _ h0.1, set_ne _ _ hn.2.1, set_ne _ _ hn.1,
      set_self]
  · rw [set_ne _ _ h8.2.2, set_ne _ _ h8.2.1, set_ne _ _ h8.1, set_ne _ _ hn.2.2, set_self]
    exact set_ne _ _ h0.2.1.symm
  · rw [set_ne _ _ h16.2.2, set_ne _ _ h16.2.1, set_ne _ _ h16.1, set_self]

/-- The split puts the blocks of the request into memory. -/
theorem split_give {m : Mem} (hinfo : m b.addr = b.info) (hnull : b.addr ≠ 0)
    (hsize : size.toNat ≤ b.size) (hb : b.stop < 2 ^ 64) :
    Seg 0 (Holds (splitBlock m b.addr size finalize)) (next (splitBlock m b.addr size finalize))
      b.addr (give size finalize b) (next m b.addr) := by
  have h8 : b.addr ≠ b.addr + 8 := by bv_omega
  have h16 : b.addr ≠ b.addr + 16 := by bv_omega
  have h8' : b.addr + 8 ≠ b.addr := by bv_omega
  have h8'' : b.addr + 8 ≠ b.addr + 16 := by bv_omega
  unfold give
  by_cases hroom : size.toNat + 4 ≤ b.size
  · rw [if_pos hroom]
    have hnew := new_toNat hroom hb
    have hfar : b.addr.toNat + 24 ≤ (b.addr + 8 * (BLOCK_SIZE + size)).toNat ∧
        (b.addr + 8 * (BLOCK_SIZE + size)).toNat + 24 < 2 ^ 64 := by
      unfold Block.stop Block.start at *
      omega
    obtain ⟨h1, h2, h3, h4, h5, h6⟩ := split_words finalize hinfo hsize hroom hfar
    have hnew0 : b.addr + 8 * (BLOCK_SIZE + size) ≠ 0 := by
      intro h0
      rw [h0] at hfar
      have : (0 : Word).toNat = 0 := rfl
      omega
    refine ⟨hnull, ⟨rfl, h1, h3⟩, ?_⟩
    unfold next at *
    rw [h2]
    exact ⟨hnew0, ⟨rfl, h4, h6⟩, h5⟩
  · rw [if_neg hroom]
    have hm : splitBlock m b.addr size finalize =
        (m.set b.addr (infoMake 1#32 0#32 (b.info &&& SIZE_MASK))).set (b.addr + 16) finalize := by
      unfold splitBlock
      simp only [hinfo, if_neg (mt (split_iff hsize).mp hroom)]
    rw [hm]
    refine ⟨hnull, ⟨rfl, ?_, ?_⟩, ?_⟩
    · rw [set_ne _ _ h16, set_self]
    · exact set_self _ _ _
    · unfold Seg next
      rw [set_ne _ _ h8'', set_ne _ _ h8']

/-- The list after the split. -/
theorem split_heap (finalize : Word) {g : Statics} {m : Mem} {xs ys : List Block}
    (hok : HeapOk g m (xs ++ b :: ys)) (hsize : size.toNat ≤ b.size) :
    HeapOk g (splitBlock m b.addr size finalize) (xs ++ (give size finalize b ++ ys)) := by
  have hb := (fill_bounds hok.fill (b := b) (by simp)).2.2
  have hinfo : m b.addr = b.info := linked_info hok.linked (by simp)
  obtain ⟨mid, ht1, rfl, ht2⟩ := tiles_append.mp hok.fill.1
  refine ⟨hok.initialized, hok.aligned, hok.nonnull, ?_, ?_, hok.fill.2⟩
  · obtain ⟨hx, hnull, -, hy⟩ := linked_cut hok.linked
    have hkeep : ∀ c ∈ xs ++ ys, ∀ a, Header c a → splitBlock m b.addr size finalize a = m a := by
      intro c hc a ha
      have hcin : c ∈ xs ++ b :: ys := by simp at hc ⊢; tauto
      have hca := header_range ha (fill_bounds hok.fill hcin).2.2
      have hcs : c.start + 24 ≤ c.stop := by unfold Block.stop; omega
      apply split_other hinfo hsize hb
      rcases List.mem_append.mp hc with hc | hc
      · have := (tiles_bounds Block.start_lt_stop ht1 hc).2
        omega
      · have := (tiles_bounds Block.start_lt_stop ht2 hc).1
        omega
    have hseg : ∀ l ⊆ xs ++ ys, ∀ q r, Seg 0 (Holds m) (next m) q l r →
        Seg 0 (Holds (splitBlock m b.addr size finalize))
          (next (splitBlock m b.addr size finalize)) q l r := by
      intro l hl q r hs
      apply seg_congr _ hs
      rintro w c hc ⟨rfl, h1, h2⟩
      have hk := hkeep c (hl hc)
      exact ⟨⟨rfl, (hk _ (Or.inl rfl)).trans h1, (hk _ (Or.inr (Or.inr rfl))).trans h2⟩,
        hk _ (Or.inr (Or.inl rfl))⟩
    unfold Linked
    rw [seg_append]
    refine ⟨b.addr, hseg xs (by simp) _ _ hx, ?_⟩
    rw [seg_append]
    exact ⟨next m b.addr, split_give hinfo hnull hsize hb, hseg ys (by simp) _ _ hy⟩
  · rw [tiles_append]
    refine ⟨_, ht1, ?_⟩
    rw [tiles_append]
    exact ⟨_, give_tiles hb, ht2⟩

end

/-! ## The collection -/

/-- The list after a collection that marks `S`. -/
noncomputable def collected (bs : List Block) (S : Set Word) : List Block :=
  sweepBlocks none (bs.map (markIn S))

section
variable {e : Env} {n : Nat} {s s' : State} {bs : List Block}

theorem markAndSweep_ok {r : BitVec 32} (h : markAndSweep e n s = .ok (s', r)) :
    ∃ m w, markAll e s.toStatics n s.mem = .ok m ∧
      loop (sweepStep e) n ⟨s.heap, 0, 0, m, s.finalized⟩ = .ok w ∧
      s' = { s with mem := w.mem, finalized := w.finalized } ∧ r = w.words_freed.setWidth 32 := by
  unfold markAndSweep at h
  simp only [bind_ok] at h
  obtain ⟨m₁, h1, m₂, h2, m₃, h3, w, h4, h5⟩ := h
  cases h5
  exact ⟨m₃, w, markAll_ok.mpr ⟨m₁, m₂, h1, h2, h3⟩, h4, rfl, rfl⟩

/-- What a collection of the heap whose list is `bs` does, when it marks `S`. -/
structure Collects (e : Env) (n : Nat) (s : State) (bs : List Block) (S : Set Word) (s' : State)
    (r : BitVec 32) : Prop where
  run : markAndSweep e n s = .ok (s', r)
  marked : markAll e s.toStatics n s.mem = .ok (marks s.mem S)
  on_blocks : OnBlocks bs S
  statics : s'.toStatics = s.toStatics
  heap : HeapOk s'.toStatics s'.mem (collected bs S)
  calls : s'.finalized = s.finalized ++ finalCalls (bs.map (markIn S))
  freed : r = (BitVec.ofNat 64 (wordsFreed false (bs.map (markIn S)))).setWidth 32

/-- A collection leaves a heap. -/
theorem collect_heap (hsafe : HeadersSafe e s.toStatics) (hok : HeapOk s.toStatics s.mem bs)
    {r : BitVec 32} (h : markAndSweep e n s = .ok (s', r)) : ∃ S, Collects e n s bs S s' r := by
  have hrun := h
  obtain ⟨m, w, hm, hw, rfl, rfl⟩ := markAndSweep_ok h
  obtain ⟨S, rfl, hS⟩ := mark_marks hok hm
  obtain ⟨hheap, hcalls, hfreed, -⟩ := sweep_run (K := fun _ => False) hsafe
    (fun _ _ _ h => h.elim) (heapOk_marks hok hS) (fun _ h => h.elim) hw
  exact ⟨S, hrun, hm, hS, rfl, hheap, hcalls, by rw [hfreed]⟩

theorem collected_unmarked {S : Set Word} {b : Block} (hb : b ∈ collected bs S) :
    b.marked = false :=
  (sweepBlocks_alloc none (by simp) hb).1

theorem heapOk_statics {g g' : Statics} {m : Mem} {bs : List Block} (h : HeapOk g m bs)
    (h1 : g'.initialized = g.initialized) (h2 : g'.heap = g.heap)
    (h3 : g'.total_heap_size = g.total_heap_size) : HeapOk g' m bs := by
  refine ⟨h1.trans h.initialized, ?_, ?_, ?_, ?_⟩
  · rw [h2]; exact h.aligned
  · rw [h2]; exact h.nonnull
  · rw [h2]; exact h.linked
  · rw [h2, h3]; exact h.fill

theorem headersSafe_statics {g g' : Statics} (h : HeadersSafe e g) (h1 : g'.heap = g.heap)
    (h2 : g'.total_heap_size = g.total_heap_size) : HeadersSafe e g' := by
  unfold HeadersSafe at *
  rw [h1, h2]
  exact h

/-- The block comes from the first search, or from the second one after a collection that counted
some words. -/
theorem findBlock_cases (hsafe : HeadersSafe e s.toStatics) (hok : HeapOk s.toStatics s.mem bs)
    {size alloced : Word} (h : findBlock e n size s = .ok (alloced, s')) :
    (s' = s ∧ ∃ b, firstFit size bs = some b ∧ alloced = b.addr) ∨
      firstFit size bs = none ∧ ∃ S r, Collects e n s bs S s' r ∧
        (r = 0 ∧ alloced = 0 ∨
          r ≠ 0 ∧ alloced = (firstFit size (collected bs S)).elim 0 Block.addr) := by
  unfold findBlock at h
  rw [bind_ok] at h
  obtain ⟨first, hfirst, h⟩ := h
  have hfirst' := nextBlock_run hok.linked hfirst
  rcases hff : firstFit size bs with _ | b
  · obtain rfl : first = 0 := by rw [hfirst', hff]; rfl
    rw [if_neg (not_not.mpr rfl), bind_ok] at h
    obtain ⟨⟨s₁, r⟩, hcollect, h⟩ := h
    obtain ⟨S, hS⟩ := collect_heap hsafe hok hcollect
    refine Or.inr ⟨rfl, S, r, ?_⟩
    simp only at h
    split at h
    · cases h
      exact ⟨hS, Or.inl ⟨‹_›, rfl⟩⟩
    · rw [bind_ok] at h
      obtain ⟨second, hsecond, h⟩ := h
      cases h
      exact ⟨hS, Or.inr ⟨‹_›, nextBlock_run hS.heap.linked hsecond⟩⟩
  · obtain rfl : first = b.addr := by rw [hfirst', hff]; rfl
    rw [if_pos (firstFit_null hok.linked hff)] at h
    cases h
    exact Or.inl ⟨rfl, b, rfl, rfl⟩

/-- How a request is served in a heap with the list `bs`. -/
inductive Serves (e : Env) (n : Nat) (size finalize : Word) (s : State) (bs : List Block) :
    Word → State → Prop
  | first {b : Block} : firstFit size bs = some b →
      Serves e n size finalize s bs (b.addr + 24)
        { s with mem := splitBlock s.mem b.addr size finalize }
  /-- A collection that counted no words, or one that made no room. -/
  | full {S : Set Word} {s' : State} {r : BitVec 32} : firstFit size bs = none →
      Collects e n s bs S s' r → r = 0 ∨ firstFit size (collected bs S) = none →
      Serves e n size finalize s bs 0 s'
  | second {S : Set Word} {s' : State} {r : BitVec 32} {b : Block} : firstFit size bs = none →
      Collects e n s bs S s' r → firstFit size (collected bs S) = some b →
      Serves e n size finalize s bs (b.addr + 24)
        { s' with mem := splitBlock s'.mem b.addr size finalize }

theorem memAllocate_serves {size finalize rsp rbp ptr : Word} (hok : HeapOk s.toStatics s.mem bs)
    (hsafe : HeadersSafe e s.toStatics)
    (h : memAllocate e n size finalize rsp rbp s = .ok (ptr, s')) :
    Serves e n size finalize { s with stack_top := rsp, frame_bottom := rbp } bs ptr s' := by
  unfold memAllocate at h
  rw [if_neg (not_not.mpr hok.initialized)] at h
  split at h
  · cases h
  rw [bind_ok] at h
  obtain ⟨⟨alloced, s₁⟩, hfind, h⟩ := h
  have hcases := findBlock_cases (s := { s with stack_top := rsp, frame_bottom := rbp })
    (headersSafe_statics hsafe rfl rfl) (heapOk_statics hok rfl rfl rfl) hfind
  simp only at h
  rcases hcases with ⟨rfl, b, hb, rfl⟩ | ⟨hnone, S, r, hS, ⟨h0, rfl⟩ | ⟨-, halloced⟩⟩
  · rw [if_neg (firstFit_null hok.linked hb)] at h
    cases h
    exact .first hb
  · rw [if_pos rfl] at h
    cases h
    exact .full hnone hS (Or.inl h0)
  · rcases hff : firstFit size (collected bs S) with _ | b
    · obtain rfl : alloced = 0 := by rw [halloced, hff]; rfl
      rw [if_pos rfl] at h
      cases h
      exact .full hnone hS (Or.inr hff)
    · obtain rfl : alloced = b.addr := by rw [halloced, hff]; rfl
      rw [if_neg (firstFit_null hS.heap.linked hff)] at h
      cases h
      exact .second hnone hS hff

end

end Cs720.Alloc
