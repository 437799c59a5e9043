import Cs720.Alloc.Mark

/-! # The sweep

`sweepBlocks` is the sweep on a block list. The loop of step 2 leaves a heap whose list it is.
-/

namespace Cs720.Alloc

open Cs720.Lib

namespace Block

def unmark (b : Block) : Block := { b with info := b.info &&& ~~~MARK_BIT }

def release (b : Block) : Block :=
  if b.alloc then { b with info := b.info &&& ~~~ALLOC_BIT } else b

/-- `p` grown over the block `c` that follows it. -/
def merge (p c : Block) : Block :=
  let prev_size := (p.info &&& SIZE_MASK) + (BLOCK_SIZE + (c.info &&& SIZE_MASK))
  { p with info := withSize p.info prev_size }

@[simp] theorem unmark_alloc (b : Block) : b.unmark.alloc = b.alloc := by simp [unmark, alloc]

@[simp] theorem unmark_marked (b : Block) : b.unmark.marked = false := by simp [unmark, marked]

@[simp] theorem unmark_stop (b : Block) : b.unmark.stop = b.stop := by
  simp [unmark, stop, start, size]

@[simp] theorem release_addr (b : Block) : b.release.addr = b.addr := by
  unfold release
  split <;> rfl

@[simp] theorem release_start (b : Block) : b.release.start = b.start := by simp [start]

@[simp] theorem release_size (b : Block) : b.release.size = b.size := by
  unfold release size
  split <;> simp

@[simp] theorem release_stop (b : Block) : b.release.stop = b.stop := by simp [stop]

@[simp] theorem release_alloc (b : Block) : b.release.alloc = false := by
  unfold release
  split
  · simp [alloc]
  · simpa using ‹¬ b.alloc = true›

@[simp] theorem release_marked (b : Block) : b.release.marked = b.marked := by
  unfold release
  split <;> simp [marked]

@[simp] theorem merge_addr (p c : Block) : (p.merge c).addr = p.addr := rfl

@[simp] theorem merge_start (p c : Block) : (p.merge c).start = p.start := rfl

@[simp] theorem merge_alloc (p c : Block) : (p.merge c).alloc = p.alloc := by simp [merge, alloc]

@[simp] theorem merge_marked (p c : Block) : (p.merge c).marked = p.marked := by
  simp [merge, marked]

/-- A merge of neighbours in the address space does not wrap. -/
theorem merge_size {p c : Block} (h : p.stop = c.start) (hc : c.stop < 2 ^ 64) :
    (p.merge c).size = p.size + 3 + c.size := by
  have hp : (p.info &&& SIZE_MASK).toNat = p.size := rfl
  have hc' : (c.info &&& SIZE_MASK).toNat = c.size := rfl
  unfold stop at h hc
  have hsum : ((p.info &&& SIZE_MASK) + (BLOCK_SIZE + (c.info &&& SIZE_MASK))).toNat =
      p.size + (3 + c.size) := by
    rw [BitVec.toNat_add, BitVec.toNat_add, hp, hc', show BLOCK_SIZE.toNat = 3 by decide]
    omega
  rw [size, merge]
  simp only [size_withSize]
  rw [size_toNat, hsum]
  omega

theorem merge_stop {p c : Block} (h : p.stop = c.start) (hc : c.stop < 2 ^ 64) :
    (p.merge c).stop = c.stop := by
  rw [stop, merge_size h hc, merge_start]
  unfold stop at h ⊢
  omega

end Block

/-! ## The sweep of a list -/

/-- `prev` is the free block that the next free one is merged into. -/
def sweepBlocks : Option Block → List Block → List Block
  | prev, [] => prev.toList
  | prev, c :: cs =>
    if c.marked then prev.toList ++ c.unmark :: sweepBlocks none cs
    else
      match prev with
      | none => sweepBlocks (some c.release) cs
      | some p => sweepBlocks (some (p.merge c.release)) cs

/-- The finalizer calls of a sweep. -/
def finalCalls (bs : List Block) : List (Word × Word) :=
  (bs.filter fun c => !c.marked && c.alloc && c.finalizer != 0).map fun c => (c.addr, c.finalizer)

/-- `words_freed`; `prev` tells whether the block before the list is free. -/
def wordsFreed : Bool → List Block → Nat
  | _, [] => 0
  | prev, c :: cs =>
    if c.marked then wordsFreed false cs
    else (if c.alloc then c.size else 0) + (if prev then 3 else 0) + wordsFreed true cs

section
variable {lo hi : Nat}

theorem fill_rest {prev : Option Block} {c : Block} {cs : List Block}
    (h : Fill lo (prev.toList ++ c :: cs) hi) : ∃ mid, Fill mid cs hi := by
  obtain ⟨mid, -, -, ht⟩ := tiles_append.mp h.1
  exact ⟨c.stop, ht, h.2⟩

/-- The rest of a tiling can be any other tiling of the same range. -/
theorem fill_append {xs ys zs : List Block} (hrest : ∀ mid, Fill mid ys hi → Fill mid zs hi)
    (h : Fill lo (xs ++ ys) hi) : Fill lo (xs ++ zs) hi := by
  obtain ⟨ht, hlim⟩ := h
  obtain ⟨mid, hxs, hys⟩ := tiles_append.mp ht
  exact ⟨tiles_append.mpr ⟨mid, hxs, (hrest mid ⟨hys, hlim⟩).1⟩, hlim⟩

theorem fill_unmark {c : Block} {cs : List Block} (h : Fill lo (c :: cs) hi) :
    Fill lo (c.unmark :: cs) hi := by
  obtain ⟨⟨hlo, ht⟩, hlim⟩ := h
  refine ⟨⟨hlo, ?_⟩, hlim⟩
  rw [Block.unmark_stop]
  exact ht

theorem fill_release {c : Block} {cs : List Block} (h : Fill lo (c :: cs) hi) :
    Fill lo (c.release :: cs) hi := by
  obtain ⟨⟨hlo, ht⟩, hlim⟩ := h
  refine ⟨⟨?_, ?_⟩, hlim⟩
  · rw [Block.release_start, hlo]
  · rw [Block.release_stop]
    exact ht

/-- Where the next block is merged, the addresses do not wrap. -/
theorem fill_seam {p c : Block} {cs : List Block} (h : Fill lo (p :: c :: cs) hi) :
    p.stop = c.release.start ∧ c.release.stop < 2 ^ 64 := by
  obtain ⟨⟨-, hseam, ht⟩, hlim⟩ := h
  have hle := tiles_le Block.start_lt_stop ht
  rw [Block.release_start, Block.release_stop]
  exact ⟨hseam.symm, by omega⟩

theorem fill_merge {p c : Block} {cs : List Block} (h : Fill lo (p :: c :: cs) hi) :
    Fill lo (p.merge c.release :: cs) hi := by
  obtain ⟨hseam, hstop⟩ := fill_seam h
  obtain ⟨⟨hlo, -, ht⟩, hlim⟩ := h
  refine ⟨⟨?_, ?_⟩, hlim⟩
  · rw [Block.merge_start, hlo]
  · rw [Block.merge_stop hseam hstop, Block.release_stop]
    exact ht

/-- A marked block stays, with its mark cleared. -/
theorem sweepBlocks_keeps (prev : Option Block) {bs : List Block} {b : Block} (hb : b ∈ bs)
    (hm : b.marked = true) : b.unmark ∈ sweepBlocks prev bs := by
  induction bs generalizing prev with
  | nil => simp at hb
  | cons c cs ih =>
    simp only [sweepBlocks]
    rcases List.mem_cons.mp hb with rfl | hb'
    · simp [hm]
    · split
      · have := ih none hb'
        simp [this]
      · cases prev with
        | none => exact ih _ hb'
        | some p => exact ih _ hb'

/-- Only marked blocks stay allocated, and no mark is left. -/
theorem sweepBlocks_alloc (prev : Option Block) {bs : List Block}
    (hprev : ∀ p ∈ prev, p.alloc = false ∧ p.marked = false) {b : Block}
    (hb : b ∈ sweepBlocks prev bs) :
    b.marked = false ∧ (b.alloc = true → ∃ c ∈ bs, c.marked = true ∧ b = c.unmark) := by
  induction bs generalizing prev with
  | nil =>
    simp only [sweepBlocks, Option.mem_toList] at hb
    obtain ⟨h1, h2⟩ := hprev b hb
    exact ⟨h2, fun h => by simp [h1] at h⟩
  | cons c cs ih =>
    have hmore : (b.alloc = true → ∃ c ∈ cs, c.marked = true ∧ b = c.unmark) →
        b.alloc = true → ∃ d ∈ c :: cs, d.marked = true ∧ b = d.unmark := by
      intro h ha
      obtain ⟨d, hd, h⟩ := h ha
      exact ⟨d, List.mem_cons_of_mem _ hd, h⟩
    simp only [sweepBlocks] at hb
    split at hb
    · rename_i hm
      rw [List.mem_append, List.mem_cons, Option.mem_toList] at hb
      rcases hb with hb | rfl | hb
      · obtain ⟨h1, h2⟩ := hprev b hb
        exact ⟨h2, fun h => by simp [h1] at h⟩
      · exact ⟨by simp, fun _ => ⟨c, by simp, hm, rfl⟩⟩
      · obtain ⟨h1, h2⟩ := ih none (by simp) hb
        exact ⟨h1, hmore h2⟩
    · rename_i hm
      have hm' : c.marked = false := by simpa using hm
      cases prev with
      | none =>
        obtain ⟨h1, h2⟩ := ih (some c.release) (by simp [hm']) hb
        exact ⟨h1, hmore h2⟩
      | some p =>
        have hp := hprev p rfl
        obtain ⟨h1, h2⟩ := ih (some (p.merge c.release)) (by simpa using hp) hb
        exact ⟨h1, hmore h2⟩

/-- The words of `b` belong to a free block of the list. -/
def Freed (b : Block) (bs : List Block) : Prop :=
  ∃ f ∈ bs, f.alloc = false ∧ f.start ≤ b.start ∧ b.stop ≤ f.stop

/-- An unmarked block is free, on its own or as a part of a merged block. -/
theorem sweepBlocks_frees (prev : Option Block) {bs : List Block}
    (h : Fill lo (prev.toList ++ bs) hi) (hprev : ∀ p ∈ prev, p.alloc = false) {b : Block}
    (hb : b ∈ prev ∨ b ∈ bs ∧ b.marked = false) : Freed b (sweepBlocks prev bs) := by
  induction bs generalizing lo prev b with
  | nil =>
    rcases hb with hb | ⟨hb, -⟩
    · exact ⟨b, by simpa [sweepBlocks] using hb, hprev b hb, le_rfl, le_rfl⟩
    · simp at hb
  | cons c cs ih =>
    simp only [sweepBlocks]
    split
    · rename_i hm
      obtain ⟨mid, hrest⟩ := fill_rest h
      rcases hb with hb | ⟨hb, hbm⟩
      · exact ⟨b, by simp [Option.mem_def.mp hb], hprev b hb, le_rfl, le_rfl⟩
      · rcases List.mem_cons.mp hb with rfl | hb'
        · simp [hm] at hbm
        · obtain ⟨f, hf, h⟩ := ih none hrest (by simp) (Or.inr ⟨hb', hbm⟩)
          exact ⟨f, by simp [hf], h⟩
    · cases prev with
      | none =>
        rcases hb with hb | ⟨hb, hbm⟩
        · simp at hb
        · rcases List.mem_cons.mp hb with rfl | hb'
          · obtain ⟨f, hf, h1, h2, h3⟩ := ih (some b.release) (b := b.release) (fill_release h)
              (by simp) (Or.inl rfl)
            exact ⟨f, hf, h1, by simpa using h2, by simpa using h3⟩
          · exact ih (some c.release) (fill_release h) (by simp) (Or.inr ⟨hb', hbm⟩)
      | some p =>
        obtain ⟨hseam, hlim⟩ := fill_seam h
        have hstop : (p.merge c.release).stop = c.stop := by
          rw [Block.merge_stop hseam hlim, Block.release_stop]
        have hfree : ∀ q ∈ some (p.merge c.release), q.alloc = false := by
          simpa using hprev p rfl
        -- `p` and `c` both lie inside the merged block.
        have hpart : p.start ≤ c.start ∧ p.stop ≤ c.stop := by
          have := p.start_lt_stop
          have := c.start_lt_stop
          rw [Block.release_start] at hseam
          omega
        obtain ⟨f, hf, hfa, hf1, hf2⟩ := ih (some (p.merge c.release)) (b := p.merge c.release)
          (fill_merge h) hfree (Or.inl rfl)
        rw [Block.merge_start] at hf1
        rw [hstop] at hf2
        rcases hb with hb | ⟨hb, hbm⟩
        · obtain rfl : p = b := by simpa using hb
          exact ⟨f, hf, hfa, hf1, le_trans hpart.2 hf2⟩
        · rcases List.mem_cons.mp hb with rfl | hb'
          · exact ⟨f, hf, hfa, le_trans hf1 hpart.1, hf2⟩
          · exact ih (some (p.merge c.release)) (fill_merge h) hfree (Or.inr ⟨hb', hbm⟩)

/-- The blocks that stay allocated are the marked ones, in their order. -/
theorem sweepBlocks_allocs (prev : Option Block) {bs : List Block}
    (hprev : ∀ p ∈ prev, p.alloc = false) (hmarks : ∀ b ∈ bs, b.marked = true → b.alloc = true) :
    (sweepBlocks prev bs).filter (·.alloc) = (bs.filter (·.marked)).map Block.unmark := by
  have hnone : ∀ p : Option Block, (∀ q ∈ p, q.alloc = false) →
      p.toList.filter (·.alloc) = [] := by
    intro p hp
    cases p with
    | none => rfl
    | some q => simp [hp q rfl]
  induction bs generalizing prev with
  | nil => exact hnone prev hprev
  | cons c cs ih =>
    obtain ⟨hc, hcs⟩ := List.forall_mem_cons.mp hmarks
    simp only [sweepBlocks]
    split
    · rename_i hm
      rw [List.filter_append, hnone prev hprev, List.filter_cons_of_pos (by simpa using hc hm),
        List.filter_cons_of_pos hm, List.map_cons, List.nil_append, ih none (by simp) hcs]
    · rename_i hm
      rw [List.filter_cons_of_neg hm]
      cases prev with
      | none => exact ih (some c.release) (by simp) hcs
      | some p => exact ih (some (p.merge c.release)) (by simpa using hprev p rfl) hcs

/-- Not both are free. -/
def Apart (b c : Block) : Prop := b.alloc = true ∨ c.alloc = true

/-- All neighbours have been merged. -/
theorem sweepBlocks_apart (prev : Option Block) {bs : List Block}
    (hmarks : ∀ b ∈ bs, b.marked = true → b.alloc = true) :
    (sweepBlocks prev bs).IsChain Apart := by
  induction bs generalizing prev with
  | nil => cases prev <;> simp [sweepBlocks]
  | cons c cs ih =>
    obtain ⟨hc, hcs⟩ := List.forall_mem_cons.mp hmarks
    simp only [sweepBlocks]
    split
    · rename_i hm
      have halloc : c.unmark.alloc = true := by simpa using hc hm
      have hrest : (c.unmark :: sweepBlocks none cs).IsChain Apart := by
        have hchain := ih none hcs
        rcases hl : sweepBlocks none cs with _ | ⟨d, ds⟩
        · exact .singleton _
        · exact List.isChain_cons_cons.mpr ⟨Or.inl halloc, hl ▸ hchain⟩
      cases prev with
      | none => exact hrest
      | some p => exact List.isChain_cons_cons.mpr ⟨Or.inr halloc, hrest⟩
    · cases prev with
      | none => exact ih _ hcs
      | some p => exact ih _ hcs

/-- The payload of the free blocks, in words. -/
def freeWords (bs : List Block) : Nat := ((bs.filter (!·.alloc)).map Block.size).sum

theorem freeWords_cons (c : Block) (cs : List Block) :
    freeWords (c :: cs) = (if c.alloc then 0 else c.size) + freeWords cs := by
  unfold freeWords
  rw [List.filter_cons]
  cases c.alloc <;> simp

theorem freeWords_append (xs ys : List Block) :
    freeWords (xs ++ ys) = freeWords xs + freeWords ys := by
  unfold freeWords
  rw [List.filter_append, List.map_append, List.sum_append]

/-- Free words lie in the range. -/
theorem freeWords_le {bs : List Block} (h : Fill lo bs hi) : lo + 8 * freeWords bs ≤ hi := by
  obtain ⟨ht, -⟩ := h
  induction bs generalizing lo with
  | nil =>
    obtain rfl : lo = hi := ht
    simp [freeWords]
  | cons c cs ih =>
    obtain ⟨rfl, ht⟩ := ht
    have := ih ht
    rw [freeWords_cons]
    unfold Block.stop at this
    split <;> omega

/-- What `words_freed` counts. -/
theorem sweepBlocks_words (prev : Option Block) {bs : List Block}
    (h : Fill lo (prev.toList ++ bs) hi) (hprev : ∀ p ∈ prev, p.alloc = false)
    (hmarks : ∀ b ∈ bs, b.marked = true → b.alloc = true) :
    freeWords (sweepBlocks prev bs) =
      freeWords (prev.toList ++ bs) + wordsFreed prev.isSome bs := by
  induction bs generalizing lo prev with
  | nil => simp [sweepBlocks, wordsFreed]
  | cons c cs ih =>
    obtain ⟨hc, hcs⟩ := List.forall_mem_cons.mp hmarks
    simp only [sweepBlocks, wordsFreed]
    split
    · rename_i hm
      obtain ⟨mid, hrest⟩ := fill_rest h
      have := ih none hrest (by simp) hcs
      rw [freeWords_append, freeWords_append, freeWords_cons, freeWords_cons, this]
      simp [hc hm]
      omega
    · cases prev with
      | none =>
        rw [ih (some c.release) (fill_release h) (by simp) hcs]
        simp only [Option.toList, List.cons_append, List.nil_append, freeWords_cons]
        cases c.alloc <;> simp [Nat.add_comm, Nat.add_left_comm]
      | some p =>
        have hp := hprev p rfl
        obtain ⟨hseam, hlim⟩ := fill_seam h
        rw [ih (some (p.merge c.release)) (fill_merge h) (by simpa using hp) hcs]
        simp only [Option.toList, List.cons_append, List.nil_append, freeWords_cons,
          Block.merge_alloc, hp, Block.merge_size hseam hlim, Block.release_size]
        cases c.alloc <;> simp <;> omega

end

end Cs720.Alloc
