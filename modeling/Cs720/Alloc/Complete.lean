import Cs720.Alloc.HeapRuns

/-! # When a request fails

A request of at least `BLOCK_SIZE` words that returns NULL leaves no free block that is large
enough, in a heap whose words an `int` can count. A smaller one never finds a block.
-/

namespace Cs720.Alloc

open Cs720.Lib

def Room (k : Nat) (bs : List Block) : Prop := ∃ b ∈ bs, b.alloc = false ∧ k ≤ b.size

/-- A request of `size` words fails only if no free block is large enough, before the collection and
after it. -/
def Complete (size : Word) : Prop :=
  ∀ (e : Env) (n : Nat) (finalize rsp rbp : Word) (s s' : State) (bs : List Block),
    HeapOk s.toStatics s.mem bs → HeadersSafe e s.toStatics →
    s.total_heap_size.toNat < 2 ^ 32 + 3 →
    memAllocate e n size finalize rsp rbp s = .ok (0, s') →
    ¬ Room size.toNat bs ∧ ∃ bs', HeapOk s'.toStatics s'.mem bs' ∧ ¬ Room size.toNat bs'

theorem room_cons (k : Nat) (c : Block) (cs : List Block) :
    Room k (c :: cs) ↔ (c.alloc = false ∧ k ≤ c.size) ∨ Room k cs := by
  unfold Room
  rw [List.exists_mem_cons_iff]

theorem room_append (k : Nat) (xs ys : List Block) :
    Room k (xs ++ ys) ↔ Room k xs ∨ Room k ys := by
  unfold Room
  simp only [List.mem_append, or_and_right, exists_or]

theorem room_markIn (k : Nat) (S : Set Word) (bs : List Block) :
    Room k (bs.map (markIn S)) ↔ Room k bs := by
  simp [Room]

/-! ## Freed words -/

/-- A sweep that frees nothing makes no room. -/
theorem room_of_none {k : Nat} (hk : 1 ≤ k) {prev : Option Block} {bs : List Block}
    (hfreed : wordsFreed prev.isSome bs = 0) (h : Room k (sweepBlocks prev bs)) :
    Room k prev.toList ∨ Room k bs := by
  induction bs generalizing prev with
  | nil => exact Or.inl h
  | cons c cs ih =>
    rw [wordsFreed] at hfreed
    simp only [sweepBlocks] at h
    rw [room_cons]
    split at h
    · rename_i hm
      rw [if_pos hm] at hfreed
      have hcs : wordsFreed (none : Option Block).isSome cs = 0 := hfreed
      rw [room_append, room_cons, Block.unmark_alloc] at h
      have hsize : c.unmark.size = c.size := by simp [Block.unmark, Block.size]
      rw [hsize] at h
      rcases h with h | h | h
      · exact Or.inl h
      · exact Or.inr (Or.inl h)
      · exact Or.inr (Or.inr ((ih hcs h).resolve_left (by simp [Room])))
    · rename_i hm
      rw [if_neg hm] at hfreed
      cases prev with
      | none =>
        have hcs : wordsFreed (some c.release).isSome cs = 0 := by
          rw [Option.isSome_some]
          omega
        rcases ih hcs h with h | h
        · obtain ⟨b, hb, -, hsize⟩ := h
          obtain rfl : b = c.release := by simpa using hb
          rw [Block.release_size] at hsize
          rcases ha : c.alloc with - | -
          · exact Or.inr (Or.inl ⟨rfl, hsize⟩)
          · rw [ha, if_pos rfl] at hfreed
            omega
        · exact Or.inr (Or.inr h)
      | some p =>
        -- A merge frees the words of a header.
        rw [Option.isSome_some, if_pos rfl] at hfreed
        omega

theorem wordsFreed_le (prev : Bool) (bs : List Block) :
    wordsFreed prev bs ≤ (bs.map fun c => c.size + 3).sum := by
  induction bs generalizing prev with
  | nil => simp [wordsFreed]
  | cons c cs ih =>
    have h1 := ih false
    have h2 := ih true
    rw [wordsFreed, List.map_cons, List.sum_cons]
    split
    · omega
    · split <;> split <;> omega

theorem tiles_words {lo hi : Nat} {bs : List Block} (h : Tiles Block.start Block.stop lo bs hi) :
    lo + 8 * (bs.map fun c => c.size + 3).sum = hi := by
  induction bs generalizing lo with
  | nil => exact h
  | cons c cs ih =>
    obtain ⟨rfl, h⟩ := h
    have := ih h
    rw [List.map_cons, List.sum_cons]
    unfold Block.stop at this
    omega

/-- The header of the first block is never freed. -/
theorem wordsFreed_bound {lo hi : Nat} {bs : List Block}
    (h : Tiles Block.start Block.stop lo bs hi) :
    wordsFreed false bs = 0 ∨ lo + 8 * (wordsFreed false bs + 3) ≤ hi := by
  cases bs with
  | nil => exact Or.inl rfl
  | cons c cs =>
    have hwords := tiles_words h
    have h1 := wordsFreed_le false cs
    have h2 := wordsFreed_le true cs
    rw [List.map_cons, List.sum_cons] at hwords
    rw [wordsFreed]
    right
    split
    · omega
    · rw [if_neg Bool.false_ne_true]
      split <;> omega

/-- The `int` that holds the number of freed words is 0 only if they are. -/
theorem freed_zero {bs : List Block} {lo hi : Nat} (h : Tiles Block.start Block.stop lo bs hi)
    (hfew : hi < lo + 8 * (2 ^ 32 + 3))
    (hzero : (BitVec.ofNat 64 (wordsFreed false bs)).setWidth 32 = 0#32) :
    wordsFreed false bs = 0 := by
  have hbound := wordsFreed_bound h
  rw [← BitVec.toNat_inj, BitVec.toNat_setWidth, BitVec.toNat_ofNat] at hzero
  change _ = 0 at hzero
  omega

/-! ## The fit test -/

section
variable {size : Word} {bs : List Block}

theorem fits_of_room {b : Block} (h3 : 3 ≤ size.toNat) (ha : b.alloc = false)
    (hb : size.toNat ≤ b.size) : fits size b = true := by
  have hsub : (size - BLOCK_SIZE).toNat = size.toNat - 3 := by
    rw [BitVec.toNat_sub_of_le h3]
    rfl
  have hle : size - BLOCK_SIZE ≤ b.info &&& SIZE_MASK := by
    rw [BitVec.le_def, hsub]
    change size.toNat - 3 ≤ b.size
    omega
  unfold fits
  simp [hle, ha]

theorem room_firstFit (h3 : 3 ≤ size.toNat) (h : firstFit size bs = none) :
    ¬ Room size.toNat bs := by
  rintro ⟨b, hb, ha, hsize⟩
  exact List.find?_eq_none.mp h b hb (fits_of_room h3 ha hsize)

end

/-! ## The request -/

theorem payload_nonnull {g : Statics} {m : Mem} {bs : List Block} (hok : HeapOk g m bs) {b : Block}
    (hb : b ∈ bs) : b.addr + 24 ≠ 0 := by
  intro h0
  have hstop := (fill_bounds hok.fill hb).2.2
  unfold Block.stop Block.start at hstop
  bv_omega

section
variable {e : Env} {n : Nat} {size finalize rsp rbp : Word} {s s' : State} {bs : List Block}

/-- The collection that a failed request has run, and why the request failed after it. -/
theorem memAllocate_null (hok : HeapOk s.toStatics s.mem bs) (hsafe : HeadersSafe e s.toStatics)
    (h : memAllocate e n size finalize rsp rbp s = .ok (0, s')) :
    firstFit size bs = none ∧ ∃ S r,
      Collects e n { s with stack_top := rsp, frame_bottom := rbp } bs S s' r ∧
        (r = 0 ∨ firstFit size (collected bs S) = none) := by
  generalize h0 : (0 : Word) = ptr at h
  cases memAllocate_serves hok hsafe h with
  | first hb => exact absurd h0.symm (payload_nonnull hok (firstFit_free hb).1)
  | full hnone hS hr => exact ⟨hnone, _, _, hS, hr⟩
  | second hnone hS hb => exact absurd h0.symm (payload_nonnull hS.heap (firstFit_free hb).1)

/-- A request of three words or more that fails has found no room, and has made none. -/
theorem memAllocate_room (hok : HeapOk s.toStatics s.mem bs) (hsafe : HeadersSafe e s.toStatics)
    (hfew : s.total_heap_size.toNat < 2 ^ 32 + 3) (h3 : 3 ≤ size.toNat)
    (h : memAllocate e n size finalize rsp rbp s = .ok (0, s')) :
    ¬ Room size.toNat bs ∧ ∃ bs', HeapOk s'.toStatics s'.mem bs' ∧ ¬ Room size.toNat bs' := by
  obtain ⟨hnone, S, r, hS, hr⟩ := memAllocate_null hok hsafe h
  have hbefore : ¬ Room size.toNat bs := room_firstFit h3 hnone
  refine ⟨hbefore, collected bs S, hS.heap, ?_⟩
  rcases hr with hr | hr
  · have htiles := (heapOk_marks hok hS.on_blocks).fill.1
    rw [hS.freed] at hr
    have hzero : wordsFreed (none : Option Block).isSome (bs.map (markIn S)) = 0 :=
      freed_zero htiles (by omega) hr
    intro hroom
    have hroom' := (room_of_none (by omega) hzero hroom).resolve_left (by simp [Room])
    exact hbefore ((room_markIn _ S bs).mp hroom')
  · exact room_firstFit h3 hr

end

/-- `size - BLOCK_SIZE` wraps for the sizes below `BLOCK_SIZE`, and nothing else goes wrong. -/
theorem memAllocate_complete_iff (size : Word) : Complete size ↔ 3 ≤ size.toNat := by
  constructor
  · intro h
    by_contra h3
    have hroom : Room size.toNat [⟨0x1000, 9, 0⟩] :=
      ⟨_, List.mem_singleton_self _, by decide, Nat.le_trans (by omega) (by decide : 2 ≤ _)⟩
    have hcall : memAllocate quiet 12 size 0 0 0 twelve = .ok (0, twelve) := by
      obtain rfl | rfl | rfl : size = 0 ∨ size = 1 ∨ size = 2 := by bv_omega
      all_goals rfl
    exact (h _ _ _ _ _ _ _ _ twelve_ok (fun _ _ _ h _ => h) (by decide) hcall).1 hroom
  · intro h3 e n finalize rsp rbp s s' bs hok hsafe hfew h
    exact memAllocate_room hok hsafe hfew h3 h

/-! ### Requests in the heap of twelve words -/

/-- A request of a hundred words fails, for want of room. -/
theorem heap_refuses_hundred : ∃ s bs, memAllocate quiet 12 100 0 0 0 twelve = .ok (0, s) ∧
    HeapOk s.toStatics s.mem bs ∧ ¬ Room 100 bs := by
  have hcall : memAllocate quiet 12 100 0 0 0 twelve = .ok (0, twelve) := rfl
  obtain ⟨-, bs', hok', hno⟩ := (memAllocate_complete_iff 100).mpr (by decide) _ _ _ _ _ _ _ _
    twelve_ok (fun _ _ _ h _ => h) (by decide) hcall
  exact ⟨twelve, bs', hcall, hok', hno⟩

/-- A request of one word fails, and the nine words of the heap stay free. -/
theorem heap_refuses_one : ∃ s, memAllocate quiet 12 1 0 0 0 twelve = .ok (0, s) ∧
    HeapOk twelve.toStatics twelve.mem [⟨0x1000, 9, 0⟩] ∧ Room 1 [⟨0x1000, 9, 0⟩] ∧
    HeapOk s.toStatics s.mem [⟨0x1000, 9, 0⟩] :=
  ⟨twelve, rfl, twelve_ok, ⟨_, List.mem_singleton_self _, by decide, by decide⟩, twelve_ok⟩

end Cs720.Alloc
