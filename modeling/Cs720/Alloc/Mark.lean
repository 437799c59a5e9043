import Cs720.Alloc.Blocks

/-! # The mark phase

A chase marks at most one block, and `Chased` says which. The rest follows from it: what a pass over
the roots or over the heap marks, and that after the last pass no chase from the heap marks
anything.
-/

namespace Cs720.Alloc

open Cs720.Lib

section
variable (e : Env) (g : Statics) (bs : List Block)

/-- The block that `getBlock` finds for an address in the heap. -/
def owner (w : Word) : Word := locate g.heap bs w

/-- In `m`, `getBlock` finds the blocks of the list. -/
def Finds (m : Mem) : Prop :=
  ∀ n w r, inHeapRange g w = true → getBlock g n m w = .ok r → r = owner g bs w

/-- The chase goes on through the block: it is marked already, or free. -/
def Passes (m : Mem) (b : Word) : Prop := isMarked (m b) = true ∨ isAlloc (m b) = false

/-- In at most `k` steps from `w`, the chase comes to the block `b` and marks it. -/
inductive Chased (m : Mem) : Nat → Word → Word → Prop
  | mark {k : Nat} {w : Word} : w ≠ 0 → inHeapRange g w = true → owner g bs w ≠ 0 →
      ¬ Passes m (owner g bs w) → Chased m (k + 1) w (owner g bs w)
  | through {k : Nat} {w b : Word} : w ≠ 0 → inHeapRange g w = true → owner g bs w ≠ 0 →
      Passes m (owner g bs w) → Chased m k (readLong m w) b → Chased m (k + 1) w b
  | static {k : Nat} {w b : Word} : w ≠ 0 → inHeapRange g w = false →
      (inGlobalRange e w || inStackRange g w) = true → Chased m k (readLong m w) b →
      Chased m (k + 1) w b

/-- In at most `k` steps from `w`, the chase comes to an address of the heap where `getBlock` finds
no block. -/
inductive Stuck (m : Mem) : Nat → Word → Prop
  | here {k : Nat} {w : Word} : w ≠ 0 → inHeapRange g w = true → owner g bs w = 0 → Stuck m (k + 1) w
  | through {k : Nat} {w : Word} : w ≠ 0 → inHeapRange g w = true → owner g bs w ≠ 0 →
      Passes m (owner g bs w) → Stuck m k (readLong m w) → Stuck m (k + 1) w
  | static {k : Nat} {w : Word} : w ≠ 0 → inHeapRange g w = false →
      (inGlobalRange e w || inStackRange g w) = true → Stuck m k (readLong m w) → Stuck m (k + 1) w

variable {e g bs}

theorem passes_iff (m : Mem) (b : Word) :
    (!isMarked (m b) && isAlloc (m b)) = true ↔ ¬ Passes m b := by
  unfold Passes
  cases isMarked (m b) <;> cases isAlloc (m b) <;> simp

theorem chased_unique {m : Mem} {k j : Nat} {w b c : Word} (hb : Chased e g bs m k w b)
    (hc : Chased e g bs m j w c) : b = c := by
  induction hb generalizing j with
  | mark _ hheap _ hpass =>
    cases hc with
    | mark => rfl
    | through => contradiction
    | static _ hnot => simp [hheap] at hnot
  | through _ hheap _ hpass _ ih =>
    cases hc with
    | mark => contradiction
    | through _ _ _ _ hc => exact ih hc
    | static _ hnot => simp [hheap] at hnot
  | static _ hnot _ _ ih =>
    cases hc with
    | mark _ hheap => simp [hheap] at hnot
    | through _ hheap => simp [hheap] at hnot
    | static _ _ _ hc => exact ih hc

/-! ## One chase -/

/-- Steps 1a and 1b. -/
theorem chaseRoot_spec {m m' : Mem} {n k : Nat} {w : Word} {ignored : Mem → Bool}
    (hok : Finds g bs m) (hr : chaseRoot e g n ignored k w m = .ok m') :
    (m' = m ∧ (ignored m = false → ∀ b, ¬ Chased e g bs m k w b)) ∨
      ∃ b, ignored m = false ∧ Chased e g bs m k w b ∧ m' = m.set b (m b ||| MARK_BIT) := by
  induction k generalizing w with
  | zero =>
    obtain rfl : m = m' := by simpa [chaseRoot] using hr
    exact Or.inl ⟨rfl, fun _ b h => by cases h⟩
  | succ k ih =>
    unfold chaseRoot at hr
    by_cases h0 : w = 0
    · rw [if_pos h0] at hr
      cases hr
      refine Or.inl ⟨rfl, fun _ b h => ?_⟩
      cases h <;> contradiction
    rw [if_neg h0] at hr
    by_cases hheap : inHeapRange g w = true
    · rw [if_pos hheap, bind_ok] at hr
      obtain ⟨r, hblock, hr⟩ := hr
      obtain rfl : r = owner g bs w := hok n w r hheap hblock
      by_cases hig : ignored m = true
      · rw [if_pos hig] at hr
        cases hr
        exact Or.inl ⟨rfl, fun h => by simp [hig] at h⟩
      rw [if_neg hig] at hr
      have hig' : ignored m = false := by simpa using hig
      by_cases hnull : owner g bs w = 0
      · rw [if_pos hnull] at hr
        cases hr
      rw [if_neg hnull] at hr
      by_cases hpass : Passes m (owner g bs w)
      · rw [if_neg (by rw [passes_iff]; exact not_not.mpr hpass)] at hr
        rcases ih hr with ⟨rfl, h⟩ | ⟨b, -, h, hm⟩
        · refine Or.inl ⟨rfl, fun hi b hc => ?_⟩
          cases hc with
          | mark => contradiction
          | through _ _ _ _ hc => exact h hi b hc
          | static _ hnot => simp [hheap] at hnot
        · exact Or.inr ⟨b, hig', .through h0 hheap hnull hpass h, hm⟩
      · rw [if_pos ((passes_iff m _).mpr hpass)] at hr
        cases hr
        exact Or.inr ⟨owner g bs w, hig', .mark h0 hheap hnull hpass, rfl⟩
    rw [if_neg hheap] at hr
    have hheap' : inHeapRange g w = false := by simpa using hheap
    by_cases hst : (inGlobalRange e w || inStackRange g w) = true
    · rw [if_pos hst] at hr
      rcases ih hr with ⟨rfl, h⟩ | ⟨b, hi, h, hm⟩
      · refine Or.inl ⟨rfl, fun hi b hc => ?_⟩
        cases hc with
        | mark => contradiction
        | through => contradiction
        | static _ _ _ hc => exact h hi b hc
      · exact Or.inr ⟨b, hi, .static h0 hheap' hst h, hm⟩
    · -- No range holds `w`: the loop spends its iterations and leaves.
      rw [if_neg hst] at hr
      rcases ih hr with ⟨rfl, h⟩ | ⟨b, hi, h, hm⟩
      · refine Or.inl ⟨rfl, fun hi b hc => ?_⟩
        cases hc <;> contradiction
      · exfalso
        cases h <;> contradiction

/-- What one iteration of the chase in step 1c does. -/
theorem chaseHeapStep_cases {m : Mem} {n : Nat} {w : Word} {any : Bool}
    {f : Flow (Word × Bool × Mem) (Bool × Mem)} (hok : Finds g bs m)
    (h : chaseHeapStep e g n (w, any, m) = .ok f) :
    (w = 0 ∧ f = .done (any, m)) ∨
    (w ≠ 0 ∧ inHeapRange g w = true ∧ owner g bs w ≠ 0 ∧ ¬ Passes m (owner g bs w) ∧
      f = .next (0, true, m.set (owner g bs w) (m (owner g bs w) ||| MARK_BIT))) ∨
    (w ≠ 0 ∧ inHeapRange g w = true ∧ owner g bs w ≠ 0 ∧ Passes m (owner g bs w) ∧
      f = .next (readLong m w, any, m)) ∨
    (w ≠ 0 ∧ inHeapRange g w = false ∧ (inGlobalRange e w || inStackRange g w) = true ∧
      f = .next (readLong m w, any, m)) ∨
    (w ≠ 0 ∧ inHeapRange g w = false ∧ (inGlobalRange e w || inStackRange g w) = false ∧
      f = .next (0, any, m)) := by
  rw [chaseHeapStep] at h
  by_cases h0 : w = 0
  · rw [if_pos h0] at h
    cases h
    exact Or.inl ⟨h0, rfl⟩
  rw [if_neg h0] at h
  by_cases hheap : inHeapRange g w = true
  · rw [if_pos hheap, bind_ok] at h
    obtain ⟨r, hblock, h⟩ := h
    obtain rfl : r = owner g bs w := hok n w r hheap hblock
    by_cases hnull : owner g bs w = 0
    · rw [if_pos hnull] at h
      cases h
    rw [if_neg hnull] at h
    by_cases hpass : Passes m (owner g bs w)
    · rw [if_neg (by rw [passes_iff]; exact not_not.mpr hpass)] at h
      cases h
      exact Or.inr (Or.inr (Or.inl ⟨h0, hheap, hnull, hpass, rfl⟩))
    · rw [if_pos ((passes_iff m _).mpr hpass)] at h
      cases h
      exact Or.inr (Or.inl ⟨h0, hheap, hnull, hpass, rfl⟩)
  rw [if_neg hheap] at h
  rw [Bool.not_eq_true] at hheap
  split at h
  · rename_i hst
    cases h
    exact Or.inr (Or.inr (Or.inr (Or.inl ⟨h0, hheap, hst, rfl⟩)))
  · rename_i hst
    cases h
    exact Or.inr (Or.inr (Or.inr (Or.inr ⟨h0, hheap, by simpa using hst, rfl⟩)))

/-- A chase that comes to 0 is over. -/
theorem chaseHeap_zero {m : Mem} {n k : Nat} {any : Bool} {r : Bool × Mem}
    (h : loop (chaseHeapStep e g n) k (0, any, m) = .ok r) : r = (any, m) := by
  have hb : chaseHeapStep e g n (0, any, m) = .ok (.done (any, m)) := by
    rw [chaseHeapStep, if_pos rfl]
  exact loop_of_done hb h

/-- Step 1c. -/
theorem chaseHeap_spec {m m' : Mem} {n k : Nat} {w : Word} {any any' : Bool}
    (hok : Finds g bs m) (hr : loop (chaseHeapStep e g n) k (w, any, m) = .ok (any', m')) :
    (m' = m ∧ any' = any ∧ ∀ i b, ¬ Chased e g bs m i w b) ∨
      ∃ i b, Chased e g bs m i w b ∧ any' = true ∧ m' = m.set b (m b ||| MARK_BIT) := by
  induction k generalizing w with
  | zero => simp [loop] at hr
  | succ k ih =>
    have hnone : ∀ {i b}, Chased e g bs m i w b → w ≠ 0 ∧
        (inHeapRange g w = true ∨ (inGlobalRange e w || inStackRange g w) = true) := by
      intro i b hc
      cases hc with
      | mark h0 hheap => exact ⟨h0, Or.inl hheap⟩
      | through h0 hheap => exact ⟨h0, Or.inl hheap⟩
      | static h0 _ hst => exact ⟨h0, Or.inr hst⟩
    rcases loop_cases hr with ⟨j, s', hj, hb, hl⟩ | hb
    · obtain rfl : k = j := by omega
      rcases chaseHeapStep_cases hok hb with ⟨-, hf⟩ | ⟨h0, hheap, hnull, hpass, hf⟩ |
        ⟨h0, hheap, hnull, hpass, hf⟩ | ⟨h0, hnot, hst, hf⟩ | ⟨h0, hnot, hst, hf⟩
      · cases hf
      · cases hf
        cases chaseHeap_zero hl
        exact Or.inr ⟨1, owner g bs w, .mark h0 hheap hnull hpass, rfl, rfl⟩
      · cases hf
        rcases ih hl with ⟨rfl, ha, h⟩ | ⟨i, b, h, ha, hm⟩
        · refine Or.inl ⟨rfl, ha, fun i b hc => ?_⟩
          cases hc with
          | mark => contradiction
          | through _ _ _ _ hc => exact h _ b hc
          | static _ hnot => simp [hheap] at hnot
        · exact Or.inr ⟨i + 1, b, .through h0 hheap hnull hpass h, ha, hm⟩
      · cases hf
        rcases ih hl with ⟨rfl, ha, h⟩ | ⟨i, b, h, ha, hm⟩
        · refine Or.inl ⟨rfl, ha, fun i b hc => ?_⟩
          cases hc with
          | mark _ hheap => simp [hnot] at hheap
          | through _ hheap => simp [hnot] at hheap
          | static _ _ _ hc => exact h _ b hc
        · exact Or.inr ⟨i + 1, b, .static h0 hnot hst h, ha, hm⟩
      · cases hf
        cases chaseHeap_zero hl
        refine Or.inl ⟨rfl, rfl, fun i b hc => ?_⟩
        have := (hnone hc).2
        rw [hnot, hst] at this
        simp at this
    · rcases chaseHeapStep_cases hok hb with ⟨h0, hf⟩ | ⟨-, -, -, -, hf⟩ | ⟨-, -, -, -, hf⟩ |
        ⟨-, -, -, hf⟩ | ⟨-, -, -, hf⟩
      · cases hf
        exact Or.inl ⟨rfl, rfl, fun i b hc => (hnone hc).1 h0⟩
      all_goals cases hf

/-- If the word is in the heap, `getBlock` finds a block for it. -/
def Lands (g : Statics) (bs : List Block) (w : Word) : Prop :=
  w ≠ 0 → inHeapRange g w = true → owner g bs w ≠ 0

theorem lands_of_not_stuck {m : Mem} {k : Nat} {w : Word} (h : ¬ Stuck e g bs m (k + 1) w) :
    Lands g bs w :=
  fun h0 hheap hnull => h (.here h0 hheap hnull)

/-- Where a chase of steps 1a and 1b goes on, and where it does not. -/
theorem not_stuck_dead {m : Mem} {k : Nat} {w : Word} (hheap : inHeapRange g w = false)
    (hst : ¬ (inGlobalRange e w || inStackRange g w) = true) : ¬ Stuck e g bs m k w := by
  intro h
  cases h with
  | here _ h => simp [hheap] at h
  | through _ h => simp [hheap] at h
  | static _ _ h => exact hst h

theorem chaseRoot_passes {m m' : Mem} {n k : Nat} {w : Word} {ignored : Mem → Bool}
    (hok : Finds g bs m) (hr : chaseRoot e g n ignored k w m = .ok m')
    (hig : ignored m = false) : ¬ Stuck e g bs m k w := by
  intro h
  induction h with
  | @here k w h0 hheap hnull =>
    rw [chaseRoot, if_neg h0, if_pos hheap, bind_ok] at hr
    obtain ⟨r, hblock, hr⟩ := hr
    obtain rfl : r = owner g bs w := hok n w r hheap hblock
    rw [if_neg (by simp [hig]), if_pos hnull] at hr
    cases hr
  | @through k w h0 hheap hnull hpass _ ih =>
    rw [chaseRoot, if_neg h0, if_pos hheap, bind_ok] at hr
    obtain ⟨r, hblock, hr⟩ := hr
    obtain rfl : r = owner g bs w := hok n w r hheap hblock
    rw [if_neg (by simp [hig]), if_neg hnull,
      if_neg (by rw [passes_iff]; exact not_not.mpr hpass)] at hr
    exact ih hr
  | static h0 hheap hst _ ih =>
    rw [chaseRoot, if_neg h0, if_neg (by simp [hheap]), if_pos hst] at hr
    exact ih hr

/-- A chase with bounded iterations comes back, unless it gets stuck. -/
theorem chaseRoot_comes {m : Mem} {n k : Nat} {w : Word} {ignored : Mem → Bool}
    (hget : ∀ w, inHeapRange g w = true → getBlock g n m w = .ok (owner g bs w)) :
    Comes (ignored m = false → ¬ Stuck e g bs m k w) (chaseRoot e g n ignored k w m) := by
  induction k generalizing w with
  | zero => exact comes_ok _ _
  | succ k ih =>
    unfold chaseRoot
    by_cases h0 : w = 0
    · rw [if_pos h0]
      exact comes_ok _ _
    rw [if_neg h0]
    by_cases hheap : inHeapRange g w = true
    · rw [if_pos hheap, hget w hheap]
      by_cases hig : ignored m = true
      · exact .of_eq (if_pos hig) (comes_ok _ _)
      by_cases hnull : owner g bs w = 0
      · exact .of_eq ((if_neg hig).trans (if_pos hnull))
          (comes_error (by simp) fun h => h (by simpa using hig) (.here h0 hheap hnull))
      by_cases hpass : Passes m (owner g bs w)
      · refine .of_eq ((if_neg hig).trans ((if_neg hnull).trans (if_neg ?_)))
          (ih.mono fun h hi hs => h hi (.through h0 hheap hnull hpass hs))
        rw [passes_iff]
        exact not_not.mpr hpass
      · exact .of_eq ((if_neg hig).trans ((if_neg hnull).trans
          (if_pos ((passes_iff m _).mpr hpass)))) (comes_ok _ _)
    rw [if_neg hheap]
    split
    · rename_i hst
      exact ih.mono fun h hi hs => h hi (.static h0 (by simpa using hheap) hst hs)
    · rename_i hst
      exact ih.mono fun _ _ => not_stuck_dead (by simpa using hheap) hst

theorem chaseHeap_lands {m : Mem} {n k : Nat} {w : Word} {any : Bool} {r : Bool × Mem}
    (hok : Finds g bs m) (hr : loop (chaseHeapStep e g n) k (w, any, m) = .ok r) :
    Lands g bs w := by
  intro h0 hheap hnull
  have hstep : ∀ f, chaseHeapStep e g n (w, any, m) ≠ .ok f := by
    intro f hf
    rcases chaseHeapStep_cases hok hf with ⟨h, -⟩ | ⟨-, -, h, -⟩ | ⟨-, -, h, -⟩ | ⟨-, h, -⟩ |
      ⟨-, h, -⟩
    · exact h0 h
    · exact h hnull
    · exact h hnull
    · rw [hheap] at h; contradiction
    · rw [hheap] at h; contradiction
  rcases loop_cases hr with ⟨_, _, -, hb, -⟩ | hb
  · exact hstep _ hb
  · exact hstep _ hb

/-! ## Memory with a set of blocks marked -/

open Classical in
noncomputable def marks (m : Mem) (S : Set Word) : Mem :=
  fun a => if a ∈ S then m a ||| MARK_BIT else m a

open Classical in
noncomputable def markIn (S : Set Word) (b : Block) : Block :=
  if b.addr ∈ S then { b with info := b.info ||| MARK_BIT } else b

theorem marks_of_mem (m : Mem) {S : Set Word} {a : Word} (h : a ∈ S) :
    marks m S a = m a ||| MARK_BIT := by
  simp [marks, h]

theorem marks_of_notMem (m : Mem) {S : Set Word} {a : Word} (h : a ∉ S) : marks m S a = m a := by
  simp [marks, h]

@[simp] theorem marks_empty (m : Mem) : marks m ∅ = m := by
  funext a
  exact marks_of_notMem m (by simp)

/-- Marking one more block. -/
theorem marks_set (m : Mem) (S : Set Word) (b : Word) :
    (marks m S).set b (marks m S b ||| MARK_BIT) = marks m (S ∪ {b}) := by
  funext a
  by_cases hab : a = b
  · subst hab
    rw [set_self, marks_of_mem m (S := S ∪ {a}) (by simp)]
    by_cases ha : a ∈ S
    · rw [marks_of_mem m ha, BitVec.or_assoc, BitVec.or_self]
    · rw [marks_of_notMem m ha]
  · rw [set_ne _ _ hab]
    by_cases ha : a ∈ S
    · rw [marks_of_mem m ha, marks_of_mem m (by simp [ha])]
    · rw [marks_of_notMem m ha, marks_of_notMem m (by simp [ha, hab])]

@[simp] theorem isAlloc_marks (m : Mem) (S : Set Word) (a : Word) :
    isAlloc (marks m S a) = isAlloc (m a) := by
  unfold marks
  split <;> simp

theorem isMarked_marks (m : Mem) (S : Set Word) (a : Word) :
    isMarked (marks m S a) = true ↔ a ∈ S ∨ isMarked (m a) = true := by
  unfold marks
  split <;> simp [*]

@[simp] theorem markIn_addr (S : Set Word) (b : Block) : (markIn S b).addr = b.addr := by
  unfold markIn
  split <;> rfl

@[simp] theorem markIn_finalizer (S : Set Word) (b : Block) :
    (markIn S b).finalizer = b.finalizer := by
  unfold markIn
  split <;> rfl

@[simp] theorem markIn_size (S : Set Word) (b : Block) : (markIn S b).size = b.size := by
  unfold markIn Block.size
  split <;> simp

@[simp] theorem markIn_alloc (S : Set Word) (b : Block) : (markIn S b).alloc = b.alloc := by
  unfold markIn Block.alloc
  split <;> simp

theorem markIn_marked (S : Set Word) (b : Block) :
    (markIn S b).marked = true ↔ b.addr ∈ S ∨ b.marked = true := by
  unfold markIn Block.marked
  split <;> simp [*]

@[simp] theorem markIn_stop (S : Set Word) (b : Block) : (markIn S b).stop = b.stop := by
  simp [Block.stop, Block.start]

/-- `S` holds addresses of allocated blocks. -/
def OnBlocks (bs : List Block) (S : Set Word) : Prop :=
  ∀ a ∈ S, ∃ b ∈ bs, b.addr = a ∧ b.alloc = true

theorem heapOk_marks {m : Mem} {S : Set Word} (hok : HeapOk g m bs) (hS : OnBlocks bs S) :
    HeapOk g (marks m S) (bs.map (markIn S)) := by
  refine ⟨hok.initialized, hok.aligned, hok.nonnull, ?_, ?_, hok.fill.2⟩
  · apply linked_map _ _ hok.linked
    intro b hb
    have hlink : ∀ a ∈ S, b.addr + 8 ≠ a ∧ b.addr + 16 ≠ a := by
      intro a ha
      obtain ⟨c, hc, rfl, -⟩ := hS a ha
      exact addr_ne_link hok.fill hb hc
    refine ⟨by simp, by simp, ?_, marks_of_notMem m fun h => (hlink _ h).1 rfl,
      marks_of_notMem m fun h => (hlink _ h).2 rfl⟩
    intro hbi
    by_cases hbS : b.addr ∈ S
    · simp [marks, markIn, hbS, hbi]
    · simp [marks, markIn, hbS, hbi]
  · rw [tiles_map fun b _ => ⟨by simp [Block.start], by simp⟩]
    exact hok.fill.1

theorem locate_map (f : Block → Block) (hf : ∀ b, (f b).addr = b.addr) (prev w : Word)
    (bs : List Block) : locate prev (bs.map f) w = locate prev bs w := by
  induction bs generalizing prev with
  | nil => rfl
  | cons b bs ih => simp only [List.map_cons, locate, hf, ih]

theorem finds_marks {m : Mem} {S : Set Word} (hok : HeapOk g m bs) (hS : OnBlocks bs S) :
    Finds g bs (marks m S) := by
  intro n w r hheap hr
  rw [getBlock_eq (heapOk_marks hok hS) hheap hr, owner, locate_map _ (markIn_addr S)]

/-- A block that `getBlock` finds is on the list. -/
theorem owner_mem {m : Mem} (hok : HeapOk g m bs) {w : Word} (h0 : owner g bs w ≠ 0) :
    ∃ b ∈ bs, b.addr = owner g bs w := by
  rcases locate_owner hok.fill h0 with ⟨h, -⟩ | ⟨b, hb, h, -⟩
  · obtain ⟨b, rest, rfl, hb⟩ := heap_cons hok
    exact ⟨b, by simp, by rw [hb, owner, h]⟩
  · exact ⟨b, hb, h.symm⟩

theorem linked_info {m : Mem} {p : Word} (h : Linked m p bs) {b : Block} (hb : b ∈ bs) :
    m b.addr = b.info := (linked_block h hb).2.1

/-- What a chase marks is allocated. -/
theorem chased_block {m : Mem} {S : Set Word} (hok : HeapOk g m bs) {k : Nat} {w b : Word}
    (h : Chased e g bs (marks m S) k w b) : ∃ c ∈ bs, c.addr = b ∧ c.alloc = true := by
  induction h with
  | mark _ _ hnull hpass =>
    obtain ⟨c, hc, ha⟩ := owner_mem hok hnull
    refine ⟨c, hc, ha, ?_⟩
    unfold Passes at hpass
    rw [not_or, isAlloc_marks, ← ha, linked_info hok.linked hc] at hpass
    simpa [Block.alloc] using hpass.2
  | through _ _ _ _ _ ih => exact ih
  | static _ _ _ _ ih => exact ih

end

end Cs720.Alloc
