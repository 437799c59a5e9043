import Cs720.Lib.Segment
import Cs720.Lib.Tiling
import Cs720.Alloc.Code

/-! # The block list of a heap -/

namespace Cs720.Alloc

open Cs720.Lib

/-- A block header, apart from its link. -/
structure Block where
  addr : Word
  info : Word
  finalizer : Word
  deriving DecidableEq

namespace Block

/-- Payload words. -/
def size (b : Block) : Nat := (b.info &&& SIZE_MASK).toNat

def start (b : Block) : Nat := b.addr.toNat

/-- The address just past the payload. -/
def stop (b : Block) : Nat := b.start + 24 + 8 * b.size

def alloc (b : Block) : Bool := isAlloc b.info

def marked (b : Block) : Bool := isMarked b.info

theorem start_lt_stop (b : Block) : b.start < b.stop := by
  unfold stop
  omega

end Block

def Holds (m : Mem) (p : Word) (b : Block) : Prop :=
  p = b.addr ∧ m p = b.info ∧ finalizerOf m p = b.finalizer

def Linked (m : Mem) (p : Word) (bs : List Block) : Prop := Seg 0 (Holds m) (next m) p bs 0

/-- The blocks fill `[lo, hi)`, and addresses up to `hi` do not wrap. -/
def Fill (lo : Nat) (bs : List Block) (hi : Nat) : Prop :=
  Tiles Block.start Block.stop lo bs hi ∧ hi < 2 ^ 64

theorem linked_unique {m : Mem} {p : Word} {xs ys : List Block} (hx : Linked m p xs)
    (hy : Linked m p ys) : xs = ys := by
  apply seg_unique _ hx hy
  rintro r ⟨a, i, f⟩ ⟨a', i', f'⟩ ⟨h1, h2, h3⟩ ⟨h4, h5, h6⟩
  simp only at h1 h2 h3 h4 h5 h6
  simp [← h1, ← h4, ← h2, ← h5, ← h3, ← h6]

theorem linked_block {m : Mem} {p : Word} {bs : List Block} (h : Linked m p bs) {b : Block}
    (hb : b ∈ bs) : b.addr ≠ 0 ∧ m b.addr = b.info ∧ finalizerOf m b.addr = b.finalizer := by
  obtain ⟨_, h0, rfl, hinfo, hfinalizer⟩ := seg_mem h hb
  exact ⟨h0, hinfo, hfinalizer⟩

/-! ## Header words -/

/-- The word at `a` is one of the three header words of `b`. -/
def Header (b : Block) (a : Word) : Prop := a = b.addr ∨ a = b.addr + 8 ∨ a = b.addr + 16

theorem header_range {b : Block} {a : Word} (h : Header b a) (hb : b.stop < 2 ^ 64) :
    b.start ≤ a.toNat ∧ a.toNat + 8 ≤ b.start + 24 := by
  unfold Block.stop Block.start at *
  rcases h with rfl | rfl | rfl
  · omega
  · bv_omega
  · bv_omega

section
variable {lo hi : Nat} {bs : List Block}

theorem fill_bounds (h : Fill lo bs hi) {b : Block} (hb : b ∈ bs) :
    lo ≤ b.start ∧ b.stop ≤ hi ∧ b.stop < 2 ^ 64 := by
  obtain ⟨h1, h2⟩ := tiles_bounds Block.start_lt_stop h.1 hb
  have := h.2
  exact ⟨h1, h2, by omega⟩

theorem header_unique (h : Fill lo bs hi) {b c : Block} (hb : b ∈ bs) (hc : c ∈ bs) {a : Word}
    (hba : Header b a) (hca : Header c a) : b = c := by
  have h1 := header_range hba (fill_bounds h hb).2.2
  have h2 := header_range hca (fill_bounds h hc).2.2
  apply tiles_unique Block.start_lt_stop h.1 hb hc (p := a.toNat)
  · unfold Block.stop; omega
  · unfold Block.stop; omega

theorem addr_inj (h : Fill lo bs hi) {b c : Block} (hb : b ∈ bs) (hc : c ∈ bs)
    (ha : b.addr = c.addr) : b = c :=
  header_unique h hb hc (a := b.addr) (Or.inl rfl) (Or.inl ha)

/-- The info word of one block is the link and the finalizer of none. -/
theorem addr_ne_link (h : Fill lo bs hi) {b c : Block} (hb : b ∈ bs) (hc : c ∈ bs) :
    b.addr + 8 ≠ c.addr ∧ b.addr + 16 ≠ c.addr := by
  constructor
  · intro he
    obtain rfl := header_unique h hb hc (Or.inr (Or.inl rfl)) (Or.inl he)
    bv_omega
  · intro he
    obtain rfl := header_unique h hb hc (Or.inr (Or.inr rfl)) (Or.inl he)
    bv_omega

theorem fill_aligned (h : Fill lo bs hi) (hlo : lo % 8 = 0) {b : Block} (hb : b ∈ bs) :
    b.start % 8 = 0 := by
  obtain ⟨ht, -⟩ := h
  induction bs generalizing lo with
  | nil => simp at hb
  | cons c bs ih =>
    obtain ⟨rfl, ht⟩ := ht
    rcases List.mem_cons.mp hb with rfl | hb'
    · exact hlo
    · refine ih ?_ hb' ht
      unfold Block.stop
      omega

end

/-! ## Memories that differ in info words -/

/-- A memory that has the same links and finalizers, and other info words. -/
theorem linked_map {m m' : Mem} (f : Block → Block) {p : Word} {bs : List Block}
    (hf : ∀ b ∈ bs, (f b).addr = b.addr ∧ (f b).finalizer = b.finalizer ∧
      (m b.addr = b.info → m' b.addr = (f b).info) ∧
      m' (b.addr + 8) = m (b.addr + 8) ∧ m' (b.addr + 16) = m (b.addr + 16))
    (h : Linked m p bs) : Linked m' p (bs.map f) := by
  apply seg_map f _ h
  rintro r b hb ⟨rfl, h2, h3⟩
  obtain ⟨h4, h5, h6, h7, h8⟩ := hf b hb
  refine ⟨⟨h4.symm, h6 h2, ?_⟩, h7⟩
  unfold finalizerOf at h3 ⊢
  rw [h8, h3, h5]

theorem linked_congr {m m' : Mem} {p : Word} {bs : List Block}
    (hm : ∀ b ∈ bs, ∀ a, Header b a → m' a = m a) (h : Linked m p bs) : Linked m' p bs := by
  have : Linked m' p (bs.map id) := linked_map id (fun b hb => ⟨rfl, rfl,
    fun h => (hm b hb _ (Or.inl rfl)).trans h, hm b hb _ (Or.inr (Or.inl rfl)),
    hm b hb _ (Or.inr (Or.inr rfl))⟩) h
  rwa [List.map_id] at this

/-- Replaces the info word of the block at `a`. -/
def setInfo (a v : Word) (b : Block) : Block := if b.addr = a then { b with info := v } else b

@[simp] theorem setInfo_addr (a v : Word) (b : Block) : (setInfo a v b).addr = b.addr := by
  unfold setInfo
  split <;> rfl

@[simp] theorem setInfo_finalizer (a v : Word) (b : Block) :
    (setInfo a v b).finalizer = b.finalizer := by
  unfold setInfo
  split <;> rfl

theorem linked_setInfo {m : Mem} {p v : Word} {bs : List Block} {lo hi : Nat}
    (hfill : Fill lo bs hi)
    {c : Block} (hc : c ∈ bs) (h : Linked m p bs) :
    Linked (m.set c.addr v) p (bs.map (setInfo c.addr v)) := by
  apply linked_map _ _ h
  intro b hb
  obtain ⟨h8, h16⟩ := addr_ne_link hfill hb hc
  refine ⟨by simp, by simp, ?_, set_ne m v h8, set_ne m v h16⟩
  intro hbi
  by_cases hbc : b.addr = c.addr
  · simp [setInfo, hbc]
  · rw [set_ne m v hbc, hbi]
    simp [setInfo, hbc]

/-! ## The heap -/

/-- The list from `heap` is well formed: it tiles the heap. -/
structure HeapOk (g : Statics) (m : Mem) (bs : List Block) : Prop where
  initialized : g.initialized = 1
  aligned : g.heap.toNat % 8 = 0
  nonnull : g.heap ≠ 0
  linked : Linked m g.heap bs
  fill : Fill g.heap.toNat bs (g.heap.toNat + 8 * g.total_heap_size.toNat)

theorem heapOk_congr {g : Statics} {m m' : Mem} {bs : List Block} (h : HeapOk g m bs)
    (hm : ∀ b ∈ bs, ∀ a, Header b a → m' a = m a) : HeapOk g m' bs :=
  ⟨h.initialized, h.aligned, h.nonnull, linked_congr hm h.linked, h.fill⟩

theorem heapEnd_toNat {g : Statics} {m : Mem} {bs : List Block} (h : HeapOk g m bs) :
    (heapEnd g).toNat = g.heap.toNat + 8 * g.total_heap_size.toNat := by
  have := h.fill.2
  unfold heapEnd
  bv_omega

theorem inHeapRange_iff {g : Statics} {m : Mem} {bs : List Block} (h : HeapOk g m bs) (w : Word) :
    inHeapRange g w = true ↔
      g.heap.toNat ≤ w.toNat ∧ w.toNat < g.heap.toNat + 8 * g.total_heap_size.toNat := by
  rw [inHeapRange, Bool.and_eq_true, decide_eq_true_iff, decide_eq_true_iff, BitVec.le_def,
    BitVec.lt_def, heapEnd_toNat h]

theorem heap_cons {g : Statics} {m : Mem} {bs : List Block} (h : HeapOk g m bs) :
    ∃ b rest, bs = b :: rest ∧ b.addr = g.heap := by
  have hl := h.linked
  cases bs with
  | nil => exact absurd hl h.nonnull
  | cons b rest => exact ⟨b, rest, rfl, hl.2.1.1.symm⟩

/-! ## `getBlock` on a block list -/

/-- What `getBlock` finds: the block before the first one whose header is not below `p`. -/
def locate (prev : Word) : List Block → Word → Word
  | [], _ => 0
  | b :: bs, p => if b.addr < p then locate b.addr bs p else prev

theorem getBlockStep_null (m : Mem) (ptr prev : Word) :
    getBlockStep m ptr (prev, 0) = .ok (.done 0) := by
  simp [getBlockStep]

theorem getBlockStep_below {m : Mem} {ptr prev cur : Word} (h0 : cur ≠ 0) (hlt : cur < ptr) :
    getBlockStep m ptr (prev, cur) = .ok (.next (cur, next m cur)) := by
  rw [getBlockStep, if_pos ⟨h0, hlt⟩]

theorem getBlockStep_above {m : Mem} {ptr prev cur : Word} (h0 : cur ≠ 0) (hlt : ¬ cur < ptr) :
    getBlockStep m ptr (prev, cur) = .ok (.done prev) := by
  rw [getBlockStep, if_neg (fun h => hlt h.2), if_neg h0]

theorem getBlockLoop_run {m : Mem} (ptr : Word) {n : Nat} (prev : Word) {cur : Word}
    {bs : List Block} (hl : Linked m cur bs) (hn : bs.length < n) :
    loop (getBlockStep m ptr) n (prev, cur) = .ok (locate prev bs ptr) := by
  obtain ⟨n, rfl⟩ : ∃ k, n = k + 1 := ⟨n - 1, by omega⟩
  induction bs generalizing n prev cur with
  | nil =>
    obtain rfl : cur = 0 := hl
    simp only [loop, getBlockStep_null, locate]
  | cons b bs ih =>
    obtain ⟨h0, ⟨rfl, -⟩, hl⟩ := hl
    rw [List.length_cons] at hn
    simp only [locate]
    by_cases hlt : b.addr < ptr
    · rw [if_pos hlt]
      obtain ⟨n, rfl⟩ : ∃ k, n = k + 1 := ⟨n - 1, by omega⟩
      rw [loop, getBlockStep_below h0 hlt]
      exact ih b.addr hl n (by omega)
    · rw [if_neg hlt]
      simp only [loop, getBlockStep_above h0 hlt]

theorem getBlock_loop {g : Statics} {m : Mem} {bs : List Block} (h : HeapOk g m bs) (n : Nat)
    {p : Word} (hp : inHeapRange g p = true) :
    getBlock g n m p = loop (getBlockStep m p) n (g.heap, g.heap) := by
  unfold getBlock
  rw [if_neg (not_or.mpr ⟨not_not.mpr h.initialized, h.nonnull⟩), if_neg]
  simp only [inHeapRange, Bool.and_eq_true, decide_eq_true_iff] at hp
  simp only [ge_iff_le, not_or, BitVec.not_lt, BitVec.not_le]
  exact hp

/-- Enough iterations for the whole list. -/
theorem getBlock_run {g : Statics} {m : Mem} {bs : List Block} {n : Nat} {p : Word}
    (h : HeapOk g m bs) (hp : inHeapRange g p = true) (hn : bs.length < n) :
    getBlock g n m p = .ok (locate g.heap bs p) := by
  rw [getBlock_loop h n hp]
  exact getBlockLoop_run p g.heap h.linked hn

theorem getBlock_eq {g : Statics} {m : Mem} {bs : List Block} {n : Nat} {p r : Word}
    (h : HeapOk g m bs) (hp : inHeapRange g p = true) (hr : getBlock g n m p = .ok r) :
    r = locate g.heap bs p := by
  rw [getBlock_loop h n hp] at hr
  exact loop_unique hr (getBlockLoop_run p g.heap h.linked (Nat.lt_succ_self _))

/-- A block that is found holds `p`, or `p` is just past it, or it is the first one. -/
theorem locate_owner {bs : List Block} {prev p : Word} {lo hi : Nat} (hfill : Fill lo bs hi)
    (h0 : locate prev bs p ≠ 0) :
    (locate prev bs p = prev ∧ ∀ b ∈ bs, p.toNat ≤ b.start) ∨
      ∃ b ∈ bs, locate prev bs p = b.addr ∧ b.start < p.toNat ∧ p.toNat ≤ b.stop := by
  obtain ⟨ht, hlim⟩ := hfill
  induction bs generalizing prev lo with
  | nil => simp [locate] at h0
  | cons b bs ih =>
    obtain ⟨rfl, ht⟩ := ht
    simp only [locate] at h0 ⊢
    by_cases hlt : b.addr < p
    · rw [if_pos hlt] at h0 ⊢
      right
      rcases ih h0 ht with ⟨h1, h2⟩ | ⟨c, hc, h1, h2⟩
      · refine ⟨b, by simp, h1, hlt, ?_⟩
        cases bs with
        | nil => exact absurd rfl h0
        | cons c bs =>
          have := h2 c (by simp)
          have := ht.1
          omega
      · exact ⟨c, List.mem_cons_of_mem _ hc, h1, h2⟩
    · rw [if_neg hlt]
      left
      refine ⟨rfl, ?_⟩
      have hle : p.toNat ≤ b.start := by
        rw [BitVec.lt_def] at hlt
        unfold Block.start
        omega
      intro c hc
      have hall : Tiles Block.start Block.stop b.start (b :: bs) hi := ⟨rfl, ht⟩
      have := (tiles_bounds Block.start_lt_stop hall hc).1
      omega

/-- From an address inside a block, or just past it, `getBlock` finds the block or nothing. -/
theorem locate_inside {bs : List Block} (prev : Word) {p : Word} {lo hi : Nat}
    (hfill : Fill lo bs hi)
    {b : Block} (hb : b ∈ bs) (h1 : b.start < p.toNat) (h2 : p.toNat ≤ b.stop) :
    locate prev bs p = b.addr ∨ locate prev bs p = 0 := by
  obtain ⟨ht, hlim⟩ := hfill
  induction bs generalizing prev lo with
  | nil => simp at hb
  | cons c bs ih =>
    obtain ⟨rfl, ht⟩ := ht
    have hlt : c.addr < p := by
      have hall : Tiles Block.start Block.stop c.start (c :: bs) hi := ⟨rfl, ht⟩
      have := (tiles_bounds Block.start_lt_stop hall hb).1
      rw [BitVec.lt_def]
      unfold Block.start at *
      omega
    simp only [locate, if_pos hlt]
    rcases List.mem_cons.mp hb with rfl | hb'
    · cases bs with
      | nil => exact Or.inr rfl
      | cons d bs =>
        left
        have hd : ¬ d.addr < p := by
          rw [BitVec.lt_def]
          have := ht.1
          unfold Block.start at this
          omega
        simp only [locate, if_neg hd]
    · exact ih _ hb' ht

end Cs720.Alloc
