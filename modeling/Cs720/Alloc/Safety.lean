import Cs720.Alloc.Allocate

/-! # What a collection keeps

A block whose payload a root points into is marked by the chase of that root, at the latest. One
that a payload word points into is marked before the last pass, which finds nothing more to mark.
-/

namespace Cs720.Alloc

open Cs720.Lib

/-- `w` is an address inside the payload of `b`. -/
def Inside (b : Block) (w : Word) : Prop := b.start + 24 ≤ w.toNat ∧ w.toNat < b.stop

/-- A root that is scanned, a global or a word of the stack. -/
def Scanned (e : Env) (g : Statics) (m : Mem) (a : Word) : Prop :=
  (∃ i < globalLength e, a = globalAddr e i) ∨
    ∃ l, StackWords m g.stack_top g.frame_bottom l ∧ a ∈ l

/-- The blocks that hold the target of a root, or of a payload word of a block of the set. -/
inductive Reachable (e : Env) (g : Statics) (bs : List Block) (m : Mem) : Block → Prop
  | root {a : Word} {b : Block} : Scanned e g m a → b ∈ bs → Inside b (readLong m a) →
      Reachable e g bs m b
  | field {c b : Block} {a : Word} : Reachable e g bs m c → a ∈ payload c → b ∈ bs →
      Inside b (m a) → Reachable e g bs m b

section
variable {e : Env} {g : Statics} {bs : List Block} {m : Mem}

/-! ## The addresses that are scanned -/

theorem eight_mul_toNat {i : Nat} (hi : 8 * i < 2 ^ 64) :
    (8 * BitVec.ofNat 64 i : Word).toNat = 8 * i := by
  rw [BitVec.toNat_mul, BitVec.toNat_ofNat, Nat.mod_eq_of_lt (a := i) (by omega)]
  exact Nat.mod_eq_of_lt hi

theorem frameWords_above {bottom addr : Word} {l : List Word} (h : FrameWords bottom addr l)
    (haddr : addr.toNat % 8 = 0) (hbottom : bottom.toNat % 8 = 0) :
    ∀ a ∈ l, addr.toNat ≤ a.toNat ∧ a.toNat % 8 = 0 := by
  -- Past the last aligned word the scan would start again at 0 and never end.
  have hend : ∀ {addr : Word} {l : List Word}, FrameWords bottom addr l → addr.toNat % 8 = 0 →
      bottom.toNat + 8 < 2 ^ 64 := by
    intro addr l h
    induction h with
    | stop hlt =>
      intro ha
      rw [BitVec.le_def] at hlt
      omega
    | word _ _ ih =>
      intro ha
      apply ih
      bv_omega
  induction h with
  | stop => simp
  | word hle hrest ih =>
    have := hend (.word hle hrest) haddr
    rw [BitVec.le_def] at hle
    rw [List.forall_mem_cons]
    refine ⟨⟨le_rfl, haddr⟩, fun a ha => ?_⟩
    have := ih (by bv_omega) a ha
    bv_omega

theorem stackWords_above {top bottom : Word} {l : List Word} (h : StackWords m top bottom l)
    (htop : top.toNat % 8 = 0) : ∀ a ∈ l, top.toNat ≤ a.toNat ∧ a.toNat % 8 = 0 := by
  induction h with
  | stop => simp
  | frame hv hframe _ ih =>
    obtain ⟨h1, -, h3⟩ := hv
    have hbottom := aligned_of_and h3
    rw [not_or, BitVec.not_le, BitVec.lt_def] at h1
    rw [List.forall_mem_append]
    refine ⟨frameWords_above hframe htop hbottom, fun a ha => ?_⟩
    have := ih hbottom a ha
    omega

theorem frameWords_unique {bottom addr : Word} {l l' : List Word} (h : FrameWords bottom addr l)
    (h' : FrameWords bottom addr l') : l = l' := by
  induction h generalizing l' with
  | stop hlt =>
    rcases h' with _ | ⟨hle, -⟩
    · rfl
    · exact absurd hle hlt
  | word hle _ ih =>
    rcases h' with hlt | ⟨-, h'⟩
    · exact absurd hle hlt
    · rw [ih h']

theorem stackWords_unique {top bottom : Word} {l l' : List Word} (h : StackWords m top bottom l)
    (h' : StackWords m top bottom l') : l = l' := by
  induction h generalizing l' with
  | stop hv =>
    rcases h' with _ | ⟨hv', -, -⟩
    · rfl
    · exact absurd hv' hv
  | frame hv hframe _ ih =>
    rcases h' with hv' | ⟨-, hframe', h'⟩
    · exact absurd hv hv'
    · rw [frameWords_unique hframe hframe', ih h']

theorem globalAddr_toNat (hlay : Layout e g) {i : Nat} (hi : i < globalLength e) :
    (globalAddr e i).toNat = e.data_start.toNat + 8 * i ∧
      (globalAddr e i).toNat + 8 ≤ e.data_end.toNat := by
  have hrange := hlay.heap_var_global
  have hlen : (e.data_end - e.data_start).toNat = e.data_end.toNat - e.data_start.toNat := by
    apply BitVec.toNat_sub_of_le
    rw [BitVec.le_def]
    omega
  unfold globalLength at hi
  rw [hlen] at hi
  have hmul := eight_mul_toNat (i := i) (by omega)
  unfold globalAddr
  rw [BitVec.toNat_add, hmul]
  omega

/-! ## Words that marking leaves alone -/

theorem payload_mem {b : Block} {a : Word} (h : a ∈ payload b) (hb : b.stop < 2 ^ 64)
    (haligned : b.start % 8 = 0) : Inside b a ∧ a.toNat % 8 = 0 := by
  obtain ⟨i, hi, rfl⟩ := List.mem_map.mp h
  rw [List.mem_range] at hi
  unfold Inside Block.stop Block.start payloadAddr BLOCK_SIZE at *
  have hmul := eight_mul_toNat (i := i) (by omega)
  have hadd : (b.addr + 8 * 3 + 8 * BitVec.ofNat 64 i).toNat = b.addr.toNat + 24 + 8 * i := by
    rw [BitVec.toNat_add, BitVec.toNat_add, hmul]
    have : (8 * 3 : Word).toNat = 24 := rfl
    omega
  rw [hadd]
  omega

theorem payload_no_header {lo hi : Nat} (hfill : Fill lo bs hi) (hlo : lo % 8 = 0) {b c : Block}
    (hb : b ∈ bs) (hc : c ∈ bs) {a : Word} (ha : a ∈ payload b) : ¬ Header c a := by
  intro hh
  obtain ⟨⟨h1, h2⟩, -⟩ := payload_mem ha (fill_bounds hfill hb).2.2 (fill_aligned hfill hlo hb)
  have h3 := header_range hh (fill_bounds hfill hc).2.2
  have h4 : b = c := by
    apply tiles_unique Block.start_lt_stop hfill.1 hb hc (p := a.toNat)
    · unfold Block.stop at *; omega
    · unfold Block.stop; omega
  subst h4
  omega

theorem marks_payload (hok : HeapOk g m bs) {T : Set Word} (hT : OnBlocks bs T) {b : Block}
    (hb : b ∈ bs) {a : Word} (ha : a ∈ payload b) : marks m T a = m a := by
  apply marks_of_notMem
  intro h
  obtain ⟨c, hc, rfl, -⟩ := hT a h
  exact payload_no_header hok.fill hok.aligned hb hc ha (Or.inl rfl)

/-- A word that is aligned and outside the heap. -/
theorem marks_outside (hok : HeapOk g m bs) {T : Set Word} (hT : OnBlocks bs T) {a : Word}
    (ha : a.toNat + 8 ≤ g.heap.toNat ∨ (heapEnd g).toNat ≤ a.toNat) (haligned : a.toNat % 8 = 0) :
    readLong (marks m T) a = readLong m a := by
  rw [readLong_aligned _ haligned, readLong_aligned _ haligned]
  apply marks_of_notMem
  intro h
  obtain ⟨c, hc, rfl, -⟩ := hT a h
  have h1 := fill_bounds hok.fill hc
  rw [heapEnd_toNat hok] at ha
  have h2 := c.start_lt_stop
  unfold Block.start at *
  omega

theorem globals_outside (hlay : Layout e g) {i : Nat} (hi : i < globalLength e) :
    ((globalAddr e i).toNat + 8 ≤ g.heap.toNat ∨ (heapEnd g).toNat ≤ (globalAddr e i).toNat) ∧
      (globalAddr e i).toNat % 8 = 0 := by
  obtain ⟨h1, h2⟩ := globalAddr_toNat hlay hi
  have h3 := hlay.globals_aligned
  rcases hlay.globals_apart with h4 | h4
  · omega
  · omega

theorem heap_var_outside (hok : HeapOk g m bs) (hlay : Layout e g) :
    inHeapRange g e.heap_var = false := by
  rw [Bool.eq_false_iff, ne_eq, inHeapRange_iff hok, ← heapEnd_toNat hok]
  have h1 := hlay.heap_var_global
  rcases hlay.globals_apart with h2 | h2
  · omega
  · omega

/-! ## Folds over the roots and the heap -/

theorem afterRoots_sub (rs : List Root) (S : Set Word) : S ⊆ afterRoots e g bs m rs S := by
  induction rs generalizing S with
  | nil => exact fun _ h => h
  | cons r rs ih => exact fun a ha => ih _ (Or.inl ha)

theorem afterRoots_hit (hok : HeapOk g m bs) {rs : List Root} {S : Set Word} (hS : OnBlocks bs S)
    {r : Root} (hr : r ∈ rs) {b : Word}
    (hhit : ∀ T, OnBlocks bs T → b ∈ T ∨ b ∈ rootHit e g bs m T r) :
    b ∈ afterRoots e g bs m rs S := by
  induction rs generalizing S with
  | nil => simp at hr
  | cons r' rs ih =>
    rcases List.mem_cons.mp hr with rfl | hr'
    · exact afterRoots_sub rs _ (hhit S hS)
    · exact ih (rootHit_onBlocks hok hS r') hr'

/-- A pass that marks nothing finds nothing at any word. -/
theorem afterPass_false {as : List Word} {any : Bool} {S S' : Set Word}
    (h : afterPass e g bs m as (any, S) = (false, S')) :
    any = false ∧ S' = S ∧ ∀ a ∈ as, heapHit e g bs m S a = ∅ := by
  induction as generalizing any S with
  | nil =>
    cases h
    exact ⟨rfl, rfl, by simp⟩
  | cons a as ih =>
    obtain ⟨h1, h2, h3⟩ := ih h
    rw [Bool.or_eq_false_iff, decide_eq_false_iff_not, Set.not_nonempty_iff_eq_empty] at h1
    obtain ⟨hany, hempty⟩ := h1
    simp only [hempty, Set.union_empty] at h2 h3
    exact ⟨hany, h2, List.forall_mem_cons.mpr ⟨hempty, h3⟩⟩

theorem afterPass_sub (e : Env) (g : Statics) (bs : List Block) (m : Mem) (as : List Word)
    (st : Bool × Set Word) : st.2 ⊆ (afterPass e g bs m as st).2 := by
  induction as generalizing st with
  | nil => exact fun _ h => h
  | cons a as ih => exact fun b hb => ih _ (Or.inl hb)

/-- The last round finds nothing. -/
theorem rounds_last {as : List Word} {S S' : Set Word} (h : Rounds e g bs m as S S') :
    S ⊆ S' ∧ ∀ a ∈ as, heapHit e g bs m S' a = ∅ := by
  induction h with
  | last h =>
    obtain ⟨-, h1, h2⟩ := afterPass_false h
    subst h1
    exact ⟨le_rfl, h2⟩
  | @more S S₁ S' h _ ih =>
    have hsub := afterPass_sub e g bs m as (false, S)
    rw [h] at hsub
    exact ⟨le_trans hsub ih.1, ih.2⟩

/-! ## Reachable blocks are marked -/

/-- The chase of a word that points into an allocated block marks it, or it is marked already. -/
theorem inside_hit (hok : HeapOk g m bs) (hunmarked : ∀ b ∈ bs, b.marked = false) {S : Set Word}
    {b : Block} (hb : b ∈ bs) (halloc : b.alloc = true) {w : Word} (hw : Inside b w)
    (hland : Lands g bs w) (k : Nat) :
    b.addr ∈ S ∨ Chased e g bs (marks m S) (k + 1) w b.addr := by
  obtain ⟨hlo, hhi, -⟩ := fill_bounds hok.fill hb
  obtain ⟨h1, h2⟩ := hw
  have h0 : w ≠ 0 := by
    rintro rfl
    have : (0 : Word).toNat = 0 := rfl
    omega
  have hheap : inHeapRange g w = true := by
    rw [inHeapRange_iff hok]
    omega
  have howner : owner g bs w = b.addr := by
    rcases locate_inside g.heap hok.fill hb (p := w) (by omega) (by omega) with h | h
    · exact h
    · exact absurd h (hland h0 hheap)
  by_cases hS : b.addr ∈ S
  · exact Or.inl hS
  · right
    rw [← howner]
    refine .mark h0 hheap (hland h0 hheap) ?_
    rw [howner]
    unfold Passes
    rw [not_or, isMarked_marks, isAlloc_marks, linked_info hok.linked hb]
    refine ⟨?_, ?_⟩
    · rintro (h | h)
      · exact hS h
      · have := hunmarked b hb
        unfold Block.marked at this
        rw [this] at h
        contradiction
    · unfold Block.alloc at halloc
      rw [halloc]
      simp

theorem root_marked (hok : HeapOk g m bs)
    (hunmarked : ∀ b ∈ bs, b.marked = false) {l : List Word} {S : Set Word}
    (hmark : MarkedBy e g bs m l S) {r : Root} (hr : r ∈ roots e l)
    (hread : ∀ T, OnBlocks bs T → readLong (marks m T) r.2 = readLong m r.2) {b : Block}
    (hb : b ∈ bs) (halloc : b.alloc = true) (hw : Inside b (readLong m r.2))
    (hig : ∀ T, OnBlocks bs T → r.1 (marks m T) = false) : b.addr ∈ S := by
  apply (rounds_last hmark.rounds).1
  have hland : Lands g bs (readLong m r.2) := by
    obtain ⟨T, hT, h⟩ := hmark.roots_land r hr
    rw [← hread T hT]
    exact h (hig T hT)
  apply afterRoots_hit hok (by simp [OnBlocks]) hr
  intro T hT
  rcases inside_hit (e := e) (S := T) hok hunmarked hb halloc hw hland 99 with h | h
  · exact Or.inl h
  · refine Or.inr ⟨hig T hT, ?_⟩
    rw [hread T hT]
    exact h

theorem reachable_mem {b : Block} (h : Reachable e g bs m b) : b ∈ bs := by
  rcases h with ⟨-, hb, -⟩ | ⟨-, -, hb, -⟩
  · exact hb
  · exact hb

theorem reachable_marked (hok : HeapOk g m bs) (hlay : Layout e g)
    (hunmarked : ∀ b ∈ bs, b.marked = false) {l : List Word} {S : Set Word}
    (hmark : MarkedBy e g bs m l S) {b : Block} (h : Reachable e g bs m b)
    (halloc : b.alloc = true) : b.addr ∈ S := by
  rcases h with ⟨hroot, hb, hw⟩ | @⟨c, _, a, hc, ha, hb, hw⟩
  · rcases hroot with ⟨i, hi, rfl⟩ | ⟨l', hl', ha⟩
    · obtain ⟨hout, haligned⟩ := globals_outside hlay hi
      refine root_marked hok hunmarked hmark (r := globalRoot e i) ?_
        (fun T hT => marks_outside hok hT hout haligned) hb halloc hw ?_
      · exact List.mem_append_left _ (List.mem_map.mpr ⟨i, List.mem_range.mpr hi, rfl⟩)
      · -- A word that holds `&heap` points into no block.
        intro T hT
        unfold globalRoot
        simp only [marks_outside hok hT hout haligned, beq_eq_false_iff_ne, ne_eq]
        intro heq
        have hfalse := heap_var_outside hok hlay
        rw [← heq, Bool.eq_false_iff, ne_eq, inHeapRange_iff hok] at hfalse
        obtain ⟨hlo, hhi, -⟩ := fill_bounds hok.fill hb
        obtain ⟨h1, h2⟩ := hw
        omega
    · rw [stackWords_unique hl' hmark.stack] at ha
      obtain ⟨habove, haligned⟩ := stackWords_above hmark.stack hlay.stack_aligned _ ha
      have hout := hlay.stack_above
      refine root_marked hok hunmarked hmark (r := stackRoot e _) ?_
        (fun T hT => marks_outside hok hT (Or.inr (le_trans hout habove)) haligned) hb halloc hw ?_
      · exact List.mem_append_right _ (List.mem_map.mpr ⟨_, ha, rfl⟩)
      · intro T hT
        unfold stackRoot
        simp only [beq_eq_false_iff_ne, ne_eq]
        rintro rfl
        have h1 := hlay.heap_var_global
        have h2 := hlay.stack_above_globals
        omega
  · have hcb := reachable_mem hc
    have hpay : a ∈ payloads bs := List.mem_flatMap.mpr ⟨c, hcb, ha⟩
    have hempty := (rounds_last hmark.rounds).2 _ hpay
    obtain ⟨T, hT, hland⟩ := hmark.words_land _ hpay
    have haligned := (payload_mem ha (fill_bounds hok.fill hcb).2.2
      (fill_aligned hok.fill hok.aligned hcb)).2
    rw [readLong_aligned _ haligned, marks_payload hok hT hcb ha] at hland
    rcases inside_hit (e := e) (S := S) hok hunmarked hb halloc hw hland 0 with h | h
    · exact h
    · have : b.addr ∈ heapHit e g bs m S a := by
        refine ⟨1, ?_⟩
        rw [readLong_aligned _ haligned, marks_payload hok hmark.on_blocks hcb ha]
        exact h
      rw [hempty] at this
      exact absurd this (by simp)

/-! ## The sweep keeps them -/

theorem unmark_markIn {b : Block} {S : Set Word} (hb : b.marked = false) (hS : b.addr ∈ S) :
    (markIn S b).unmark = b := by
  unfold markIn Block.unmark
  rw [if_pos hS]
  have h := unmark_mark hb
  cases b
  simp only at h ⊢
  rw [h]

theorem finalCalls_mem {c : List Block} {x : Word × Word} (h : x ∈ finalCalls c) :
    ∃ d ∈ c, d.marked = false ∧ d.addr = x.1 := by
  obtain ⟨d, hd, rfl⟩ := List.mem_map.mp h
  rw [List.mem_filter, Bool.and_eq_true, Bool.and_eq_true] at hd
  exact ⟨d, hd.1, by simpa using hd.2.1.1, rfl⟩

end

/-- Finalizers do not touch the heap. -/
def HeapSafe (e : Env) (g : Statics) : Prop :=
  ∀ f m a, inHeapRange g a = true → e.finalizer f m a = m a

theorem heapSafe_headers {e : Env} {g : Statics} {m : Mem} {bs : List Block} (hok : HeapOk g m bs)
    (hsafe : HeapSafe e g) : HeadersSafe e g := by
  intro f m' bs' hl hfill
  apply linked_congr _ hl
  intro b hb a ha
  apply hsafe
  rw [inHeapRange_iff hok]
  obtain ⟨h1, h2, h3⟩ := fill_bounds hfill hb
  have h4 := header_range ha h3
  unfold Block.stop at h2
  omega

theorem heapSafe_payload {e : Env} {g : Statics} {m : Mem} {bs : List Block} (hok : HeapOk g m bs)
    (hsafe : HeapSafe e g) {c : Block} (hc : c ∈ bs) {a : Word} (ha : a ∈ payload c) (f : Word)
    (M : Mem) : e.finalizer f M a = M a := by
  apply hsafe
  rw [inHeapRange_iff hok]
  obtain ⟨hlo, hhi, hlim⟩ := fill_bounds hok.fill hc
  obtain ⟨⟨ha1, ha2⟩, -⟩ := payload_mem ha hlim (fill_aligned hok.fill hok.aligned hc)
  omega

/-- A reachable block keeps its place, its header and its payload; its finalizer is not called, and
no address in it is in a free block. -/
theorem collector_safe {e : Env} {n : Nat} {s s' : State} {r : BitVec 32} {bs : List Block}
    (hok : HeapOk s.toStatics s.mem bs) (hunmarked : ∀ b ∈ bs, b.marked = false)
    (hlay : Layout e s.toStatics) (hsafe : HeapSafe e s.toStatics)
    (h : markAndSweep e n s = .ok (s', r)) :
    ∃ bs' calls, HeapOk s'.toStatics s'.mem bs' ∧ s'.finalized = s.finalized ++ calls ∧
      ∀ b, Reachable e s.toStatics bs s.mem b → b.alloc = true →
        b ∈ bs' ∧ b.marked = false ∧ (∀ a ∈ payload b, s'.mem a = s.mem a) ∧
        (∀ f, (b.addr, f) ∉ calls) ∧
        ∀ c ∈ bs', c.alloc = false → ∀ w, Inside b w →
          ¬ (c.start ≤ w.toNat ∧ w.toNat < c.stop) := by
  obtain ⟨m, w, hm, hw, rfl, -⟩ := markAndSweep_ok h
  obtain ⟨l, S, hmark, rfl⟩ := mark_run hok hlay hm
  have hokS := heapOk_marks hok hmark.on_blocks
  have hfin : ∀ f m a, (∃ c ∈ bs, a ∈ payload c) → e.finalizer f m a = m a := by
    rintro f m' a ⟨c, hc, ha⟩
    exact heapSafe_payload hok hsafe hc ha f m'
  have hno : ∀ a, (∃ c ∈ bs, a ∈ payload c) → ∀ b ∈ bs.map (markIn S), ¬ Header b a := by
    rintro a ⟨c, hc, ha⟩ b hb hh
    obtain ⟨d, hd, rfl⟩ := List.mem_map.mp hb
    apply payload_no_header hok.fill hok.aligned hc hd ha
    unfold Header at hh ⊢
    rwa [markIn_addr] at hh
  obtain ⟨hok', hcalls, -, hkept⟩ := sweep_run (heapSafe_headers hok hsafe) hfin hokS hno hw
  refine ⟨_, _, hok', hcalls, fun b hreach halloc => ?_⟩
  have hb := reachable_mem hreach
  have hbS := reachable_marked hok hlay hunmarked hmark hreach halloc
  have hmem : b ∈ sweepBlocks none (bs.map (markIn S)) := by
    rw [← unmark_markIn (hunmarked b hb) hbS]
    exact sweepBlocks_keeps none (List.mem_map_of_mem hb) ((markIn_marked S b).mpr (Or.inl hbS))
  refine ⟨hmem, hunmarked b hb, ?_, ?_, ?_⟩
  · intro a ha
    exact (hkept a ⟨b, hb, ha⟩).trans (marks_payload hok hmark.on_blocks hb ha)
  · intro f hf
    obtain ⟨d, hd, hdm, hda⟩ := finalCalls_mem hf
    obtain ⟨c, hc, rfl⟩ := List.mem_map.mp hd
    rw [markIn_addr] at hda
    have := (markIn_marked S c).mpr (Or.inl (hda ▸ hbS))
    rw [hdm] at this
    contradiction
  · intro c hc hcfree x hx hxc
    have hbc : b = c := by
      apply tiles_unique Block.start_lt_stop hok'.fill.1 hmem hc (p := x.toNat) _ hxc
      obtain ⟨hx1, hx2⟩ := hx
      omega
    rw [← hbc, halloc] at hcfree
    contradiction

/-! ### A heap of two blocks -/

/-- Two globals, of which the first is `heap`. -/
def twoGlobals : Env := ⟨0x800, 0x810, 0x800, fun _ m => m⟩

/-- The second global points into the first block, which is allocated. -/
def rooted : State where
  stack_top := 0x9000
  frame_bottom := 0x9000
  initialized := 1
  heap := 0x1000
  total_heap_size := 12
  mem a :=
    if a = 0x800 then 0x1000
    else if a = 0x808 then 0x1020
    else if a = 0x1000 then infoMake 1#32 0#32 4
    else if a = 0x1008 then 0x1038
    else if a = 0x1038 then 2
    else 0

theorem rooted_ok : HeapOk rooted.toStatics rooted.mem
    [⟨0x1000, infoMake 1#32 0#32 4, 0⟩, ⟨0x1038, 2, 0⟩] :=
  ⟨rfl, by decide, by decide, ⟨by decide, ⟨rfl, rfl, rfl⟩, by decide, ⟨rfl, rfl, rfl⟩, rfl⟩,
    ⟨rfl, by decide, rfl⟩, by decide⟩

theorem rooted_layout : Layout twoGlobals rooted.toStatics :=
  ⟨by decide, by decide, by decide, by decide, by decide, by decide, by decide⟩

theorem collector_safe_rooted : ∃ s r bs, markAndSweep twoGlobals 30 rooted = .ok (s, r) ∧
    HeapOk s.toStatics s.mem bs ∧ ⟨0x1000, infoMake 1#32 0#32 4, 0⟩ ∈ bs := by
  obtain ⟨⟨s, r⟩, h⟩ := ok_of_isOk (x := markAndSweep twoGlobals 30 rooted) rfl
  obtain ⟨bs, calls, hok', -, hkeep⟩ :=
    collector_safe rooted_ok (by decide) rooted_layout (fun _ _ _ _ => rfl) h
  refine ⟨s, r, bs, h, hok', (hkeep _ (.root (a := 0x808) ?_ (by simp) ?_) (by decide)).1⟩
  · exact Or.inl ⟨1, by decide, rfl⟩
  · unfold Inside
    decide

end Cs720.Alloc
