import Cs720.Alloc.Mark

/-! # What the whole mark phase marks

The loops of steps 1a to 1c visit lists of addresses. Each step ends as a fold over its list, in
which every address adds the block that its chase marks.
-/

namespace Cs720.Alloc

open Cs720.Lib

/-- Where the linker and the system put things: the globals, the heap and the stack are aligned and
do not overlap, `heap` is a global, and the stack is above everything else. -/
structure Layout (e : Env) (g : Statics) : Prop where
  globals_aligned : e.data_start.toNat % 8 = 0
  globals_apart : e.data_end.toNat ≤ g.heap.toNat ∨ (heapEnd g).toNat ≤ e.data_start.toNat
  heap_var_aligned : e.heap_var.toNat % 8 = 0
  heap_var_global : e.data_start.toNat ≤ e.heap_var.toNat ∧ e.heap_var.toNat + 8 ≤ e.data_end.toNat
  stack_aligned : g.stack_top.toNat % 8 = 0
  stack_above : (heapEnd g).toNat ≤ g.stack_top.toNat
  stack_above_globals : e.data_end.toNat ≤ g.stack_top.toNat

/-- A root: the test that makes the collector ignore it, and its address. -/
abbrev Root := (Mem → Bool) × Word

section
variable (e : Env) (g : Statics) (bs : List Block)

def globalRoot (i : Nat) : Root :=
  (fun m => readLong m (globalAddr e i) == e.heap_var, globalAddr e i)

def stackRoot (a : Word) : Root := (fun _ => a == e.heap_var, a)

/-! ## The words of the stack -/

def ValidFrame (top bottom : Word) : Prop :=
  ¬ (bottom ≤ top ∨ bottom = 0) ∧ bottom ≠ top ∧ bottom &&& 7 = 0

/-- The addresses that are scanned from `addr` to `bottom`. -/
inductive FrameWords (bottom : Word) : Word → List Word → Prop
  | stop {addr : Word} : ¬ addr ≤ bottom → FrameWords bottom addr []
  | word {addr : Word} {l : List Word} : addr ≤ bottom → FrameWords bottom (addr + 8) l →
      FrameWords bottom addr (addr :: l)

/-- The addresses that are scanned from the frame `top`, `bottom` upwards. -/
inductive StackWords (m : Mem) : Word → Word → List Word → Prop
  | stop {top bottom : Word} : ¬ ValidFrame top bottom → StackWords m top bottom []
  | frame {top bottom : Word} {l l' : List Word} : ValidFrame top bottom →
      FrameWords bottom top l → StackWords m bottom (readLong m bottom) l' →
      StackWords m top bottom (l ++ l')

/-! ## What one address adds -/

def rootHit (m : Mem) (S : Set Word) (r : Root) : Set Word :=
  {b | r.1 (marks m S) = false ∧ Chased e g bs (marks m S) 100 (readLong (marks m S) r.2) b}

def afterRoots (m : Mem) (rs : List Root) (S : Set Word) : Set Word :=
  rs.foldl (fun S r => S ∪ rootHit e g bs m S r) S

def heapHit (m : Mem) (S : Set Word) (a : Word) : Set Word :=
  {b | ∃ k, Chased e g bs (marks m S) k (readLong (marks m S) a) b}

open Classical in
/-- One pass over the words at `as`, with `marked_any`. -/
noncomputable def afterPass (m : Mem) (as : List Word) (st : Bool × Set Word) : Bool × Set Word :=
  as.foldl (fun st a => (st.1 || decide (heapHit e g bs m st.2 a).Nonempty,
    st.2 ∪ heapHit e g bs m st.2 a)) st

/-- Passes over the words at `as`, up to the first one that marks nothing. -/
inductive Rounds (m : Mem) (as : List Word) : Set Word → Set Word → Prop
  | last {S S' : Set Word} : afterPass e g bs m as (false, S) = (false, S') → Rounds m as S S'
  | more {S S₁ S' : Set Word} : afterPass e g bs m as (false, S) = (true, S₁) →
      Rounds m as S₁ S' → Rounds m as S S'

/-- The chase of the root came back. -/
def RootLands (m : Mem) (r : Root) : Prop :=
  ∃ T, OnBlocks bs T ∧ (r.1 (marks m T) = false → Lands g bs (readLong (marks m T) r.2))

/-- The chase of the root does not get stuck. -/
def RootPasses (m : Mem) (S : Set Word) (r : Root) : Prop :=
  r.1 (marks m S) = false → ¬ Stuck e g bs (marks m S) 100 (readLong (marks m S) r.2)

/-- No chase of the roots gets stuck, one after the other. -/
def RootsPass (m : Mem) : List Root → Set Word → Prop
  | [], _ => True
  | r :: rs, S => RootPasses e g bs m S r ∧ RootsPass m rs (S ∪ rootHit e g bs m S r)

/-- The chase of the heap word at `a` came back. -/
def WordLands (m : Mem) (a : Word) : Prop :=
  ∃ T, OnBlocks bs T ∧ Lands g bs (readLong (marks m T) a)

def payload (b : Block) : List Word := (List.range b.size).map (payloadAddr b.addr)

def payloads : List Word := bs.flatMap payload

variable {e g bs}

theorem rootHit_onBlocks {m : Mem} (hok : HeapOk g m bs) {S : Set Word} (hS : OnBlocks bs S)
    (r : Root) : OnBlocks bs (S ∪ rootHit e g bs m S r) := by
  rintro b (hb | ⟨-, hb⟩)
  · exact hS b hb
  · exact chased_block hok hb

theorem heapHit_onBlocks {m : Mem} (hok : HeapOk g m bs) {S : Set Word} (hS : OnBlocks bs S)
    (a : Word) : OnBlocks bs (S ∪ heapHit e g bs m S a) := by
  rintro b (hb | ⟨k, hb⟩)
  · exact hS b hb
  · exact chased_block hok hb

theorem chaseRoot_marks {m m' : Mem} (hok : HeapOk g m bs) {S : Set Word} (hS : OnBlocks bs S)
    {n : Nat} {r : Root}
    (hr : chaseRoot e g n r.1 100 (readLong (marks m S) r.2) (marks m S) = .ok m') :
    m' = marks m (S ∪ rootHit e g bs m S r) := by
  rcases chaseRoot_spec (finds_marks hok hS) hr with ⟨rfl, h⟩ | ⟨b, hi, h, rfl⟩
  · have hempty : rootHit e g bs m S r = ∅ := by
      ext b
      simp only [rootHit, Set.mem_ofPred_eq, Set.mem_empty_iff_false, iff_false, not_and]
      exact fun hi => h hi b
    rw [hempty, Set.union_empty]
  · have hone : rootHit e g bs m S r = {b} := by
      ext c
      simp only [rootHit, Set.mem_ofPred_eq, Set.mem_singleton_iff]
      constructor
      · rintro ⟨-, hc⟩; exact chased_unique hc h
      · rintro rfl; exact ⟨hi, h⟩
    rw [hone, marks_set]

theorem chaseHeap_marks {m m' : Mem} (hok : HeapOk g m bs) {S : Set Word} (hS : OnBlocks bs S)
    {n k : Nat} {a : Word} {any any' : Bool}
    (hr : loop (chaseHeapStep e g n) k (readLong (marks m S) a, any, marks m S) = .ok (any', m')) :
    any' = (afterPass e g bs m [a] (any, S)).1 ∧
      m' = marks m (afterPass e g bs m [a] (any, S)).2 := by
  simp only [afterPass, List.foldl_cons, List.foldl_nil]
  rcases chaseHeap_spec (finds_marks hok hS) hr with ⟨rfl, rfl, h⟩ | ⟨i, b, h, rfl, rfl⟩
  · have hempty : heapHit e g bs m S a = ∅ := by
      ext b
      simp only [heapHit, Set.mem_ofPred_eq, Set.mem_empty_iff_false, iff_false, not_exists]
      exact fun i => h i b
    simp [hempty]
  · have hone : heapHit e g bs m S a = {b} := by
      ext c
      simp only [heapHit, Set.mem_ofPred_eq, Set.mem_singleton_iff]
      constructor
      · rintro ⟨j, hc⟩; exact chased_unique hc h
      · rintro rfl; exact ⟨i, h⟩
    simp [hone, marks_set]

theorem afterRoots_append (m : Mem) (rs rs' : List Root) (S : Set Word) :
    afterRoots e g bs m (rs ++ rs') S = afterRoots e g bs m rs' (afterRoots e g bs m rs S) := by
  rw [afterRoots, List.foldl_append]
  rfl

theorem rootsPass_append {m : Mem} {rs rs' : List Root} {S : Set Word} :
    RootsPass e g bs m (rs ++ rs') S ↔
      RootsPass e g bs m rs S ∧ RootsPass e g bs m rs' (afterRoots e g bs m rs S) := by
  induction rs generalizing S with
  | nil => simp [RootsPass, afterRoots]
  | cons r rs ih =>
    rw [List.cons_append, RootsPass, RootsPass, ih, and_assoc]
    rfl

theorem rootsPass_lands {m : Mem} (hok : HeapOk g m bs) {rs : List Root} {S : Set Word}
    (hS : OnBlocks bs S) (h : RootsPass e g bs m rs S) : ∀ r ∈ rs, RootLands g bs m r := by
  induction rs generalizing S with
  | nil => simp
  | cons r rs ih =>
    exact List.forall_mem_cons.mpr ⟨⟨S, hS, fun hi => lands_of_not_stuck (h.1 hi)⟩,
      ih (rootHit_onBlocks hok hS r) h.2⟩

/-! ## The loops are the folds -/

theorem markGlobals_run {m m' : Mem} (hok : HeapOk g m bs) {n k i : Nat} {S : Set Word}
    (hS : OnBlocks bs S) (hr : loop (markGlobalsStep e g n) k (i, marks m S) = .ok m') :
    ∃ S', S' = afterRoots e g bs m ((List.range' i (globalLength e - i)).map (globalRoot e)) S ∧
      RootsPass e g bs m ((List.range' i (globalLength e - i)).map (globalRoot e)) S ∧
      m' = marks m S' ∧ OnBlocks bs S' := by
  induction k generalizing i S with
  | zero => simp [loop] at hr
  | succ k ih =>
    by_cases hi : i < globalLength e
    · rcases loop_cases hr with ⟨j, s', hj, hb, hl⟩ | hb
      · rw [markGlobalsStep, if_pos hi, bind_ok] at hb
        obtain ⟨m₁, hm₁, hb⟩ := hb
        cases hb
        obtain rfl : k = j := by omega
        have hpass : RootPasses e g bs m S (globalRoot e i) :=
          chaseRoot_passes (finds_marks hok hS) hm₁
        obtain rfl := chaseRoot_marks hok hS (r := globalRoot e i) hm₁
        obtain ⟨S', hS', hpasses, h⟩ := ih (rootHit_onBlocks hok hS _) hl
        rw [show globalLength e - i = globalLength e - (i + 1) + 1 by omega, List.range'_succ,
          List.map_cons]
        exact ⟨S', hS', ⟨hpass, hpasses⟩, h⟩
      · rw [markGlobalsStep, if_pos hi, bind_ok] at hb
        obtain ⟨m₁, -, hb⟩ := hb
        cases hb
    · have := loop_of_done (by rw [markGlobalsStep, if_neg hi]) hr
      rw [show globalLength e - i = 0 by omega]
      exact ⟨S, rfl, trivial, this, hS⟩

theorem scanFrame_run {m m' : Mem} (hok : HeapOk g m bs) {n k : Nat} {addr bottom : Word}
    {S : Set Word} (hS : OnBlocks bs S)
    (hr : loop (scanFrameStep e g n bottom) k (addr, marks m S) = .ok m') :
    ∃ l S', FrameWords bottom addr l ∧ S' = afterRoots e g bs m (l.map (stackRoot e)) S ∧
      RootsPass e g bs m (l.map (stackRoot e)) S ∧ m' = marks m S' ∧ OnBlocks bs S' := by
  induction k generalizing addr S with
  | zero => simp [loop] at hr
  | succ k ih =>
    by_cases ha : addr ≤ bottom
    · rcases loop_cases hr with ⟨j, s', hj, hb, hl⟩ | hb
      · rw [scanFrameStep, if_pos ha, bind_ok] at hb
        obtain ⟨m₁, hm₁, hb⟩ := hb
        cases hb
        obtain rfl : k = j := by omega
        have hpass : RootPasses e g bs m S (stackRoot e addr) :=
          chaseRoot_passes (finds_marks hok hS) hm₁
        obtain rfl := chaseRoot_marks hok hS (r := stackRoot e addr) hm₁
        obtain ⟨l, S', hlist, hS', hpasses, h⟩ := ih (rootHit_onBlocks hok hS _) hl
        exact ⟨addr :: l, S', .word ha hlist, hS', ⟨hpass, hpasses⟩, h⟩
      · rw [scanFrameStep, if_pos ha, bind_ok] at hb
        obtain ⟨m₁, -, hb⟩ := hb
        cases hb
    · have := loop_of_done (by rw [scanFrameStep, if_neg ha]) hr
      exact ⟨[], S, .stop ha, rfl, trivial, this, hS⟩

/-- A mark changes no word above the heap. -/
theorem marks_above {m : Mem} {S : Set Word} (hok : HeapOk g m bs) (hS : OnBlocks bs S) {a : Word}
    (ha : (heapEnd g).toNat ≤ a.toNat) : marks m S a = m a := by
  apply marks_of_notMem
  intro h
  obtain ⟨b, hb, rfl, -⟩ := hS a h
  have h1 := (fill_bounds hok.fill hb).2.1
  rw [heapEnd_toNat hok] at ha
  unfold Block.stop Block.start at h1
  omega

theorem aligned_of_and {a : Word} (h : a &&& 7 = 0) : a.toNat % 8 = 0 := by
  have := congrArg BitVec.toNat h
  rw [BitVec.toNat_and] at this
  rw [← Nat.and_two_pow_sub_one_eq_mod a.toNat 3]
  exact this

theorem markStackStep_frame {n : Nat} {top bottom : Word} (h : ValidFrame top bottom) (m : Mem) :
    markStackStep e g n (top, bottom, m) = (do
      let m' ← loop (scanFrameStep e g n bottom) n (top, m)
      .ok (.next (bottom, readLong m' bottom, m'))) := by
  rw [markStackStep, if_neg h.1, if_neg h.2.1, if_neg (not_not.mpr h.2.2)]

theorem markStackStep_stop {n : Nat} {top bottom : Word} (h : ¬ ValidFrame top bottom) (m : Mem) :
    markStackStep e g n (top, bottom, m) = .ok (.done m) := by
  simp only [markStackStep]
  unfold ValidFrame at h
  split_ifs with h1 h2 h3
  · rfl
  · rfl
  · rfl
  · exact absurd ⟨h1, h2, not_not.mp h3⟩ h

/-- The link of a frame is not marked over. -/
theorem frame_link {m : Mem} (hok : HeapOk g m bs) (hlay : Layout e g) {top bottom : Word}
    (hv : ValidFrame top bottom) (htop : g.stack_top.toNat ≤ top.toNat) :
    g.stack_top.toNat ≤ bottom.toNat ∧
      ∀ S, OnBlocks bs S → readLong (marks m S) bottom = readLong m bottom := by
  obtain ⟨h1, -, h3⟩ := hv
  have hbot : g.stack_top.toNat ≤ bottom.toNat := by
    rw [not_or, BitVec.not_le, BitVec.lt_def] at h1
    omega
  refine ⟨hbot, fun S hS => ?_⟩
  rw [readLong_aligned _ (aligned_of_and h3), readLong_aligned _ (aligned_of_and h3)]
  exact marks_above hok hS (le_trans hlay.stack_above hbot)

theorem markStack_run {m m' : Mem} (hok : HeapOk g m bs) (hlay : Layout e g) {n k : Nat}
    {top bottom : Word} (htop : g.stack_top.toNat ≤ top.toNat) {S : Set Word} (hS : OnBlocks bs S)
    (hr : loop (markStackStep e g n) k (top, bottom, marks m S) = .ok m') :
    ∃ l S', StackWords m top bottom l ∧ S' = afterRoots e g bs m (l.map (stackRoot e)) S ∧
      RootsPass e g bs m (l.map (stackRoot e)) S ∧ m' = marks m S' ∧ OnBlocks bs S' := by
  induction k generalizing top bottom S with
  | zero => simp [loop] at hr
  | succ k ih =>
    by_cases hv : ValidFrame top bottom
    · rcases loop_cases hr with ⟨j, s', hj, hb, hl⟩ | hb
      · rw [markStackStep_frame hv, bind_ok] at hb
        obtain ⟨m₁, hm₁, hb⟩ := hb
        cases hb
        obtain rfl : k = j := by omega
        obtain ⟨l, S₁, hlist, hS₁, hpass, rfl, hon⟩ := scanFrame_run hok hS hm₁
        obtain ⟨hbot, hread⟩ := frame_link hok hlay hv htop
        rw [hread S₁ hon] at hl
        obtain ⟨l', S', hlist', hS', hpass', h⟩ := ih hbot hon hl
        refine ⟨l ++ l', S', .frame hv hlist hlist', ?_, ?_, h⟩
        · rw [hS', hS₁, List.map_append, afterRoots_append]
        · rw [List.map_append, rootsPass_append, ← hS₁]
          exact ⟨hpass, hpass'⟩
      · rw [markStackStep_frame hv, bind_ok] at hb
        obtain ⟨m₁, -, hb⟩ := hb
        cases hb
    · exact ⟨[], S, .stop hv, rfl, trivial, loop_of_done (markStackStep_stop hv _) hr, hS⟩

/-- The scan of the stack marks blocks and nothing else, wherever the frames are. -/
theorem markStack_marks {m m' : Mem} (hok : HeapOk g m bs) {n : Nat} {S : Set Word}
    (hS : OnBlocks bs S) (hr : markStack e g n (marks m S) = .ok m') :
    ∃ S', m' = marks m S' ∧ OnBlocks bs S' := by
  unfold markStack at hr
  refine loop_inv (fun s => ∃ S', s.2.2 = marks m S' ∧ OnBlocks bs S')
    (fun m' => ∃ S', m' = marks m S' ∧ OnBlocks bs S') ?_ ?_ ⟨S, rfl, hS⟩ hr
  · rintro ⟨top, bottom, m₁⟩ s' ⟨S₁, rfl, hS₁⟩ hstep
    simp only [markStackStep] at hstep
    split_ifs at hstep
    iterate 3 cases hstep
    rw [bind_ok] at hstep
    obtain ⟨m₂, hm₂, hstep⟩ := hstep
    cases hstep
    obtain ⟨l, S₂, -, -, -, h, hon⟩ := scanFrame_run hok hS₁ hm₂
    exact ⟨S₂, h, hon⟩
  · rintro ⟨top, bottom, m₁⟩ r h hstep
    simp only [markStackStep] at hstep
    split_ifs at hstep
    · cases hstep; exact h
    · cases hstep; exact h
    · cases hstep; exact h
    · rw [bind_ok] at hstep
      obtain ⟨m₂, -, hstep⟩ := hstep
      cases hstep

theorem afterPass_cons (m : Mem) (a : Word) (as : List Word) (st : Bool × Set Word) :
    afterPass e g bs m (a :: as) st = afterPass e g bs m as (afterPass e g bs m [a] st) := rfl

theorem afterPass_append (m : Mem) (as as' : List Word) (st : Bool × Set Word) :
    afterPass e g bs m (as ++ as') st =
      afterPass e g bs m as' (afterPass e g bs m as st) := by
  rw [afterPass, List.foldl_append]
  rfl

theorem afterPass_onBlocks {m : Mem} (hok : HeapOk g m bs) (as : List Word)
    (st : Bool × Set Word) (hS : OnBlocks bs st.2) :
    OnBlocks bs (afterPass e g bs m as st).2 := by
  induction as generalizing st with
  | nil => exact hS
  | cons a as ih =>
    rw [afterPass_cons]
    exact ih _ (heapHit_onBlocks hok hS a)

/-- The loop over a block chases one more word, or the block is at its end. -/
theorem scanBlock_cases {M M' : Mem} {n k idx max : Nat} {cur : Word} {any any' : Bool}
    (hr : loop (scanBlockStep e g n cur max) k (idx, any, M) = .ok (any', M')) :
    (∃ j any₁ M₁, k = j + 1 ∧ idx < max ∧
      loop (chaseHeapStep e g n) n (readLong M (payloadAddr cur idx), any, M) = .ok (any₁, M₁) ∧
      loop (scanBlockStep e g n cur max) j (idx + 1, any₁, M₁) = .ok (any', M')) ∨
    max ≤ idx ∧ any' = any ∧ M' = M := by
  by_cases hi : idx < max
  · refine .inl ?_
    rcases loop_cases hr with ⟨j, s', hj, hb, hl⟩ | hb
    · rw [scanBlockStep, if_pos hi, bind_ok] at hb
      obtain ⟨⟨any₁, M₁⟩, hchase, hb⟩ := hb
      cases hb
      exact ⟨j, any₁, M₁, hj, hi, hchase, hl⟩
    · rw [scanBlockStep, if_pos hi, bind_ok] at hb
      obtain ⟨⟨any₁, M₁⟩, -, hb⟩ := hb
      cases hb
  · have := loop_of_done (by rw [scanBlockStep, if_neg hi]) hr
    cases this
    exact .inr ⟨Nat.not_lt.mp hi, rfl, rfl⟩

/-- The loop over the heap scans the block, and then those behind it. -/
theorem scanHeap_cases {M M' : Mem} {n k : Nat} {cur : Word} {any any' : Bool}
    (hr : loop (scanHeapStep e g n) k (cur, any, M) = .ok (any', M')) :
    (∃ j any₁ M₁, cur ≠ 0 ∧
      loop (scanBlockStep e g n cur (M cur &&& SIZE_MASK).toNat) n (0, any, M) = .ok (any₁, M₁) ∧
      loop (scanHeapStep e g n) j (next M₁ cur, any₁, M₁) = .ok (any', M')) ∨
    cur = 0 ∧ any' = any ∧ M' = M := by
  by_cases h0 : cur = 0
  · have := loop_of_done (by rw [scanHeapStep, if_pos h0]) hr
    cases this
    exact .inr ⟨h0, rfl, rfl⟩
  · refine .inl ?_
    rcases loop_cases hr with ⟨j, s', -, hb, hrest⟩ | hb
    · rw [scanHeapStep, if_neg h0, bind_ok] at hb
      obtain ⟨⟨any₁, M₁⟩, hblock, hb⟩ := hb
      cases hb
      exact ⟨j, any₁, M₁, h0, hblock, hrest⟩
    · rw [scanHeapStep, if_neg h0, bind_ok] at hb
      obtain ⟨⟨any₁, M₁⟩, -, hb⟩ := hb
      cases hb

theorem scanBlock_run {m m' : Mem} (hok : HeapOk g m bs) {n k idx max : Nat} {cur : Word}
    {any any' : Bool} {S : Set Word} (hS : OnBlocks bs S)
    (hr : loop (scanBlockStep e g n cur max) k (idx, any, marks m S) = .ok (any', m')) :
    ∃ S', afterPass e g bs m ((List.range' idx (max - idx)).map (payloadAddr cur)) (any, S) =
      (any', S') ∧ (∀ a ∈ (List.range' idx (max - idx)).map (payloadAddr cur),
        WordLands g bs m a) ∧ m' = marks m S' := by
  induction k generalizing idx any S with
  | zero => simp [loop] at hr
  | succ k ih =>
    rcases scanBlock_cases hr with ⟨j, any₁, m₁, hj, hi, hm₁, hl⟩ | ⟨hi, rfl, rfl⟩
    · rw [show max - idx = max - (idx + 1) + 1 by omega, List.range'_succ, List.map_cons,
        afterPass_cons]
      obtain rfl : k = j := by omega
      have hland : WordLands g bs m (payloadAddr cur idx) :=
        ⟨S, hS, chaseHeap_lands (finds_marks hok hS) hm₁⟩
      obtain ⟨rfl, rfl⟩ := chaseHeap_marks hok hS hm₁
      obtain ⟨S', h, hlands, hm'⟩ := ih (afterPass_onBlocks hok [_] (any, S) hS) hl
      exact ⟨S', h, List.forall_mem_cons.mpr ⟨hland, hlands⟩, hm'⟩
    · rw [show max - idx = 0 by omega]
      exact ⟨S, rfl, by simp, rfl⟩

theorem size_marks {m : Mem} (S : Set Word) {c : Block} (hinfo : m c.addr = c.info) :
    (marks m S c.addr &&& SIZE_MASK).toNat = c.size := by
  unfold marks Block.size
  split <;> simp [hinfo]

theorem next_marks {m : Mem} (hok : HeapOk g m bs) {S : Set Word} (hS : OnBlocks bs S) {c : Block}
    (hc : c ∈ bs) : next (marks m S) c.addr = next m c.addr := by
  apply marks_of_notMem
  intro h
  obtain ⟨d, hd, hda, -⟩ := hS _ h
  exact (addr_ne_link hok.fill hc hd).1 hda.symm

theorem scanHeap_run {m m' : Mem} (hok : HeapOk g m bs) {n k : Nat} {cur : Word}
    {any any' : Bool} {S : Set Word} (hS : OnBlocks bs S) {cs : List Block} (hsub : cs ⊆ bs)
    (hl : Linked m cur cs)
    (hr : loop (scanHeapStep e g n) k (cur, any, marks m S) = .ok (any', m')) :
    ∃ S', afterPass e g bs m (cs.flatMap payload) (any, S) = (any', S') ∧
      (∀ a ∈ cs.flatMap payload, WordLands g bs m a) ∧ m' = marks m S' := by
  induction cs generalizing k cur any S with
  | nil =>
    obtain rfl : cur = 0 := hl
    rcases scanHeap_cases hr with ⟨j, any₁, m₁, h0, -⟩ | ⟨-, rfl, rfl⟩
    · exact absurd rfl h0
    · exact ⟨S, rfl, by simp, rfl⟩
  | cons c cs ih =>
    have hc : c ∈ bs := hsub (by simp)
    obtain ⟨h0, ⟨rfl, hinfo, -⟩, hl⟩ := hl
    rw [List.flatMap_cons, afterPass_append]
    rcases scanHeap_cases hr with ⟨j, any₁, m₁, -, hm₁, hrest⟩ | ⟨hzero, -⟩
    · rw [size_marks S hinfo] at hm₁
      obtain ⟨S₁, hS₁, hland, rfl⟩ := scanBlock_run hok hS hm₁
      rw [Nat.sub_zero, ← List.range_eq_range'] at hS₁ hland
      have hpass : afterPass e g bs m (payload c) (any, S) = (any₁, S₁) := hS₁
      have hon : OnBlocks bs S₁ := by
        have := afterPass_onBlocks (e := e) hok (payload c) (any, S) hS
        rwa [hpass] at this
      rw [next_marks hok hon hc] at hrest
      rw [hpass]
      obtain ⟨S', h, hlands, hm'⟩ := ih hon (fun d hd => hsub (List.mem_cons_of_mem _ hd)) hl hrest
      exact ⟨S', h, List.forall_mem_append.mpr ⟨hland, hlands⟩, hm'⟩
    · exact absurd hzero h0

theorem markHeap_run {m m' : Mem} (hok : HeapOk g m bs) {n k : Nat} {S : Set Word}
    (hS : OnBlocks bs S) (hr : loop (markHeapStep e g n) k (marks m S) = .ok m') :
    ∃ S', Rounds e g bs m (payloads bs) S S' ∧ (∀ a ∈ payloads bs, WordLands g bs m a) ∧
      m' = marks m S' ∧ OnBlocks bs S' := by
  induction k generalizing S with
  | zero => simp [loop] at hr
  | succ k ih =>
    have hpass : ∀ any' m₁, loop (scanHeapStep e g n) n (g.heap, false, marks m S) = .ok (any', m₁) →
        ∃ S₁, afterPass e g bs m (payloads bs) (false, S) = (any', S₁) ∧
          (∀ a ∈ payloads bs, WordLands g bs m a) ∧ m₁ = marks m S₁ ∧ OnBlocks bs S₁ := by
      intro any' m₁ h
      obtain ⟨S₁, h1, h2, h3⟩ := scanHeap_run hok hS (fun _ h => h) hok.linked h
      refine ⟨S₁, h1, h2, h3, ?_⟩
      have := afterPass_onBlocks (e := e) hok (payloads bs) (false, S) hS
      rwa [payloads, h1] at this
    rcases loop_cases hr with ⟨j, s', hj, hb, hl⟩ | hb
    · rw [markHeapStep, bind_ok] at hb
      obtain ⟨⟨any', m₁⟩, hm₁, hb⟩ := hb
      obtain ⟨S₁, h1, hland, rfl, hon⟩ := hpass any' m₁ hm₁
      cases any' with
      | false => cases hb
      | true =>
        cases hb
        obtain rfl : k = j := by omega
        obtain ⟨S', h2, h3⟩ := ih hon hl
        exact ⟨S', .more h1 h2, h3⟩
    · rw [markHeapStep, bind_ok] at hb
      obtain ⟨⟨any', m₁⟩, hm₁, hb⟩ := hb
      obtain ⟨S₁, h1, hland, rfl, hon⟩ := hpass any' m₁ hm₁
      cases any' with
      | false => cases hb; exact ⟨S₁, .last h1, hland, rfl, hon⟩
      | true => cases hb

/-! ## The mark phase -/

/-- Steps 1a to 1c. -/
def markAll (e : Env) (g : Statics) (n : Nat) (m : Mem) : C Mem := do
  let m ← markGlobals e g n m
  let m ← markStack e g n m
  markHeap e g n m

/-- The roots in the order of the scan, for the stack words `l`. -/
def roots (e : Env) (l : List Word) : List Root :=
  (List.range (globalLength e)).map (globalRoot e) ++ l.map (stackRoot e)

/-- Steps 1a and 1b. -/
theorem markRoots_run {m m₁ m₂ : Mem} (hok : HeapOk g m bs) (hlay : Layout e g) {n : Nat}
    {S : Set Word} (hS : OnBlocks bs S) (h1 : markGlobals e g n (marks m S) = .ok m₁)
    (h2 : markStack e g n m₁ = .ok m₂) :
    ∃ l S', StackWords m g.stack_top g.frame_bottom l ∧
      S' = afterRoots e g bs m (roots e l) S ∧ RootsPass e g bs m (roots e l) S ∧
      m₂ = marks m S' ∧ OnBlocks bs S' := by
  unfold markGlobals at h1
  obtain ⟨S₁, hS₁, hpass₁, rfl, hon₁⟩ := markGlobals_run hok hS h1
  obtain ⟨l, S₂, hl, hS₂, hpass₂, rfl, hon₂⟩ := markStack_run hok hlay le_rfl hon₁ h2
  rw [Nat.sub_zero, ← List.range_eq_range'] at hS₁ hpass₁
  refine ⟨l, S₂, hl, ?_, ?_, rfl, hon₂⟩
  · rw [roots, afterRoots_append, ← hS₁]
    exact hS₂
  · rw [roots, rootsPass_append, ← hS₁]
    exact ⟨hpass₁, hpass₂⟩

/-- Steps 1a to 1c, with the stack words `l`, mark the blocks in `S`. -/
structure MarkedBy (e : Env) (g : Statics) (bs : List Block) (m : Mem) (l : List Word)
    (S : Set Word) : Prop where
  stack : StackWords m g.stack_top g.frame_bottom l
  rounds : Rounds e g bs m (payloads bs) (afterRoots e g bs m (roots e l) ∅) S
  roots_land : ∀ r ∈ roots e l, RootLands g bs m r
  words_land : ∀ a ∈ payloads bs, WordLands g bs m a
  on_blocks : OnBlocks bs S

theorem markAll_ok {m m' : Mem} {n : Nat} : markAll e g n m = .ok m' ↔
    ∃ m₁ m₂, markGlobals e g n m = .ok m₁ ∧ markStack e g n m₁ = .ok m₂ ∧
      markHeap e g n m₂ = .ok m' := by
  unfold markAll
  simp only [bind_ok]
  constructor
  · rintro ⟨m₁, h1, m₂, h2, h3⟩
    exact ⟨m₁, m₂, h1, h2, h3⟩
  · rintro ⟨m₁, m₂, h1, h2, h3⟩
    exact ⟨m₁, h1, m₂, h2, h3⟩

theorem mark_run {m m' : Mem} (hok : HeapOk g m bs) (hlay : Layout e g) {n : Nat}
    (h : markAll e g n m = .ok m') : ∃ l S, MarkedBy e g bs m l S ∧ m' = marks m S := by
  obtain ⟨m₁, m₂, h1, h2, h3⟩ := markAll_ok.mp h
  have hempty : OnBlocks bs ∅ := by simp [OnBlocks]
  rw [← marks_empty m] at h1
  obtain ⟨l, S₁, hl, rfl, hpass, rfl, hon⟩ := markRoots_run hok hlay hempty h1 h2
  obtain ⟨S, hS, hland, rfl, hon'⟩ := markHeap_run hok hon h3
  exact ⟨l, S, ⟨hl, hS, rootsPass_lands hok hempty hpass, hland, hon'⟩, rfl⟩

/-- Marking marks blocks and nothing else. -/
theorem mark_marks {m m' : Mem} (hok : HeapOk g m bs) {n : Nat} (h : markAll e g n m = .ok m') :
    ∃ S, m' = marks m S ∧ OnBlocks bs S := by
  obtain ⟨m₁, m₂, h1, h2, h3⟩ := markAll_ok.mp h
  unfold markGlobals at h1
  rw [← marks_empty m] at h1
  obtain ⟨S₁, -, -, rfl, hon₁⟩ := markGlobals_run hok (by simp [OnBlocks]) h1
  obtain ⟨S₂, rfl, hon₂⟩ := markStack_marks hok hon₁ h2
  obtain ⟨S, -, -, h⟩ := markHeap_run hok hon₂ h3
  exact ⟨S, h⟩

end

end Cs720.Alloc
