import Cs720.Alloc.Safety

/-! # What a collection frees

The blocks that steps 1a to 1c mark, as a set of chains through memory before the call. Step 1c
starts a chain at every payload word, whether its block is marked or not.
-/

namespace Cs720.Alloc

open Cs720.Lib

/-- User space: the lower half of the addresses. -/
structure LowHalf (e : Env) (g : Statics) : Prop where
  globals : e.data_end.toNat < 2 ^ 63
  heap : (heapEnd g).toNat < 2 ^ 63
  stack : g.frame_bottom.toNat < 2 ^ 63

section
variable (e : Env) (g : Statics) (bs : List Block) (m : Mem)

def allocs : Set Word := {a | ∃ b ∈ bs, b.addr = a ∧ b.alloc = true}

/-- `m` with all allocated blocks marked. Mark bits matter to a chain only where a load cuts across
a header. -/
noncomputable def full : Mem := marks m (allocs bs)

/-! ## Chains -/

/-- `k` loads lead from the word `w` to the word `v`, through static memory and blocks in `P`. -/
inductive Path (P : Word → Prop) : Nat → Word → Word → Prop
  | here {w : Word} : Path P 0 w w
  | block {k : Nat} {w v : Word} : w ≠ 0 → inHeapRange g w = true → owner g bs w ≠ 0 →
      P (owner g bs w) → Path P k (readLong (full bs m) w) v → Path P (k + 1) w v
  | static {k : Nat} {w v : Word} : w ≠ 0 → inHeapRange g w = false →
      (inGlobalRange e w || inStackRange g w) = true → Path P k (readLong (full bs m) w) v →
      Path P (k + 1) w v

/-- The last word of the path is an address of the block `b`. -/
def LeadsTo (P : Word → Prop) (k : Nat) (w b : Word) : Prop :=
  ∃ v, Path e g bs m P k w v ∧ v ≠ 0 ∧ inHeapRange g v = true ∧ owner g bs v = b ∧ b ≠ 0

/-- A root passes free blocks and those that roots before it led to. -/
def Passed (T : Set Word) (b : Word) : Prop := b ∈ T ∨ isAlloc (m b) = false

/-- The block that the root leads to, after roots that led to `T`. -/
def rootLeads (T : Set Word) (r : Root) : Set Word :=
  {b | r.1 m = false ∧ (∃ k < 100, LeadsTo e g bs m (Passed m T) k (readLong m r.2) b) ∧
    isAlloc (m b) = true ∧ b ∉ T}

/-- The blocks that the roots lead to, one after the other. -/
def rootsLead (rs : List Root) (T : Set Word) : Set Word :=
  rs.foldl (fun T r => T ∪ rootLeads e g bs m T r) T

/-- The blocks that a payload word of any block leads to. -/
def fieldsLead : Set Word :=
  {b | isAlloc (m b) = true ∧ ∃ a ∈ payloads bs, ∃ k, LeadsTo e g bs m (fun _ => True) k (m a) b}

/-- No range holds the word. -/
def Dead (w : Word) : Prop :=
  inHeapRange g w = false ∧ (inGlobalRange e w || inStackRange g w) = false

variable {e g bs m}

theorem leadsTo_dead {P : Word → Prop} {k : Nat} {w b : Word} (hdead : Dead e g w) :
    ¬ LeadsTo e g bs m P k w b := by
  rintro ⟨v, hpath, -, hheap, -, -⟩
  obtain ⟨h1, h2⟩ := hdead
  rcases hpath with _ | ⟨-, h, -, -, -⟩ | ⟨-, -, h, -⟩
  · rw [h1] at hheap
    contradiction
  · rw [h1] at h
    contradiction
  · rw [h2] at h
    contradiction

theorem path_mono {P Q : Word → Prop} (hPQ : ∀ b, P b → Q b) {k : Nat} {w v : Word}
    (h : Path e g bs m P k w v) : Path e g bs m Q k w v := by
  induction h with
  | here => exact .here
  | block h0 hheap hnull hP _ ih => exact .block h0 hheap hnull (hPQ _ hP) ih
  | static h0 hnot hst _ ih => exact .static h0 hnot hst ih

/-! ## Loads while blocks are being marked -/

theorem isAlloc_toNat {i : Word} (h : isAlloc i = true) : 2 ^ 63 ≤ i.toNat := by
  unfold isAlloc at h
  rw [show ALLOC_BIT = BitVec.twoPow 64 63 by decide, BitVec.and_twoPow] at h
  split at h
  · rename_i hbit
    have hmsb : i.msb = true := by
      rw [BitVec.msb_eq_getLsbD_last]
      exact hbit
    rw [BitVec.msb_eq_decide, decide_eq_true_iff] at hmsb
    exact hmsb
  · simp at h

theorem isAlloc_dead (hlow : LowHalf e g) {i : Word} (h : isAlloc i = true) : Dead e g i := by
  have hi := isAlloc_toNat h
  have h1 := hlow.globals
  have h2 := hlow.heap
  have h3 := hlow.stack
  unfold Dead inHeapRange inGlobalRange inStackRange
  refine ⟨?_, ?_⟩
  · rw [Bool.and_eq_false_iff, decide_eq_false_iff_not, decide_eq_false_iff_not, BitVec.lt_def]
    omega
  · rw [Bool.or_eq_false_iff, Bool.and_eq_false_iff, Bool.and_eq_false_iff,
      decide_eq_false_iff_not, decide_eq_false_iff_not, decide_eq_false_iff_not, gt_iff_lt,
      BitVec.lt_def, BitVec.lt_def]
    omega

theorem marks_shift (T : Set Word) (a : Word) {k : Nat} (h0 : 0 < k) (h8 : k < 8) :
    marks m T a <<< (64 - 8 * k) = m a <<< (64 - 8 * k) := by
  have hmark : ∀ k : Fin 8, 0 < k.val → MARK_BIT <<< (64 - 8 * k.val) = 0#64 := by decide
  unfold marks
  split
  · rw [BitVec.shiftLeft_or_distrib, hmark ⟨k, h8⟩ h0, BitVec.or_zero]
  · rfl

/-- A load in the middle of the mark phase gives what it would give at its end, unless it cuts into
the header of a block that is still to be marked. -/
theorem readLong_marks (hok : HeapOk g m bs) (hlow : LowHalf e g) {T : Set Word}
    (hT : OnBlocks bs T) {w : Word}
    (hw : ∀ d ∈ bs, d.alloc = true → d.start < w.toNat → w.toNat < d.start + 8 → d.addr ∈ T) :
    readLong (marks m T) w = readLong (full bs m) w ∨
      Dead e g (readLong (marks m T) w) ∧ Dead e g (readLong (full bs m) w) := by
  have hsame : ∀ {a : Word}, (a ∈ allocs bs → a ∈ T) → marks m T a = full bs m a := by
    intro a ha
    unfold full
    by_cases haT : a ∈ T
    · rw [marks_of_mem m haT, marks_of_mem m (hT a haT)]
    · rw [marks_of_notMem m haT, marks_of_notMem m (fun h => haT (ha h))]
  by_cases haligned : w.toNat % 8 = 0
  · rw [readLong_aligned _ haligned, readLong_aligned _ haligned]
    by_cases hinfo : w ∈ allocs bs
    · right
      have halloc : isAlloc (m w) = true := by
        obtain ⟨d, hd, rfl, ha⟩ := hinfo
        rw [linked_info hok.linked hd]
        exact ha
      unfold full
      refine ⟨isAlloc_dead hlow ?_, isAlloc_dead hlow ?_⟩
      · rw [isAlloc_marks, halloc]
      · rw [isAlloc_marks, halloc]
    · exact Or.inl (hsame fun h => absurd h hinfo)
  · left
    have h8 : w.toNat % 8 < 8 := Nat.mod_lt _ (by decide)
    have hbase : (w - BitVec.ofNat 64 (w.toNat % 8)).toNat = w.toNat - w.toNat % 8 := by
      have hk : (BitVec.ofNat 64 (w.toNat % 8)).toNat = w.toNat % 8 := by
        rw [BitVec.toNat_ofNat]
        omega
      rw [BitVec.toNat_sub_of_le, hk]
      rw [BitVec.le_def, hk]
      omega
    have hlowWord : marks m T (w - BitVec.ofNat 64 (w.toNat % 8)) =
        full bs m (w - BitVec.ofNat 64 (w.toNat % 8)) := by
      apply hsame
      rintro ⟨d, hd, hda, ha⟩
      rw [← hda]
      have hstart : d.start = w.toNat - w.toNat % 8 := by
        unfold Block.start
        rw [hda, hbase]
      exact hw d hd ha (by omega) (by omega)
    unfold readLong
    simp only [hlowWord]
    unfold full
    rw [marks_shift T _ (by omega) h8, marks_shift (allocs bs) _ (by omega) h8]

/-- The loads of a chase, past a block. -/
theorem readLong_passed (hok : HeapOk g m bs) (hlow : LowHalf e g) {T : Set Word}
    (hT : OnBlocks bs T) {w : Word} (hnull : owner g bs w ≠ 0) (hpass : Passed m T (owner g bs w)) :
    readLong (marks m T) w = readLong (full bs m) w ∨
      Dead e g (readLong (marks m T) w) ∧ Dead e g (readLong (full bs m) w) := by
  apply readLong_marks hok hlow hT
  intro d hd ha h1 h2
  have howner : owner g bs w = d.addr := by
    rcases locate_inside g.heap hok.fill hd h1 (by unfold Block.stop; omega) with h | h
    · exact h
    · exact absurd h hnull
  rw [howner] at hpass
  rcases hpass with h | h
  · exact h
  · rw [linked_info hok.linked hd] at h
    unfold Block.alloc at ha
    rw [ha] at h
    contradiction

/-- The loads of a chase, past a word of static memory. -/
theorem readLong_static (hok : HeapOk g m bs) (hlow : LowHalf e g) {T : Set Word}
    (hT : OnBlocks bs T) {w : Word} (hnot : inHeapRange g w = false) :
    readLong (marks m T) w = readLong (full bs m) w ∨
      Dead e g (readLong (marks m T) w) ∧ Dead e g (readLong (full bs m) w) := by
  apply readLong_marks hok hlow hT
  intro d hd _ h1 h2
  rw [Bool.eq_false_iff, ne_eq, inHeapRange_iff hok] at hnot
  obtain ⟨h3, h4, -⟩ := fill_bounds hok.fill hd
  unfold Block.stop at h4
  omega

/-! ## Chases are chains -/

theorem not_passes (hok : HeapOk g m bs) (hunmarked : ∀ b ∈ bs, b.marked = false) {T : Set Word}
    {w : Word} (hnull : owner g bs w ≠ 0) :
    Passes (marks m T) (owner g bs w) ↔ Passed m T (owner g bs w) := by
  obtain ⟨b, hb, haddr⟩ := owner_mem hok hnull
  have hbm : isMarked (m (owner g bs w)) = false := by
    rw [← haddr, linked_info hok.linked hb]
    exact hunmarked b hb
  unfold Passes Passed
  rw [isMarked_marks, isAlloc_marks, hbm]
  simp

theorem chased_leads (hok : HeapOk g m bs) (hunmarked : ∀ b ∈ bs, b.marked = false)
    (hlow : LowHalf e g) {T : Set Word} (hT : OnBlocks bs T) {k : Nat} {w b : Word}
    (h : Chased e g bs (marks m T) k w b) :
    (∃ j < k, LeadsTo e g bs m (Passed m T) j w b) ∧ ¬ Passed m T b := by
  induction h with
  | mark h0 hheap hnull hpass =>
    rw [not_passes hok hunmarked hnull] at hpass
    exact ⟨⟨0, by omega, _, .here, h0, hheap, rfl, hnull⟩, hpass⟩
  | through h0 hheap hnull hpass _ ih =>
    rw [not_passes hok hunmarked hnull] at hpass
    obtain ⟨⟨j, hj, hlead⟩, hb⟩ := ih
    rcases readLong_passed hok hlow hT hnull hpass with heq | ⟨hdead, -⟩
    · rw [heq] at hlead
      obtain ⟨v, hpath, hv⟩ := hlead
      exact ⟨⟨j + 1, by omega, v, .block h0 hheap hnull hpass hpath, hv⟩, hb⟩
    · exact absurd hlead (leadsTo_dead hdead)
  | static h0 hnot hst _ ih =>
    obtain ⟨⟨j, hj, hlead⟩, hb⟩ := ih
    rcases readLong_static hok hlow hT hnot with heq | ⟨hdead, -⟩
    · rw [heq] at hlead
      obtain ⟨v, hpath, hv⟩ := hlead
      exact ⟨⟨j + 1, by omega, v, .static h0 hnot hst hpath, hv⟩, hb⟩
    · exact absurd hlead (leadsTo_dead hdead)

theorem leads_chased (hok : HeapOk g m bs) (hunmarked : ∀ b ∈ bs, b.marked = false)
    (hlow : LowHalf e g) {T : Set Word} (hT : OnBlocks bs T) {k : Nat} {w b : Word}
    (hb : ¬ Passed m T b) (h : LeadsTo e g bs m (Passed m T) k w b) :
    Chased e g bs (marks m T) (k + 1) w b := by
  obtain ⟨v, hpath, h0, hheap, rfl, hnull⟩ := h
  induction hpath with
  | here => exact .mark h0 hheap hnull (mt (not_passes hok hunmarked hnull).mp hb)
  | block h0' hheap' hnull' hpass hrest ih =>
    have hlead := ih h0 hheap hb hnull
    rcases readLong_passed hok hlow hT hnull' hpass with heq | ⟨-, hdead⟩
    · rw [← heq] at hlead
      exact .through h0' hheap' hnull' ((not_passes hok hunmarked hnull').mpr hpass) hlead
    · exact absurd ⟨_, hrest, h0, hheap, rfl, hnull⟩ (leadsTo_dead hdead)
  | static h0' hnot hst hrest ih =>
    have hlead := ih h0 hheap hb hnull
    rcases readLong_static hok hlow hT hnot with heq | ⟨-, hdead⟩
    · rw [← heq] at hlead
      exact .static h0' hnot hst hlead
    · exact absurd ⟨_, hrest, h0, hheap, rfl, hnull⟩ (leadsTo_dead hdead)

/-- A longer budget finds what a shorter one finds. -/
theorem chased_mono {M : Mem} {k j : Nat} {w b : Word} (h : Chased e g bs M k w b) (hkj : k ≤ j) :
    Chased e g bs M j w b := by
  induction h generalizing j with
  | mark h0 hheap hnull hpass =>
    obtain ⟨i, rfl⟩ : ∃ i, j = i + 1 := ⟨j - 1, by omega⟩
    exact .mark h0 hheap hnull hpass
  | through h0 hheap hnull hpass _ ih =>
    obtain ⟨i, rfl⟩ : ∃ i, j = i + 1 := ⟨j - 1, by omega⟩
    exact .through h0 hheap hnull hpass (ih (by omega))
  | static h0 hnot hst _ ih =>
    obtain ⟨i, rfl⟩ : ∃ i, j = i + 1 := ⟨j - 1, by omega⟩
    exact .static h0 hnot hst (ih (by omega))

/-! ## Steps 1a and 1b -/

/-- Marking does not change what a root holds. -/
def Steady (bs : List Block) (m : Mem) (r : Root) : Prop :=
  ∀ T, OnBlocks bs T → readLong (marks m T) r.2 = readLong m r.2 ∧ r.1 (marks m T) = r.1 m

theorem rootHit_leads (hok : HeapOk g m bs) (hunmarked : ∀ b ∈ bs, b.marked = false)
    (hlow : LowHalf e g) {T : Set Word} (hT : OnBlocks bs T) {r : Root} (hr : Steady bs m r) :
    rootHit e g bs m T r = rootLeads e g bs m T r := by
  have hpassed : ∀ b, ¬ Passed m T b ↔ isAlloc (m b) = true ∧ b ∉ T := by
    intro b
    unfold Passed
    rw [not_or, Bool.not_eq_false, and_comm]
  obtain ⟨hread, hig⟩ := hr T hT
  ext b
  unfold rootHit rootLeads
  simp only [Set.mem_ofPred_eq, hread, hig]
  constructor
  · rintro ⟨h1, h2⟩
    obtain ⟨h3, h4⟩ := chased_leads hok hunmarked hlow hT h2
    exact ⟨h1, h3, (hpassed b).mp h4⟩
  · rintro ⟨h1, ⟨k, hk, h2⟩, h3⟩
    have h4 := leads_chased hok hunmarked hlow hT ((hpassed b).mpr h3) h2
    exact ⟨h1, chased_mono h4 (by omega)⟩

theorem afterRoots_leads (hok : HeapOk g m bs) (hunmarked : ∀ b ∈ bs, b.marked = false)
    (hlow : LowHalf e g) {rs : List Root} (hrs : ∀ r ∈ rs, Steady bs m r) {T : Set Word}
    (hT : OnBlocks bs T) : afterRoots e g bs m rs T = rootsLead e g bs m rs T := by
  induction rs generalizing T with
  | nil => rfl
  | cons r rs ih =>
    rw [List.forall_mem_cons] at hrs
    unfold afterRoots rootsLead at *
    rw [List.foldl_cons, List.foldl_cons, ← rootHit_leads hok hunmarked hlow hT hrs.1]
    exact ih hrs.2 (rootHit_onBlocks hok hT r)

/-! ## Step 1c -/

/-- What step 1c marks, a payload word leads to. -/
theorem heapHit_leads (hok : HeapOk g m bs) (hunmarked : ∀ b ∈ bs, b.marked = false)
    (hlow : LowHalf e g) {T : Set Word} (hT : OnBlocks bs T) {a : Word} (ha : a ∈ payloads bs) :
    heapHit e g bs m T a ⊆ fieldsLead e g bs m := by
  rintro b ⟨k, h⟩
  obtain ⟨c, hc, hac⟩ := List.mem_flatMap.mp ha
  have haligned := (payload_mem hac (fill_bounds hok.fill hc).2.2
    (fill_aligned hok.fill hok.aligned hc)).2
  rw [readLong_aligned _ haligned, marks_payload hok hT hc hac] at h
  obtain ⟨⟨j, -, v, hpath, hv⟩, hb⟩ := chased_leads hok hunmarked hlow hT h
  refine ⟨?_, a, ha, j, v, path_mono (fun _ _ => trivial) hpath, hv⟩
  unfold Passed at hb
  rw [not_or, Bool.not_eq_false] at hb
  exact hb.2

theorem afterPass_leads (hok : HeapOk g m bs) (hunmarked : ∀ b ∈ bs, b.marked = false)
    (hlow : LowHalf e g) {as : List Word} (has : as ⊆ payloads bs) (st : Bool × Set Word)
    (hst : OnBlocks bs st.2) :
    (afterPass e g bs m as st).2 ⊆ st.2 ∪ fieldsLead e g bs m := by
  induction as generalizing st with
  | nil => exact fun _ h => Or.inl h
  | cons a as ih =>
    rw [List.cons_subset] at has
    rw [afterPass_cons]
    intro b hb
    rcases ih has.2 _ (heapHit_onBlocks hok hst a) hb with (h | h) | h
    · exact Or.inl h
    · exact Or.inr (heapHit_leads hok hunmarked hlow hst has.1 h)
    · exact Or.inr h

theorem rounds_leads (hok : HeapOk g m bs) (hunmarked : ∀ b ∈ bs, b.marked = false)
    (hlow : LowHalf e g) {S S' : Set Word} (hS : OnBlocks bs S)
    (h : Rounds e g bs m (payloads bs) S S') : S' ⊆ S ∪ fieldsLead e g bs m := by
  induction h with
  | @last S S' h =>
    have hsub := afterPass_leads hok hunmarked hlow (fun _ h => h) (false, S) hS
    rw [h] at hsub
    exact hsub
  | @more S S₁ S' h _ ih =>
    have hsub := afterPass_leads hok hunmarked hlow (fun _ h => h) (false, S) hS
    have hon := afterPass_onBlocks (e := e) hok (payloads bs) (false, S) hS
    rw [h] at hsub hon
    intro b hb
    rcases ih hon hb with h | h
    · exact hsub h
    · exact Or.inr h

/-- Once a chase marks nothing more, all its chain leads to is marked. -/
theorem leads_marked (hok : HeapOk g m bs) (hunmarked : ∀ b ∈ bs, b.marked = false)
    (hlow : LowHalf e g) {S : Set Word} (hS : OnBlocks bs S) {k : Nat} {w b : Word}
    (hnone : ∀ j c, ¬ Chased e g bs (marks m S) j w c) (hb : isAlloc (m b) = true)
    (h : LeadsTo e g bs m (fun _ => True) k w b) : b ∈ S := by
  have hpassed : ∀ {w : Word}, (∀ j c, ¬ Chased e g bs (marks m S) j w c) → w ≠ 0 →
      inHeapRange g w = true → owner g bs w ≠ 0 → Passed m S (owner g bs w) := by
    intro w hnone h0 hheap hnull
    by_contra hpass
    exact hnone 1 _ (.mark h0 hheap hnull (mt (not_passes hok hunmarked hnull).mp hpass))
  obtain ⟨v, hpath, h0, hheap, rfl, hnull⟩ := h
  induction hpath with
  | here =>
    rcases hpassed hnone h0 hheap hnull with h | h
    · exact h
    · rw [hb] at h
      contradiction
  | block h0' hheap' hnull' _ hrest ih =>
    have hpass := hpassed hnone h0' hheap' hnull'
    rcases readLong_passed hok hlow hS hnull' hpass with heq | ⟨-, hdead⟩
    · rw [← heq] at ih
      refine ih (fun j c hc => hnone (j + 1) c ?_) h0 hheap hb hnull
      exact .through h0' hheap' hnull' ((not_passes hok hunmarked hnull').mpr hpass) hc
    · exact absurd ⟨_, hrest, h0, hheap, rfl, hnull⟩ (leadsTo_dead hdead)
  | static h0' hnot hst hrest ih =>
    rcases readLong_static hok hlow hS hnot with heq | ⟨-, hdead⟩
    · rw [← heq] at ih
      refine ih (fun j c hc => hnone (j + 1) c ?_) h0 hheap hb hnull
      exact .static h0' hnot hst hc
    · exact absurd ⟨_, hrest, h0, hheap, rfl, hnull⟩ (leadsTo_dead hdead)

/-! ## The marked set -/

theorem roots_steady (hok : HeapOk g m bs) (hlay : Layout e g) {l : List Word}
    (hl : StackWords m g.stack_top g.frame_bottom l) : ∀ r ∈ roots e l, Steady bs m r := by
  refine List.forall_mem_append.mpr ⟨?_, ?_⟩
  · rintro r hr T hT
    obtain ⟨i, hi, rfl⟩ := List.mem_map.mp hr
    obtain ⟨hout, haligned⟩ := globals_outside hlay (List.mem_range.mp hi)
    have hread := marks_outside hok hT hout haligned
    refine ⟨hread, ?_⟩
    unfold globalRoot
    simp only [hread]
  · rintro r hr T hT
    obtain ⟨a, ha, rfl⟩ := List.mem_map.mp hr
    obtain ⟨habove, haligned⟩ := stackWords_above hl hlay.stack_aligned a ha
    exact ⟨marks_outside hok hT (Or.inr (le_trans hlay.stack_above habove)) haligned, rfl⟩

/-- The mark phase marks what the roots and the payload words lead to. -/
theorem marked_iff (hok : HeapOk g m bs) (hunmarked : ∀ b ∈ bs, b.marked = false)
    (hlay : Layout e g) (hlow : LowHalf e g) {l : List Word} {S : Set Word}
    (hmark : MarkedBy e g bs m l S) :
    S = rootsLead e g bs m (roots e l) ∅ ∪ fieldsLead e g bs m := by
  have hempty : OnBlocks bs ∅ := by simp [OnBlocks]
  have hroots := afterRoots_leads hok hunmarked hlow (roots_steady hok hlay hmark.stack) hempty
  have honroots : ∀ rs T, OnBlocks bs T → OnBlocks bs (afterRoots e g bs m rs T) := by
    intro rs
    induction rs with
    | nil => exact fun T hT => hT
    | cons r rs ih => exact fun T hT => ih _ (rootHit_onBlocks hok hT r)
  obtain ⟨hsub, hlast⟩ := rounds_last hmark.rounds
  rw [← hroots]
  apply Set.Subset.antisymm
  · exact rounds_leads hok hunmarked hlow (honroots _ _ hempty) hmark.rounds
  · rintro b (hb | ⟨halloc, a, ha, k, hlead⟩)
    · exact hsub hb
    · obtain ⟨c, hc, hac⟩ := List.mem_flatMap.mp ha
      have haligned := (payload_mem hac (fill_bounds hok.fill hc).2.2
        (fill_aligned hok.fill hok.aligned hc)).2
      refine leads_marked hok hunmarked hlow hmark.on_blocks (w := m a) ?_ halloc hlead
      intro j d hd
      have hmem : d ∈ heapHit e g bs m S a := by
        refine ⟨j, ?_⟩
        rw [readLong_aligned _ haligned, marks_payload hok hmark.on_blocks hc hac]
        exact hd
      rw [hlast a ha] at hmem
      exact absurd hmem (by simp)

/-! ## What is free afterwards -/

theorem freed_iff (hok : HeapOk g m bs) (hunmarked : ∀ b ∈ bs, b.marked = false) {S : Set Word}
    {M : Mem} (hok' : HeapOk g M (collected bs S)) {b : Block} (hb : b ∈ bs)
    (halloc : b.alloc = true) : Freed b (collected bs S) ↔ b.addr ∉ S := by
  unfold collected at *
  constructor
  · rintro ⟨f, hf, hfree, hf1, hf2⟩ hbS
    have hkeep := sweepBlocks_keeps none (List.mem_map_of_mem hb)
      ((markIn_marked S b).mpr (Or.inl hbS))
    rw [unmark_markIn (hunmarked b hb) hbS] at hkeep
    have hlt := b.start_lt_stop
    have hbf : b = f := by
      apply tiles_unique Block.start_lt_stop hok'.fill.1 hkeep hf (p := b.start)
      · omega
      · omega
    rw [← hbf, halloc] at hfree
    contradiction
  · intro hbS
    have hfill : Fill g.heap.toNat ((none : Option Block).toList ++ bs.map (markIn S))
        (g.heap.toNat + 8 * g.total_heap_size.toNat) := by
      refine ⟨?_, hok.fill.2⟩
      rw [Option.toList_none, List.nil_append, tiles_map fun c _ => ⟨by simp [Block.start], by simp⟩]
      exact hok.fill.1
    have hbm : (markIn S b).marked = false := by
      rw [Bool.eq_false_iff, ne_eq, markIn_marked, hunmarked b hb]
      simp [hbS]
    obtain ⟨f, hf, hfree, hf1, hf2⟩ := sweepBlocks_frees none hfill (by simp)
      (Or.inr ⟨List.mem_map_of_mem hb, hbm⟩)
    refine ⟨f, hf, hfree, ?_, ?_⟩
    · simpa [Block.start] using hf1
    · simpa using hf2

end

/-! ## Precision -/

/-- The words that a chain from the roots other than `heap` holds. It goes on through those globals,
the stack, and the payload of an allocated block that it holds an address in or just past. -/
inductive Held (e : Env) (g : Statics) (bs : List Block) (m : Mem) : Word → Prop
  | root {a : Word} : Scanned e g m a → a ≠ e.heap_var → Held e g bs m (readLong m a)
  | static {w : Word} : Held e g bs m w → w ≠ e.heap_var →
      (inGlobalRange e w || inStackRange g w) = true → Held e g bs m (readLong m w)
  | block {b : Block} {w a : Word} : Held e g bs m w → b ∈ bs → b.alloc = true →
      b.start ≤ w.toNat ∧ w.toNat ≤ b.stop → a ∈ payload b ∨ a = w ∧ Inside b w →
      Held e g bs m (readLong m a)

/-- A chain from the roots holds an address in the block or just past it. -/
def Referenced (e : Env) (g : Statics) (bs : List Block) (m : Mem) (b : Block) : Prop :=
  ∃ w, Held e g bs m w ∧ b.start ≤ w.toNat ∧ w.toNat ≤ b.stop

/-- Every block that is not referenced is freed exactly when the roots, in their order, and the
payload words of all blocks lead to referenced blocks only. -/
theorem collector_precise_iff {e : Env} {n : Nat} {s s' : State} {r : BitVec 32} {bs : List Block}
    (hok : HeapOk s.toStatics s.mem bs) (hunmarked : ∀ b ∈ bs, b.marked = false)
    (hlay : Layout e s.toStatics) (hlow : LowHalf e s.toStatics)
    (hsafe : HeadersSafe e s.toStatics) (h : markAndSweep e n s = .ok (s', r)) :
    ∃ bs', HeapOk s'.toStatics s'.mem bs' ∧
      ((∀ b ∈ bs, b.alloc = true → ¬ Referenced e s.toStatics bs s.mem b → Freed b bs') ↔
        ∀ l, StackWords s.mem s.stack_top s.frame_bottom l → ∀ b ∈ bs, b.alloc = true →
          (b.addr ∈ rootsLead e s.toStatics bs s.mem (roots e l) ∅ ∨
            b.addr ∈ fieldsLead e s.toStatics bs s.mem) →
          Referenced e s.toStatics bs s.mem b) := by
  obtain ⟨m, w, hm, hw, rfl, -⟩ := markAndSweep_ok h
  obtain ⟨l, S, hmark, rfl⟩ := mark_run hok hlay hm
  have hok' := (sweep_run (K := fun _ => False) hsafe (fun _ _ _ h => h.elim)
    (heapOk_marks hok hmark.on_blocks) (fun _ h => h.elim) hw).1
  have hS := marked_iff hok hunmarked hlay hlow hmark
  refine ⟨collected bs S, hok', ?_⟩
  constructor
  · intro hfreed l' hl' b hb halloc hlead
    rw [stackWords_unique hl' hmark.stack] at hlead
    by_contra href
    have := (freed_iff hok hunmarked hok' hb halloc).mp (hfreed b hb halloc href)
    rw [hS] at this
    exact this hlead
  · intro hcond b hb halloc href
    rw [freed_iff hok hunmarked hok' hb halloc, hS]
    exact fun hlead => href (hcond l hmark.stack b hb halloc hlead)

/-- The heap of `rooted`: its one allocated block is referenced. -/
theorem collector_precise_rooted : ∃ s r bs, markAndSweep twoGlobals 30 rooted = .ok (s, r) ∧
    HeapOk s.toStatics s.mem bs ∧
    ∀ b ∈ [⟨0x1000, infoMake 1#32 0#32 4, 0⟩, ⟨0x1038, 2, 0⟩], b.alloc = true →
      ¬ Referenced twoGlobals rooted.toStatics
        [⟨0x1000, infoMake 1#32 0#32 4, 0⟩, ⟨0x1038, 2, 0⟩] rooted.mem b → Freed b bs := by
  obtain ⟨⟨s, r⟩, h⟩ := ok_of_isOk (x := markAndSweep twoGlobals 30 rooted) rfl
  have hlow : LowHalf twoGlobals rooted.toStatics := ⟨by decide, by decide, by decide⟩
  obtain ⟨bs, hok', hiff⟩ := collector_precise_iff rooted_ok (by decide) rooted_layout hlow
    (fun _ _ _ h _ => h) h
  refine ⟨s, r, bs, h, hok', hiff.mpr ?_⟩
  intro l _ b hb halloc _
  refine ⟨0x1020, .root (a := 0x808) (Or.inl ⟨1, by decide, rfl⟩) (by decide), ?_⟩
  rcases List.mem_cons.mp hb with rfl | hb
  · decide
  · obtain rfl := List.mem_singleton.mp hb
    contradiction

/-! ### A chain of garbage -/

def oneGlobal : Env := ⟨0x800, 0x808, 0x800, fun _ m => m⟩

/-- The global is `heap`. The block at 0x1020, to which nothing points, points into the one at
0x1040. -/
def garbage : State where
  stack_top := 0x9000
  frame_bottom := 0x9000
  initialized := 1
  heap := 0x1000
  total_heap_size := 16
  mem a :=
    if a = 0x800 then 0x1000
    else if a = 0x1000 then 1
    else if a = 0x1008 then 0x1020
    else if a = 0x1020 then infoMake 1#32 0#32 1
    else if a = 0x1028 then 0x1040
    else if a = 0x1038 then 0x1058
    else if a = 0x1040 then infoMake 1#32 0#32 1
    else if a = 0x1048 then 0x1060
    else if a = 0x1060 then 1
    else 0

def garbageBlocks : List Block :=
  [⟨0x1000, 1, 0⟩, ⟨0x1020, infoMake 1#32 0#32 1, 0⟩, ⟨0x1040, infoMake 1#32 0#32 1, 0⟩,
    ⟨0x1060, 1, 0⟩]

theorem garbage_held (w : Word) :
    ¬ Held oneGlobal garbage.toStatics garbageBlocks garbage.mem w := by
  intro h
  induction h with
  | root hscan hne =>
    rcases hscan with ⟨i, hi, rfl⟩ | ⟨l, hl, ha⟩
    · obtain rfl : i = 0 := Nat.lt_one_iff.mp hi
      exact hne rfl
    · rcases hl with _ | ⟨hv, -, -⟩
      · simp at ha
      · exact hv.1 (by decide)
  | static _ _ _ ih => exact ih
  | block _ _ _ _ _ ih => exact ih

/-- The block at 0x1040 stays allocated. -/
theorem garbage_retained : ∃ s r b, markAndSweep oneGlobal 30 garbage = .ok (s, r) ∧
    HeapOk garbage.toStatics garbage.mem garbageBlocks ∧ Layout oneGlobal garbage.toStatics ∧
    b ∈ garbageBlocks ∧ b.alloc = true ∧ b.marked = false ∧
    ¬ Referenced oneGlobal garbage.toStatics garbageBlocks garbage.mem b ∧
    ∀ bs, HeapOk s.toStatics s.mem bs → ¬ Freed b bs := by
  obtain ⟨⟨s, r⟩, h, hmem⟩ := ok_and (x := markAndSweep oneGlobal 30 garbage)
    (p := fun x => [0x1000, 0x1008, 0x1010, 0x1040, 0x1048, 0x1050, 0x1060, 0x1068, 0x1070].map
      x.1.mem == [5, 0x1040, 0, infoMake 1#32 0#32 1, 0x1060, 0, 1, 0, 0]) rfl
  refine ⟨s, r, ⟨0x1040, infoMake 1#32 0#32 1, 0⟩, h, ?_, ?_, by decide, by decide, by decide, ?_, ?_⟩
  · exact ⟨rfl, by decide, by decide, ⟨by decide, ⟨rfl, rfl, rfl⟩, by decide, ⟨rfl, rfl, rfl⟩,
      by decide, ⟨rfl, rfl, rfl⟩, by decide, ⟨rfl, rfl, rfl⟩, rfl⟩,
      ⟨rfl, by decide, by decide, by decide, rfl⟩, by decide⟩
  · exact ⟨by decide, by decide, by decide, by decide, by decide, by decide, by decide⟩
  · rintro ⟨w, hw, -⟩
    exact garbage_held w hw
  · rintro bs hok ⟨f, hf, hfree, hf1, hf2⟩
    obtain ⟨m, w, -, -, rfl, -⟩ := markAndSweep_ok h
    simp only [beq_iff_eq, List.map_cons, List.map_nil, List.cons.injEq, and_true] at hmem
    obtain ⟨h1, h2, h3, h4, h5, h6, h7, h8, h9⟩ := hmem
    have hlist : Linked w.mem 0x1000 [⟨0x1000, 5, 0⟩, ⟨0x1040, infoMake 1#32 0#32 1, 0⟩,
        ⟨0x1060, 1, 0⟩] := by
      have hn1 : next w.mem 0x1000 = 0x1040 := h2
      have hn2 : next w.mem 0x1040 = 0x1060 := h5
      refine ⟨by decide, ⟨rfl, h1, h3⟩, ?_⟩
      rw [hn1]
      refine ⟨by decide, ⟨rfl, h4, h6⟩, ?_⟩
      rw [hn2]
      exact ⟨by decide, ⟨rfl, h7, h9⟩, h8⟩
    rw [linked_unique hok.linked hlist] at hf
    revert hf1 hf2 hfree
    rcases List.mem_cons.mp hf with rfl | hf
    · decide
    rcases List.mem_cons.mp hf with rfl | hf
    · decide
    · obtain rfl := List.mem_singleton.mp hf
      decide

end Cs720.Alloc
