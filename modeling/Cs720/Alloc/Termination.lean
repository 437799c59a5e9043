import Cs720.Lib.Chain
import Cs720.Alloc.Precision

/-! # When the mark phase ends

The chases of step 1c follow payload words with no bound. At its last pass no chase marks a block,
so each of them goes to the end of its chain through memory with all allocated blocks marked.
-/

namespace Cs720.Alloc

open Cs720.Lib

section
variable (e : Env) (g : Statics) (bs : List Block) (m : Mem)

/-- A chase that comes to `w` is over. -/
def Over (w : Word) : Prop := w = 0 ∨ Dead e g w

/-- The chain of loads from `w` ends. -/
def ChaseEnds (w : Word) : Prop := Ends (readLong (full bs m)) (Over e g) w

/-- `getBlock` finds a block for each address of the heap on the chain. -/
def ChaseLands (w : Word) : Prop := AllAlong (readLong (full bs m)) (Over e g) (Lands g bs) w

/-- The blocks that are marked before the mark phase. -/
def premarked : Set Word := {a | ∃ b ∈ bs, b.addr = a ∧ b.alloc = true ∧ b.marked = true}

variable {e g bs m}

theorem premarked_onBlocks : OnBlocks bs (premarked bs) := by
  rintro a ⟨b, hb, ha, halloc, -⟩
  exact ⟨b, hb, ha, halloc⟩

theorem marks_premarked (hok : HeapOk g m bs) : marks m (premarked bs) = m := by
  funext a
  by_cases ha : a ∈ premarked bs
  · rw [marks_of_mem m ha]
    obtain ⟨b, hb, rfl, -, hm⟩ := ha
    rw [linked_info hok.linked hb]
    exact mark_of_isMarked hm
  · exact marks_of_notMem m ha

theorem passes_marks (hok : HeapOk g m bs) {T : Set Word} (hpre : premarked bs ⊆ T) {w : Word}
    (hnull : owner g bs w ≠ 0) :
    Passes (marks m T) (owner g bs w) ↔ Passed m T (owner g bs w) := by
  obtain ⟨b, hb, haddr⟩ := owner_mem hok hnull
  have hinfo := linked_info hok.linked hb
  rw [← haddr]
  unfold Passes Passed
  rw [isMarked_marks, isAlloc_marks]
  constructor
  · rintro ((h | h) | h)
    · exact Or.inl h
    · rw [hinfo] at *
      rcases halloc : b.alloc with - | -
      · exact Or.inr halloc
      · exact Or.inl (hpre ⟨b, hb, rfl, halloc, h⟩)
    · exact Or.inr h
  · rintro (h | h)
    · exact Or.inl (Or.inl h)
    · exact Or.inr h

theorem not_over {w : Word} (h0 : w ≠ 0)
    (h : inHeapRange g w = true ∨ (inGlobalRange e w || inStackRange g w) = true) :
    ¬ Over e g w := by
  rintro (hw | ⟨h1, h2⟩)
  · exact h0 hw
  · rw [h1, h2] at h
    simp at h

/-- The two loads of `readLong_marks`, where what is over does not matter. -/
theorem load_iff {T : Set Word} {w : Word} {p : Word → Prop} (hp : ∀ v, Over e g v → p v)
    (h : readLong (marks m T) w = readLong (full bs m) w ∨
      Dead e g (readLong (marks m T) w) ∧ Dead e g (readLong (full bs m) w)) :
    p (readLong (marks m T) w) ↔ p (readLong (full bs m) w) := by
  rcases h with h | ⟨h1, h2⟩
  · rw [h]
  · exact iff_of_true (hp _ (Or.inr h1)) (hp _ (Or.inr h2))

/-- The chain ends, and lands on blocks on the way. -/
def Settles (e : Env) (g : Statics) (bs : List Block) (m : Mem) (w : Word) : Prop :=
  ChaseEnds e g bs m w ∧ ChaseLands e g bs m w

theorem settles_of_over {w : Word} (h : Over e g w) : Settles e g bs m w :=
  ⟨ends_of_over h, allAlong_of_over h⟩

theorem settles_of_next {w : Word} (hw : ¬ Over e g w) (hland : Lands g bs w)
    (h : Settles e g bs m (readLong (full bs m) w)) : Settles e g bs m w :=
  ⟨ends_of_next h.1, (allAlong_next hw).mpr ⟨hland, h.2⟩⟩

theorem payload_load (hok : HeapOk g m bs) {T : Set Word} (hT : OnBlocks bs T) {b : Block}
    (hb : b ∈ bs) {a : Word} (ha : a ∈ payload b) : readLong (marks m T) a = m a := by
  have haligned := (payload_mem ha (fill_bounds hok.fill hb).2.2
    (fill_aligned hok.fill hok.aligned hb)).2
  rw [readLong_aligned _ haligned, marks_payload hok hT hb ha]

/-! ## The last pass -/

/-- A chase that marks nothing goes to the end of its chain. -/
theorem chaseHeap_settles (hok : HeapOk g m bs) (hlow : LowHalf e g) {T : Set Word}
    (hT : OnBlocks bs T) (hpre : premarked bs ⊆ T) {n k : Nat} {w : Word} {m' : Mem}
    (hr : loop (chaseHeapStep e g n) k (w, false, marks m T) = .ok (false, m')) :
    Settles e g bs m w := by
  have hfinds := finds_marks hok hT
  induction k generalizing w with
  | zero => simp [loop] at hr
  | succ k ih =>
    rcases loop_cases hr with ⟨j, s', hj, hb, hl⟩ | hb
    · obtain rfl : k = j := by omega
      rcases chaseHeapStep_cases hfinds hb with ⟨-, hf⟩ | ⟨-, -, -, -, hf⟩ |
        ⟨h0, hheap, hnull, hpass, hf⟩ | ⟨h0, hnot, hst, hf⟩ | ⟨h0, hnot, hst, hf⟩
      · cases hf
      · cases hf
        cases chaseHeap_zero hl
      · cases hf
        have hload := readLong_passed hok hlow hT hnull ((passes_marks hok hpre hnull).mp hpass)
        exact settles_of_next (not_over h0 (Or.inl hheap)) (fun _ _ => hnull)
          ((load_iff (fun _ => settles_of_over) hload).mp (ih hl))
      · cases hf
        have hload := readLong_static hok hlow hT hnot
        refine settles_of_next (not_over h0 (Or.inr hst)) ?_
          ((load_iff (fun _ => settles_of_over) hload).mp (ih hl))
        intro _ hheap
        rw [hnot] at hheap
        contradiction
      · exact settles_of_over (Or.inr ⟨hnot, hst⟩)
    · rcases chaseHeapStep_cases hfinds hb with ⟨h0, -⟩ | ⟨-, -, -, -, hf⟩ | ⟨-, -, -, -, hf⟩ |
        ⟨-, -, -, hf⟩ | ⟨-, -, -, hf⟩
      · exact settles_of_over (Or.inl h0)
      all_goals cases hf

theorem onBlocks_chased (hok : HeapOk g m bs) {T : Set Word} (hT : OnBlocks bs T) {k : Nat}
    {w b : Word} (hc : Chased e g bs (marks m T) k w b) : OnBlocks bs (T ∪ {b}) := by
  rintro c (h | rfl)
  · exact hT c h
  · exact chased_block hok hc

/-- A chase in a pass that marks nothing. -/
theorem chaseHeap_false (hok : HeapOk g m bs) {T : Set Word} (hT : OnBlocks bs T) {n k : Nat}
    {w : Word} {any any₁ : Bool} {m₁ : Mem}
    (hr : loop (chaseHeapStep e g n) k (w, any, marks m T) = .ok (any₁, m₁))
    (hfalse : ∀ T', OnBlocks bs T' → m₁ = marks m T' → any₁ = false) :
    any = false ∧ any₁ = false ∧ m₁ = marks m T := by
  rcases chaseHeap_spec (finds_marks hok hT) hr with ⟨rfl, rfl, -⟩ | ⟨i, b, hc, rfl, hm⟩
  · have := hfalse T hT rfl
    exact ⟨this, this, rfl⟩
  · rw [marks_set] at hm
    exact absurd (hfalse _ (onBlocks_chased hok hT hc) hm) (by simp)

theorem scanBlock_settles (hok : HeapOk g m bs) (hlow : LowHalf e g) {T : Set Word}
    (hT : OnBlocks bs T) (hpre : premarked bs ⊆ T) {n k idx max : Nat} {cur : Word} {any : Bool}
    {m' : Mem}
    (hr : loop (scanBlockStep e g n cur max) k (idx, any, marks m T) = .ok (false, m')) :
    any = false ∧ m' = marks m T ∧ ∀ a ∈ (List.range' idx (max - idx)).map (payloadAddr cur),
      Settles e g bs m (readLong (marks m T) a) := by
  induction k generalizing idx any with
  | zero => simp [loop] at hr
  | succ k ih =>
    rcases scanBlock_cases hr with ⟨j, any₁, m₁, hj, hi, hm₁, hl⟩ | ⟨hi, rfl, rfl⟩
    · obtain rfl : k = j := by omega
      obtain ⟨rfl, rfl, rfl⟩ := chaseHeap_false hok hT hm₁ (by
        rintro T' hT' rfl
        obtain ⟨S', hpass, -⟩ := scanBlock_run hok hT' hl
        exact (afterPass_false hpass).1)
      obtain ⟨-, hm', hrest⟩ := ih hl
      rw [show max - idx = max - (idx + 1) + 1 by omega, List.range'_succ, List.map_cons]
      exact ⟨rfl, hm', List.forall_mem_cons.mpr
        ⟨chaseHeap_settles hok hlow hT hpre hm₁, hrest⟩⟩
    · rw [show max - idx = 0 by omega]
      exact ⟨rfl, rfl, by simp⟩

theorem scanHeap_settles (hok : HeapOk g m bs) (hlow : LowHalf e g) {T : Set Word}
    (hT : OnBlocks bs T) (hpre : premarked bs ⊆ T) {n k : Nat} {cur : Word} {any : Bool}
    {m' : Mem} {cs : List Block} (hsub : cs ⊆ bs) (hl : Linked m cur cs)
    (hr : loop (scanHeapStep e g n) k (cur, any, marks m T) = .ok (false, m')) :
    any = false ∧ ∀ a ∈ cs.flatMap payload, Settles e g bs m (m a) := by
  induction cs generalizing k cur any with
  | nil =>
    obtain rfl : cur = 0 := hl
    rcases scanHeap_cases hr with ⟨j, any₁, m₁, h0, -⟩ | ⟨-, rfl, -⟩
    · exact absurd rfl h0
    · exact ⟨rfl, by simp⟩
  | cons c cs ih =>
    have hc : c ∈ bs := hsub (by simp)
    obtain ⟨h0, ⟨rfl, hinfo, -⟩, hl⟩ := hl
    rcases scanHeap_cases hr with ⟨j, any₁, m₁, -, hm₁, hrest⟩ | ⟨hzero, -⟩
    · rw [size_marks T hinfo] at hm₁
      obtain ⟨S₁, hpass, -, rfl⟩ := scanBlock_run hok hT hm₁
      have hon : OnBlocks bs (any₁, S₁).2 := hpass ▸ afterPass_onBlocks hok _ (any, T) hT
      rw [next_marks hok hon hc] at hrest
      have hcs : cs ⊆ bs := fun d hd => hsub (List.mem_cons_of_mem _ hd)
      obtain ⟨S', hfalse, -⟩ := scanHeap_run hok hon hcs hl hrest
      obtain rfl := (afterPass_false hfalse).1
      obtain ⟨rfl, hsame, hblock⟩ := scanBlock_settles hok hlow hT hpre hm₁
      rw [hsame] at hrest
      refine ⟨rfl, List.forall_mem_append.mpr ⟨fun a ha => ?_, (ih hcs hl hrest).2⟩⟩
      rw [← payload_load hok hT hc ha]
      apply hblock
      rw [Nat.sub_zero, ← List.range_eq_range']
      exact ha
    · exact absurd hzero h0

theorem markHeap_settles (hok : HeapOk g m bs) (hlow : LowHalf e g) {T : Set Word}
    (hT : OnBlocks bs T) (hpre : premarked bs ⊆ T) {n : Nat} {m' : Mem}
    (hr : markHeap e g n (marks m T) = .ok m') : ∀ a ∈ payloads bs, Settles e g bs m (m a) := by
  unfold markHeap at hr
  refine loop_inv (fun M => ∃ S, M = marks m S ∧ OnBlocks bs S ∧ premarked bs ⊆ S)
    (fun _ => ∀ a ∈ payloads bs, Settles e g bs m (m a)) ?_ ?_ ⟨T, rfl, hT, hpre⟩ hr
  · rintro M M' ⟨S, rfl, hS, hpreS⟩ hstep
    rw [markHeapStep, bind_ok] at hstep
    obtain ⟨⟨any, m₁⟩, hm₁, hstep⟩ := hstep
    obtain ⟨S₁, hpass, -, rfl⟩ := scanHeap_run hok hS (fun _ h => h) hok.linked hm₁
    have hon : OnBlocks bs (any, S₁).2 := hpass ▸ afterPass_onBlocks hok _ (false, S) hS
    have hsub : S ⊆ (any, S₁).2 := hpass ▸ afterPass_sub _ _ _ _ _ (false, S)
    cases any with
    | true =>
      cases hstep
      exact ⟨S₁, rfl, hon, hpreS.trans hsub⟩
    | false => cases hstep
  · rintro M M' ⟨S, rfl, hS, hpreS⟩ hstep
    rw [markHeapStep, bind_ok] at hstep
    obtain ⟨⟨any, m₁⟩, hm₁, hstep⟩ := hstep
    cases any with
    | true => cases hstep
    | false => exact (scanHeap_settles hok hlow hS hpreS (fun _ h => h) hok.linked hm₁).2

/-! ## Passes that end -/

theorem getBlock_marks (hok : HeapOk g m bs) {T : Set Word} (hT : OnBlocks bs T) {n : Nat}
    (hn : bs.length < n) {w : Word} (hheap : inHeapRange g w = true) :
    getBlock g n (marks m T) w = .ok (owner g bs w) := by
  rw [getBlock_run (heapOk_marks hok hT) hheap (by simpa using hn), owner,
    locate_map _ (markIn_addr T)]

theorem chaseHeap_stop (n k : Nat) (safe : Prop) (any : Bool) (M : Mem) :
    Comes safe (loop (chaseHeapStep e g n) (k + 1) (0, any, M)) :=
  comes_done safe (by rw [chaseHeapStep, if_pos rfl])

theorem chaseHeap_over {n k : Nat} {w : Word} (safe : Prop) (any : Bool) (M : Mem)
    (h : Over e g w) : Comes safe (loop (chaseHeapStep e g n) (k + 2) (w, any, M)) := by
  by_cases h0 : w = 0
  · rw [h0]
    exact chaseHeap_stop n _ safe any M
  · obtain ⟨hnot, hst⟩ := h.resolve_left h0
    refine comes_next ?_ (chaseHeap_stop n k safe any M)
    rw [chaseHeapStep, if_neg h0, if_neg (by simp [hnot]), if_neg (by simp [hst])]

/-- A chase whose chain ends comes back, unless it comes to an address with no block. -/
theorem chaseHeap_comes (hok : HeapOk g m bs) (hlow : LowHalf e g) {T : Set Word}
    (hT : OnBlocks bs T) (hpre : premarked bs ⊆ T) {n : Nat} (hn : bs.length < n) {j k : Nat}
    {w : Word} {any : Bool} (hend : EndsIn (readLong (full bs m)) (Over e g) j w) (hk : j + 1 < k) :
    Comes (ChaseLands e g bs m w) (loop (chaseHeapStep e g n) k (w, any, marks m T)) := by
  obtain ⟨k, rfl⟩ : ∃ i, k = i + 2 := ⟨k - 2, by omega⟩
  induction j generalizing w k with
  | zero => exact chaseHeap_over _ any _ (endsIn_zero hend)
  | succ j ih =>
    by_cases hover : Over e g w
    · exact chaseHeap_over _ any _ hover
    obtain ⟨k, rfl⟩ : ∃ i, k = i + 1 := ⟨k - 1, by omega⟩
    have h0 : w ≠ 0 := fun h => hover (Or.inl h)
    -- The rest of the chase, after a load.
    have hrest : (readLong (marks m T) w = readLong (full bs m) w ∨
        Dead e g (readLong (marks m T) w) ∧ Dead e g (readLong (full bs m) w)) →
        Comes (ChaseLands e g bs m w)
          (loop (chaseHeapStep e g n) (k + 2) (readLong (marks m T) w, any, marks m T)) := by
      intro hload
      have hend' := (load_iff (p := EndsIn (readLong (full bs m)) (Over e g) j)
        (fun _ => endsIn_of_over j) hload).mpr (endsIn_next hover hend)
      refine (ih hend' k (by omega)).mono fun hland => ?_
      exact (load_iff (p := ChaseLands e g bs m) (fun _ => allAlong_of_over) hload).mpr
        ((allAlong_next hover).mp hland).2
    by_cases hheap : inHeapRange g w = true
    · have hblock := getBlock_marks hok hT hn hheap
      by_cases hnull : owner g bs w = 0
      · refine comes_stuck (e := .exit (-1)) ?_ (by simp) fun hland => ?_
        · rw [chaseHeapStep, if_neg h0, if_pos hheap, hblock]
          exact if_pos hnull
        · exact ((allAlong_next hover).mp hland).1 h0 hheap hnull
      by_cases hpass : Passes (marks m T) (owner g bs w)
      · refine comes_next ?_ (hrest
          (readLong_passed hok hlow hT hnull ((passes_marks hok hpre hnull).mp hpass)))
        rw [chaseHeapStep, if_neg h0, if_pos hheap, hblock]
        refine (if_neg hnull).trans (if_neg ?_)
        rw [passes_iff]
        exact not_not.mpr hpass
      · refine comes_next ?_ (chaseHeap_stop n (k + 1) _ true
          ((marks m T).set (owner g bs w) (marks m T (owner g bs w) ||| MARK_BIT)))
        rw [chaseHeapStep, if_neg h0, if_pos hheap, hblock]
        exact (if_neg hnull).trans (if_pos ((passes_iff _ _).mpr hpass))
    · rw [Bool.not_eq_true] at hheap
      refine comes_next ?_ (hrest (readLong_static hok hlow hT hheap))
      have hst : (inGlobalRange e w || inStackRange g w) = true := by
        by_contra hst
        exact hover (Or.inr ⟨hheap, by simpa using hst⟩)
      rw [chaseHeapStep, if_neg h0, if_neg (by simp [hheap]), if_pos hst]

/-- The mark phase has marked blocks and nothing else. -/
def Marking (bs : List Block) (m M : Mem) : Prop :=
  ∃ T, M = marks m T ∧ OnBlocks bs T ∧ premarked bs ⊆ T

theorem chaseHeap_marking (hok : HeapOk g m bs) {n k : Nat} {w : Word} {any any' : Bool}
    {M M' : Mem} (hM : Marking bs m M)
    (hr : loop (chaseHeapStep e g n) k (w, any, M) = .ok (any', M')) : Marking bs m M' := by
  obtain ⟨T, rfl, hT, hpre⟩ := hM
  rcases chaseHeap_spec (finds_marks hok hT) hr with ⟨rfl, -⟩ | ⟨i, b, hc, -, rfl⟩
  · exact ⟨T, rfl, hT, hpre⟩
  · exact ⟨T ∪ {b}, marks_set m T b, onBlocks_chased hok hT hc,
      hpre.trans Set.subset_union_left⟩

theorem scanBlock_marking (hok : HeapOk g m bs) {n k idx max : Nat} {cur : Word} {any any' : Bool}
    {M M' : Mem} (hM : Marking bs m M)
    (hr : loop (scanBlockStep e g n cur max) k (idx, any, M) = .ok (any', M')) :
    Marking bs m M' := by
  obtain ⟨T, rfl, hT, hpre⟩ := hM
  obtain ⟨S', hpass, -, rfl⟩ := scanBlock_run hok hT hr
  refine ⟨S', rfl, ?_, hpre.trans ?_⟩
  · have hon : OnBlocks bs (any', S').2 := hpass ▸ afterPass_onBlocks hok _ (any, T) hT
    exact hon
  · have hsub : T ⊆ (any', S').2 := hpass ▸ afterPass_sub _ _ _ _ _ (any, T)
    exact hsub

/-- All payload words lead to chains of at most `j` loads. -/
def PayloadsEnd (e : Env) (g : Statics) (bs : List Block) (m : Mem) (j : Nat) : Prop :=
  ∀ a ∈ payloads bs, EndsIn (readLong (full bs m)) (Over e g) j (m a)

def PayloadsLand (e : Env) (g : Statics) (bs : List Block) (m : Mem) : Prop :=
  ∀ a ∈ payloads bs, ChaseLands e g bs m (m a)

theorem scanBlock_comes (hok : HeapOk g m bs) (hlow : LowHalf e g) {n j k : Nat}
    (hn : bs.length < n) (hj : j + 1 < n) (hend : PayloadsEnd e g bs m j) {c : Block} (hc : c ∈ bs)
    (hk : c.size < k) {any : Bool} {M : Mem} (hM : Marking bs m M) :
    Comes (PayloadsLand e g bs m)
      (loop (scanBlockStep e g n c.addr c.size) k (0, any, M)) := by
  refine comes_loop (fun s => Marking bs m s.2.2) (fun s => c.size - s.1) ?_ ?_ (by simpa using hk)
    hM
  · rintro ⟨idx, any, M⟩ ⟨T, rfl, hT, hpre⟩
    rw [scanBlockStep]
    split
    · rename_i hidx
      have ha : payloadAddr c.addr idx ∈ payload c :=
        List.mem_map.mpr ⟨idx, List.mem_range.mpr hidx, rfl⟩
      have hpay : payloadAddr c.addr idx ∈ payloads bs := List.mem_flatMap.mpr ⟨c, hc, ha⟩
      rw [payload_load hok hT hc ha]
      exact comes_bind ((chaseHeap_comes hok hlow hT hpre hn (hend _ hpay) hj).mono
        fun h => h _ hpay) fun r _ => comes_ok _ _
    · exact comes_ok _ _
  · rintro ⟨idx, any, M⟩ s' hM hb
    rw [scanBlockStep] at hb
    split at hb
    · rename_i hidx
      obtain ⟨⟨any₁, m₁⟩, hm₁, hb⟩ := bind_ok.mp hb
      cases hb
      refine ⟨chaseHeap_marking hok hM hm₁, ?_⟩
      simp only
      omega
    · cases hb

theorem scanHeap_comes (hok : HeapOk g m bs) (hlow : LowHalf e g) {n j k : Nat}
    (hn : bs.length < n) (hj : j + 1 < n) (hsize : ∀ c ∈ bs, c.size < n)
    (hend : PayloadsEnd e g bs m j) {cs : List Block} (hsub : cs ⊆ bs) {cur : Word}
    (hl : Linked m cur cs) (hk : cs.length < k) {any : Bool} {M : Mem} (hM : Marking bs m M) :
    Comes (PayloadsLand e g bs m) (loop (scanHeapStep e g n) k (cur, any, M)) := by
  obtain ⟨k, rfl⟩ : ∃ i, k = i + 1 := ⟨k - 1, by omega⟩
  induction cs generalizing k cur any M with
  | nil =>
    obtain rfl : cur = 0 := hl
    exact comes_done _ (by rw [scanHeapStep, if_pos rfl])
  | cons c cs ih =>
    obtain ⟨h0, ⟨rfl, hinfo, -⟩, hl⟩ := hl
    rw [List.length_cons] at hk
    obtain ⟨k, rfl⟩ : ∃ i, k = i + 1 := ⟨k - 1, by omega⟩
    have hc : c ∈ bs := hsub (by simp)
    have hcs : cs ⊆ bs := fun d hd => hsub (List.mem_cons_of_mem _ hd)
    have hmax : (M c.addr &&& SIZE_MASK).toNat = c.size := by
      obtain ⟨T, rfl, -, -⟩ := hM
      exact size_marks T hinfo
    refine comes_first ?_ fun s' hb => ?_
    · rw [scanHeapStep, if_neg h0, hmax]
      exact comes_bind (scanBlock_comes hok hlow hn hj hend hc (hsize c hc) hM)
        fun r _ => comes_ok _ _
    · rw [scanHeapStep, if_neg h0, hmax] at hb
      obtain ⟨⟨any₁, m₁⟩, hm₁, hb⟩ := bind_ok.mp hb
      cases hb
      have hM₁ := scanBlock_marking hok hM hm₁
      have hnext : next m₁ c.addr = next m c.addr := by
        obtain ⟨T, rfl, hT, -⟩ := hM₁
        exact next_marks hok hT hc
      rw [hnext]
      exact ih hcs hl hM₁ k (by omega)

theorem passes_mono {T S : Set Word} (hsub : T ⊆ S) {b : Word} (h : Passes (marks m T) b) :
    Passes (marks m S) b := by
  unfold Passes at *
  rw [isMarked_marks, isAlloc_marks] at *
  rcases h with (h | h) | h
  · exact Or.inl (Or.inl (hsub h))
  · exact Or.inl (Or.inr h)
  · exact Or.inr h

theorem chased_waits {M : Mem} {k : Nat} {w b : Word} (h : Chased e g bs M k w b) :
    ¬ Passes M b := by
  induction h with
  | mark _ _ _ hpass => exact hpass
  | through _ _ _ _ _ ih => exact ih
  | static _ _ _ _ ih => exact ih

/-- A pass with `marked_any` has marked a block. -/
theorem afterPass_true (hok : HeapOk g m bs) {as : List Word} {any : Bool} {T S : Set Word}
    (hT : OnBlocks bs T) (h : afterPass e g bs m as (any, T) = (true, S)) :
    any = true ∨ ∃ b ∈ bs, b.addr ∈ S ∧ ¬ Passes (marks m T) b.addr := by
  induction as generalizing any T with
  | nil =>
    cases h
    exact Or.inl rfl
  | cons a as ih =>
    have hon := heapHit_onBlocks (e := e) hok hT a
    rcases ih hon h with hany | ⟨b, hb, hbS, hpass⟩
    · simp only [Bool.or_eq_true, decide_eq_true_eq] at hany
      refine hany.imp_right ?_
      rintro ⟨c, k, hc⟩
      obtain ⟨b, hb, rfl, -⟩ := chased_block hok hc
      have hsub : T ∪ heapHit e g bs m T a ⊆ (true, S).2 := h ▸ afterPass_sub e g bs m as (_, _)
      exact ⟨b, hb, hsub (Or.inr ⟨k, hc⟩), chased_waits hc⟩
    · exact Or.inr ⟨b, hb, hbS, fun hp => hpass (passes_mono Set.subset_union_left hp)⟩

instance (M : Mem) (b : Word) : Decidable (Passes M b) := inferInstanceAs (Decidable (_ ∨ _))

/-- The allocated blocks that are not marked yet. -/
def waiting (bs : List Block) (M : Mem) : Finset Block :=
  bs.toFinset.filter fun b => ¬ Passes M b.addr

theorem waiting_le (bs : List Block) (M : Mem) : (waiting bs M).card ≤ bs.length := by
  exact (Finset.card_le_card (Finset.filter_subset _ _)).trans bs.toFinset_card_le

/-- A pass that marks a block leaves fewer for the next. -/
theorem waiting_lt (hok : HeapOk g m bs) {T S : Set Word} (hT : OnBlocks bs T)
    (h : afterPass e g bs m (payloads bs) (false, T) = (true, S)) :
    (waiting bs (marks m S)).card < (waiting bs (marks m T)).card := by
  have hsub : T ⊆ (true, S).2 := h ▸ afterPass_sub _ _ _ _ _ (false, T)
  obtain ⟨b, hb, hbS, hpass⟩ := (afterPass_true hok hT h).resolve_left (by simp)
  unfold waiting
  apply Finset.card_lt_card
  refine ⟨fun c hc => ?_, fun hle => ?_⟩
  · rw [Finset.mem_filter] at hc ⊢
    exact ⟨hc.1, fun hp => hc.2 (passes_mono hsub hp)⟩
  · have hmem := hle (Finset.mem_filter.mpr ⟨List.mem_toFinset.mpr hb, hpass⟩)
    rw [Finset.mem_filter] at hmem
    exact hmem.2 (Or.inl ((isMarked_marks _ _ _).mpr (Or.inl hbS)))

theorem markHeap_comes (hok : HeapOk g m bs) (hlow : LowHalf e g) {n j : Nat}
    (hn : bs.length < n) (hj : j + 1 < n) (hsize : ∀ c ∈ bs, c.size < n)
    (hend : PayloadsEnd e g bs m j) {M : Mem} (hM : Marking bs m M) :
    Comes (PayloadsLand e g bs m) (markHeap e g n M) := by
  unfold markHeap
  refine comes_loop (Marking bs m) (fun M => (waiting bs M).card) ?_ ?_ ?_ hM
  · intro M hM
    rw [markHeapStep]
    refine comes_bind (scanHeap_comes hok hlow hn hj hsize hend (fun _ h => h) hok.linked hn hM) ?_
    rintro ⟨any, M'⟩ -
    cases any
    · exact comes_ok _ _
    · exact comes_ok _ _
  · rintro M M' ⟨T, rfl, hT, hpre⟩ hb
    rw [markHeapStep] at hb
    obtain ⟨⟨any, m₁⟩, hm₁, hb⟩ := bind_ok.mp hb
    obtain ⟨S, hpass, -, rfl⟩ := scanHeap_run hok hT (fun _ h => h) hok.linked hm₁
    cases any with
    | false => cases hb
    | true =>
      cases hb
      have hon : OnBlocks bs (true, S).2 := hpass ▸ afterPass_onBlocks hok _ (false, T) hT
      have hsub : T ⊆ (true, S).2 := hpass ▸ afterPass_sub _ _ _ _ _ (false, T)
      exact ⟨⟨S, rfl, hon, hpre.trans hsub⟩, waiting_lt hok hT hpass⟩
  · exact lt_of_le_of_lt (waiting_le bs M) hn

/-! ## Roots -/

theorem rootChase_comes (hok : HeapOk g m bs) {T : Set Word} (hT : OnBlocks bs T) {n : Nat}
    (hn : bs.length < n) (r : Root) :
    Comes (RootPasses e g bs m T r)
      (chaseRoot e g n r.1 100 (readLong (marks m T) r.2) (marks m T)) :=
  chaseRoot_comes fun _ hheap => getBlock_marks hok hT hn hheap

theorem markGlobals_comes (hok : HeapOk g m bs) {n k i : Nat} (hn : bs.length < n)
    (hk : globalLength e - i < k) {T : Set Word} (hT : OnBlocks bs T) :
    Comes (RootsPass e g bs m ((List.range' i (globalLength e - i)).map (globalRoot e)) T)
      (loop (markGlobalsStep e g n) k (i, marks m T)) := by
  obtain ⟨k, rfl⟩ : ∃ j, k = j + 1 := ⟨k - 1, by omega⟩
  induction k generalizing i T with
  | zero =>
    have hi : ¬ i < globalLength e := by omega
    exact comes_done _ (by rw [markGlobalsStep, if_neg hi])
  | succ k ih =>
    by_cases hi : i < globalLength e
    · rw [show globalLength e - i = globalLength e - (i + 1) + 1 by omega, List.range'_succ,
        List.map_cons]
      refine comes_first ?_ fun s' hb => ?_
      · rw [markGlobalsStep, if_pos hi]
        exact comes_bind ((rootChase_comes hok hT hn (globalRoot e i)).mono And.left)
          fun _ _ => comes_ok _ _
      · rw [markGlobalsStep, if_pos hi] at hb
        obtain ⟨m₁, hm₁, hb⟩ := bind_ok.mp hb
        cases hb
        obtain rfl := chaseRoot_marks hok hT (r := globalRoot e i) hm₁
        exact (ih (rootHit_onBlocks hok hT _) (by omega)).mono And.right
    · exact comes_done _ (by rw [markGlobalsStep, if_neg hi])

theorem scanFrame_comes (hok : HeapOk g m bs) {n k : Nat} (hn : bs.length < n)
    {addr bottom : Word} {l : List Word} (hl : FrameWords bottom addr l) (hk : l.length < k)
    {T : Set Word} (hT : OnBlocks bs T) :
    Comes (RootsPass e g bs m (l.map (stackRoot e)) T)
      (loop (scanFrameStep e g n bottom) k (addr, marks m T)) := by
  obtain ⟨k, rfl⟩ : ∃ j, k = j + 1 := ⟨k - 1, by omega⟩
  induction hl generalizing k T with
  | stop h => exact comes_done _ (by rw [scanFrameStep, if_neg h])
  | @word addr l h _ ih =>
    rw [List.length_cons] at hk
    obtain ⟨k, rfl⟩ : ∃ j, k = j + 1 := ⟨k - 1, by omega⟩
    refine comes_first ?_ fun s' hb => ?_
    · rw [scanFrameStep, if_pos h]
      exact comes_bind ((rootChase_comes hok hT hn (stackRoot e addr)).mono And.left)
        fun _ _ => comes_ok _ _
    · rw [scanFrameStep, if_pos h] at hb
      obtain ⟨m₁, hm₁, hb⟩ := bind_ok.mp hb
      cases hb
      obtain rfl := chaseRoot_marks hok hT (r := stackRoot e addr) hm₁
      exact (ih (rootHit_onBlocks hok hT _) k (by omega)).mono And.right

/-- A frame has at least the word at its low end. -/
theorem frameWords_pos {addr bottom : Word} {l : List Word} (h : FrameWords bottom addr l)
    (hle : addr ≤ bottom) : 0 < l.length := by
  cases h with
  | stop h => exact absurd hle h
  | word => simp

theorem markStack_comes (hok : HeapOk g m bs) (hlay : Layout e g) {n k : Nat} (hn : bs.length < n)
    {top bottom : Word} {l : List Word} (hl : StackWords m top bottom l) (hln : l.length < n)
    (hk : l.length < k) (htop : g.stack_top.toNat ≤ top.toNat) {T : Set Word}
    (hT : OnBlocks bs T) :
    Comes (RootsPass e g bs m (l.map (stackRoot e)) T)
      (loop (markStackStep e g n) k (top, bottom, marks m T)) := by
  obtain ⟨k, rfl⟩ : ∃ j, k = j + 1 := ⟨k - 1, by omega⟩
  induction hl generalizing k T with
  | stop h => exact comes_done _ (markStackStep_stop h _)
  | @frame top bottom l l' hv hl _ ih =>
    rw [List.length_append] at hk hln
    have hle : top ≤ bottom := by
      have := hv.1
      rw [not_or, BitVec.not_le, BitVec.lt_def] at this
      rw [BitVec.le_def]
      omega
    have hpos := frameWords_pos hl hle
    obtain ⟨k, rfl⟩ : ∃ j, k = j + 1 := ⟨k - 1, by omega⟩
    rw [List.map_append]
    refine comes_first ?_ fun s' hb => ?_
    · rw [markStackStep_frame hv]
      exact comes_bind ((scanFrame_comes hok hn hl (by omega) hT).mono
        fun h => (rootsPass_append.mp h).1) fun _ _ => comes_ok _ _
    · rw [markStackStep_frame hv] at hb
      obtain ⟨m₁, hm₁, hb⟩ := bind_ok.mp hb
      cases hb
      obtain ⟨l₁, S₁, hl₁, rfl, -, rfl, hon⟩ := scanFrame_run hok hT hm₁
      obtain rfl := frameWords_unique hl₁ hl
      obtain ⟨hbot, hread⟩ := frame_link hok hlay hv htop
      rw [hread _ hon]
      exact (ih (by omega) hbot hon k (by omega)).mono fun h => (rootsPass_append.mp h).2

/-! ## The mark phase -/

/-- What the mark phase needs to come to its end: the frames end, no root gets stuck, and the chains
of all payload words, of free and of allocated blocks, end and land on blocks. -/
structure CanFinish (e : Env) (g : Statics) (bs : List Block) (m : Mem) : Prop where
  roots : ∃ l, StackWords m g.stack_top g.frame_bottom l ∧
    RootsPass e g bs m (Alloc.roots e l) (premarked bs)
  payloads : ∀ a ∈ payloads bs, Settles e g bs m (m a)

theorem markAll_settles (hok : HeapOk g m bs) (hlay : Layout e g) (hlow : LowHalf e g) {n : Nat}
    {m' : Mem} (h : markAll e g n m = .ok m') : CanFinish e g bs m := by
  obtain ⟨m₁, m₂, h1, h2, h3⟩ := markAll_ok.mp h
  rw [← marks_premarked hok] at h1
  obtain ⟨l, S, hl, hS, hpass, rfl, hon⟩ := markRoots_run hok hlay premarked_onBlocks h1 h2
  exact ⟨⟨l, hl, hpass⟩, markHeap_settles hok hlow hon (hS ▸ afterRoots_sub _ _) h3⟩

theorem size_le (hok : HeapOk g m bs) {b : Block} (hb : b ∈ bs) :
    b.size ≤ g.total_heap_size.toNat := by
  obtain ⟨h1, h2, -⟩ := fill_bounds hok.fill hb
  unfold Block.stop at h2
  omega

theorem markAll_comes (hok : HeapOk g m bs) (hlay : Layout e g) (hlow : LowHalf e g)
    {l : List Word} (hl : StackWords m g.stack_top g.frame_bottom l)
    (hend : ∀ a ∈ payloads bs, ChaseEnds e g bs m (m a)) {T : Set Word} (hT : OnBlocks bs T)
    (hpre : premarked bs ⊆ T) :
    ∃ n, Comes (RootsPass e g bs m (roots e l) T ∧ PayloadsLand e g bs m)
      (markAll e g n (marks m T)) := by
  obtain ⟨j, hj⟩ := ends_bound m hend
  obtain ⟨n, hn⟩ : ∃ n, n = bs.length + l.length + globalLength e + g.total_heap_size.toNat + j + 2 :=
    ⟨_, rfl⟩
  refine ⟨n, ?_⟩
  unfold markAll
  refine comes_bind ?_ fun m₁ hm₁ => comes_bind ?_ fun m₂ hm₂ => ?_
  · have h := markGlobals_comes (i := 0) hok (by omega : bs.length < n)
      (by omega : globalLength e - 0 < n) hT
    rw [Nat.sub_zero, ← List.range_eq_range'] at h
    exact h.mono fun hs => (rootsPass_append.mp hs.1).1
  · obtain ⟨S₁, hS₁, -, rfl, hon⟩ := markGlobals_run hok hT hm₁
    rw [Nat.sub_zero, ← List.range_eq_range'] at hS₁
    rw [hS₁] at hon ⊢
    exact (markStack_comes hok hlay (by omega) hl (by omega) (by omega) le_rfl hon).mono
      fun hs => (rootsPass_append.mp hs.1).2
  · obtain ⟨l', S, -, hS, -, rfl, hon⟩ := markRoots_run hok hlay hT hm₁ hm₂
    have hM : Marking bs m (marks m S) := ⟨S, rfl, hon, hpre.trans (hS ▸ afterRoots_sub _ _)⟩
    have hsize : ∀ c ∈ bs, c.size < n := by
      intro c hc
      have := size_le hok hc
      omega
    exact (markHeap_comes hok hlow (by omega) (by omega) hsize hj hM).mono And.right

end

/-! ## When it ends -/

/-- The mark phase comes to its end if and only if it can finish. If the frames and the chains of
the payload words end, it does not run forever. -/
theorem mark_terminates_iff {e : Env} {g : Statics} {bs : List Block} {m : Mem}
    (hok : HeapOk g m bs) (hlay : Layout e g) (hlow : LowHalf e g) :
    ((∃ n m', markAll e g n m = .ok m') ↔ CanFinish e g bs m) ∧
      ((∃ l, StackWords m g.stack_top g.frame_bottom l) →
        (∀ a ∈ payloads bs, ChaseEnds e g bs m (m a)) → ∃ n, markAll e g n m ≠ .error .budget) := by
  have hcomes : ∀ l, StackWords m g.stack_top g.frame_bottom l →
      (∀ a ∈ payloads bs, ChaseEnds e g bs m (m a)) →
      ∃ n, Comes (RootsPass e g bs m (roots e l) (premarked bs) ∧ PayloadsLand e g bs m)
        (markAll e g n m) := by
    intro l hl hend
    have h := markAll_comes hok hlay hlow hl hend premarked_onBlocks le_rfl
    rwa [marks_premarked hok] at h
  constructor
  · constructor
    · rintro ⟨n, m', h⟩
      exact markAll_settles hok hlay hlow h
    · intro h
      obtain ⟨l, hl, hpass⟩ := h.roots
      obtain ⟨n, hn⟩ := hcomes l hl fun a ha => (h.payloads a ha).1
      exact ⟨n, hn.2 ⟨hpass, fun a ha => (h.payloads a ha).2⟩⟩
  · rintro ⟨l, hl⟩ hend
    obtain ⟨n, hn⟩ := hcomes l hl hend
    exact ⟨n, hn.1⟩

theorem rooted_finishes : CanFinish twoGlobals rooted.toStatics
    [⟨0x1000, infoMake 1#32 0#32 4, 0⟩, ⟨0x1038, 2, 0⟩] rooted.mem := by
  refine (mark_terminates_iff rooted_ok rooted_layout ⟨by decide, by decide, by decide⟩).1.mp ?_
  obtain ⟨m, hm⟩ := ok_of_isOk (x := markAll twoGlobals rooted.toStatics 30 rooted.mem) rfl
  exact ⟨30, m, hm⟩

/-! ### A block that points to itself -/

/-- The global is `heap`. The payload of the first block holds its own address. -/
def selfLinked : State where
  stack_top := 0x9000
  frame_bottom := 0x9000
  initialized := 1
  heap := 0x1000
  total_heap_size := 8
  mem a :=
    if a = 0x800 then 0x1000
    else if a = 0x1000 then infoMake 1#32 0#32 1
    else if a = 0x1008 then 0x1020
    else if a = 0x1018 then 0x1018
    else if a = 0x1020 then 1
    else 0

/-- `heap` marks the block. -/
def selfMarked : Mem := selfLinked.mem.set 0x1000 (infoMake 1#32 1#32 1)

theorem selfMarked_chase (n k : Nat) (any : Bool) :
    loop (chaseHeapStep oneGlobal selfLinked.toStatics (n + 4)) k (0x1018, any, selfMarked) =
      .error .budget := by
  induction k with
  | zero => rfl
  | succ k ih =>
    have hb : chaseHeapStep oneGlobal selfLinked.toStatics (n + 4) (0x1018, any, selfMarked) =
        .ok (.next (0x1018, any, selfMarked)) := rfl
    simp only [loop, hb]
    exact ih

theorem selfLinked_forever (n : Nat) :
    markAll oneGlobal selfLinked.toStatics n selfLinked.mem = .error .budget := by
  match n with
  | 0 => rfl
  | 1 => rfl
  | 2 => rfl
  | 3 => rfl
  | n + 4 =>
    have h1 : markGlobals oneGlobal selfLinked.toStatics (n + 4) selfLinked.mem =
        .ok selfMarked := rfl
    have h2 : markStack oneGlobal selfLinked.toStatics (n + 4) selfMarked = .ok selfMarked := rfl
    have hchase := selfMarked_chase n (n + 4) false
    have hblock : scanBlockStep oneGlobal selfLinked.toStatics (n + 4) 0x1000 1
        (0, false, selfMarked) = .error .budget :=
      bind_error.mpr (Or.inl hchase)
    have hheap : scanHeapStep oneGlobal selfLinked.toStatics (n + 4) (0x1000, false, selfMarked) =
        .error .budget :=
      bind_error.mpr (Or.inl (loop_error hblock))
    have hstep : markHeapStep oneGlobal selfLinked.toStatics (n + 4) selfMarked = .error .budget :=
      bind_error.mpr (Or.inl (loop_error hheap))
    unfold markAll
    rw [h1]
    exact bind_error.mpr (Or.inr ⟨selfMarked, h2, loop_error hstep⟩)

theorem selfLinked_hangs :
    HeapOk selfLinked.toStatics selfLinked.mem
        [⟨0x1000, infoMake 1#32 0#32 1, 0⟩, ⟨0x1020, 1, 0⟩] ∧
      Layout oneGlobal selfLinked.toStatics ∧ LowHalf oneGlobal selfLinked.toStatics ∧
      ∀ n, markAll oneGlobal selfLinked.toStatics n selfLinked.mem = .error .budget := by
  refine ⟨?_, ?_, ⟨by decide, by decide, by decide⟩, selfLinked_forever⟩
  · exact ⟨rfl, by decide, by decide, ⟨by decide, ⟨rfl, rfl, rfl⟩, by decide, ⟨rfl, rfl, rfl⟩, rfl⟩,
      ⟨rfl, by decide, rfl⟩, by decide⟩
  · exact ⟨by decide, by decide, by decide, by decide, by decide, by decide, by decide⟩

end Cs720.Alloc
