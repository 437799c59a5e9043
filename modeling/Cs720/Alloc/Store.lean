import Mathlib.Logic.Function.Basic
import Cs720.Alloc.HeapRuns
import Cs720.Alloc.Safety

/-! # The heap as a store of objects

A program knows the heap by the pointers that its calls returned and the words at them. It writes
into its objects and outside the heap, and each call may take the objects that no root leads to.
-/

namespace Cs720.Alloc

open Cs720.Lib

/-- The words of each object, by its pointer. -/
abbrev Store := Word → Option (List Word)

/-- The `k` words at `p`. -/
def words (m : Mem) (p : Word) (k : Nat) : List Word :=
  (List.range k).map fun i => m (p + 8 * BitVec.ofNat 64 i)

@[simp] theorem words_length (m : Mem) (p : Word) (k : Nat) : (words m p k).length = k := by
  simp [words]

/-- `w` points into the `k` words at `p`. -/
def Into (p : Word) (k : Nat) (w : Word) : Prop := p.toNat ≤ w.toNat ∧ w.toNat < p.toNat + 8 * k

/-- The objects that a root points into, or a word of such an object. -/
inductive Live (e : Env) (g : Statics) (m : Mem) (σ : Store) : Word → Prop
  | root {a p : Word} {ws : List Word} : Scanned e g m a → σ p = some ws →
      Into p ws.length (readLong m a) → Live e g m σ p
  | field {c p w : Word} {us ws : List Word} : Live e g m σ c → σ c = some us → w ∈ us →
      σ p = some ws → Into p ws.length w → Live e g m σ p

open Classical in
/-- The store without the objects that are not live. -/
noncomputable def live (e : Env) (g : Statics) (m : Mem) (σ : Store) : Store := fun p =>
  if Live e g m σ p then σ p else none

theorem live_some {e : Env} {g : Statics} {m : Mem} {σ : Store} {p : Word} {ws : List Word} :
    live e g m σ p = some ws ↔ Live e g m σ p ∧ σ p = some ws := by
  unfold live
  split <;> simp [*]

theorem live_object {e : Env} {g : Statics} {m : Mem} {σ : Store} {p : Word}
    (h : Live e g m σ p) : ∃ ws, σ p = some ws := by
  rcases h with ⟨-, hp, -⟩ | ⟨-, -, -, hp, -⟩
  · exact ⟨_, hp⟩
  · exact ⟨_, hp⟩

/-- The state in which a call scans the roots. -/
def State.calling (rsp rbp : Word) (s : State) : State :=
  { s with stack_top := rsp, frame_bottom := rbp }

/-- The runs of a program, each state with the store that the program relies on. -/
inductive Program (e : Env) (s₀ : State) : State → Store → Prop
  | start : Program e s₀ s₀ fun _ => none
  | outside {s : State} {σ : Store} (m : Mem) : Program e s₀ s σ →
      (∀ a, inHeapRange s.toStatics a = true → m a = s.mem a) →
      Program e s₀ { s with mem := m } σ
  | write {s : State} {σ : Store} {p : Word} {ws : List Word} (i : Nat) (v : Word) :
      Program e s₀ s σ → σ p = some ws → i < ws.length →
      Program e s₀ { s with mem := s.mem.set (p + 8 * BitVec.ofNat 64 i) v }
        (Function.update σ p (some (ws.set i v)))
  | allocate {s s' : State} {σ : Store} {n : Nat} {size finalize rsp rbp ptr : Word} :
      Program e s₀ s σ → Layout e (s.calling rsp rbp).toStatics →
      CallFits e n size rsp rbp s → memAllocate e n size finalize rsp rbp s = .ok (ptr, s') →
      Program e s₀ s' (if ptr = 0 then live e (s.calling rsp rbp).toStatics s.mem σ
        else Function.update (live e (s.calling rsp rbp).toStatics s.mem σ) ptr
          (some (words s'.mem ptr size.toNat)))

/-- The block of an object, and its words in memory. -/
def Stores (m : Mem) (bs : List Block) (σ : Store) : Prop :=
  ∀ p ws, σ p = some ws → ws = words m p ws.length ∧
    ∃ b ∈ bs, b.alloc = true ∧ p = b.addr + 24 ∧ ws.length ≤ b.size

section
variable {e : Env} {g : Statics} {bs : List Block} {m : Mem} {σ : Store}

/-! ## Objects and blocks -/

theorem word_payload {b : Block} {i : Nat} (hi : i < b.size) :
    b.addr + 24 + 8 * BitVec.ofNat 64 i ∈ payload b :=
  List.mem_map.mpr ⟨i, List.mem_range.mpr hi, rfl⟩

theorem words_congr {m' : Mem} {b : Block} {k : Nat} (hk : k ≤ b.size)
    (h : ∀ a ∈ payload b, m' a = m a) : words m' (b.addr + 24) k = words m (b.addr + 24) k := by
  unfold words
  apply List.map_congr_left
  intro i hi
  rw [List.mem_range] at hi
  exact h _ (word_payload (by omega))

theorem pointer_toNat {b : Block} (hb : b.stop < 2 ^ 64) :
    (b.addr + 24).toNat = b.start + 24 := by
  unfold Block.stop Block.start at *
  bv_omega

theorem pointer_ne_zero (hok : HeapOk g m bs) {b : Block} (hb : b ∈ bs) : b.addr + 24 ≠ 0 := by
  intro h0
  have := pointer_toNat (fill_bounds hok.fill hb).2.2
  rw [h0] at this
  have h1 : (0 : Word).toNat = 0 := rfl
  omega

theorem into_inside {b : Block} (hb : b.stop < 2 ^ 64) {k : Nat} (hk : k ≤ b.size) {w : Word}
    (h : Into (b.addr + 24) k w) : Inside b w := by
  obtain ⟨h1, h2⟩ := h
  rw [pointer_toNat hb] at h1 h2
  unfold Inside Block.stop
  omega

theorem block_unique (hok : HeapOk g m bs) {b c : Block} (hb : b ∈ bs) (hc : c ∈ bs)
    (h : b.addr + 24 = c.addr + 24) : b = c :=
  addr_inj hok.fill hb hc (add_right_cancel h)

/-- A live object is in a reachable block. -/
theorem live_reachable (hok : HeapOk g m bs) (hσ : Stores m bs σ) {p : Word}
    (h : Live e g m σ p) : ∃ b ∈ bs, p = b.addr + 24 ∧ Reachable e g bs m b := by
  induction h with
  | root ha hp hinto =>
    obtain ⟨-, b, hb, -, rfl, hk⟩ := hσ _ _ hp
    exact ⟨b, hb, rfl, .root ha hb (into_inside (fill_bounds hok.fill hb).2.2 hk hinto)⟩
  | field _ hc hw hp hinto ih =>
    obtain ⟨c, hcb, rfl, hreach⟩ := ih
    obtain ⟨hus, c', hc', -, heq, hk'⟩ := hσ _ _ hc
    obtain rfl : c = c' := block_unique hok hcb hc' heq
    obtain ⟨-, b, hb, -, rfl, hk⟩ := hσ _ _ hp
    rw [hus] at hw
    obtain ⟨i, hi, rfl⟩ := List.mem_map.mp hw
    rw [List.mem_range] at hi
    exact ⟨b, hb, rfl, .field hreach (word_payload (by omega)) hb
      (into_inside (fill_bounds hok.fill hb).2.2 hk hinto)⟩

theorem stores_apart (hok : HeapOk g m bs) (hσ : Stores m bs σ) {p q : Word} {ws us : List Word}
    (hp : σ p = some ws) (hq : σ q = some us) (hne : p ≠ q) :
    p.toNat + 8 * ws.length ≤ q.toNat ∨ q.toNat + 8 * us.length ≤ p.toNat := by
  obtain ⟨-, b, hb, -, rfl, hk⟩ := hσ _ _ hp
  obtain ⟨-, c, hc, -, rfl, hk'⟩ := hσ _ _ hq
  have hlim := (fill_bounds hok.fill hb).2.2
  have hlim' := (fill_bounds hok.fill hc).2.2
  rw [pointer_toNat hlim, pointer_toNat hlim']
  unfold Block.stop at *
  rcases tiles_disjoint Block.start_lt_stop hok.fill.1 hb hc with rfl | h | h
  · exact absurd rfl hne
  · unfold Block.stop at h
    omega
  · unfold Block.stop at h
    omega

theorem stores_bounds (hok : HeapOk g m bs) (hσ : Stores m bs σ) {p : Word} {ws : List Word}
    (hp : σ p = some ws) :
    g.heap.toNat + 24 ≤ p.toNat ∧
      p.toNat + 8 * ws.length ≤ g.heap.toNat + 8 * g.total_heap_size.toNat := by
  obtain ⟨-, b, hb, -, rfl, hk⟩ := hσ _ _ hp
  obtain ⟨h1, h2, h3⟩ := fill_bounds hok.fill hb
  rw [pointer_toNat h3]
  unfold Block.stop at h2
  omega

/-! ## What the program writes -/

/-- A store that loses objects, in a memory and a list that keep the blocks of the others. -/
theorem stores_keep (hσ : Stores m bs σ) {m' : Mem} {bs' : List Block}
    {σ' : Store} (hsub : ∀ p ws, σ' p = some ws → σ p = some ws)
    (h : ∀ b ∈ bs, b.alloc = true → σ' (b.addr + 24) ≠ none →
      b ∈ bs' ∧ ∀ a ∈ payload b, m' a = m a) : Stores m' bs' σ' := by
  intro p ws hp
  obtain ⟨hws, b, hb, halloc, rfl, hk⟩ := hσ p ws (hsub p ws hp)
  obtain ⟨hb', hkeep⟩ := h b hb halloc (by rw [hp]; exact Option.some_ne_none ws)
  exact ⟨hws.trans (words_congr hk hkeep).symm, b, hb', halloc, rfl, hk⟩

theorem word_inj {b : Block} (hb : b.stop < 2 ^ 64) {i j : Nat} (hi : i < b.size) (hj : j < b.size)
    (h : b.addr + 24 + 8 * BitVec.ofNat 64 i = b.addr + 24 + 8 * BitVec.ofNat 64 j) : i = j := by
  unfold Block.stop at hb
  have h1 := congrArg BitVec.toNat (add_left_cancel h)
  rw [eight_mul_toNat (by omega), eight_mul_toNat (by omega)] at h1
  omega

theorem words_set {b : Block} (hb : b.stop < 2 ^ 64) {k i : Nat} (hk : k ≤ b.size) (hi : i < k)
    (v : Word) : words (m.set (b.addr + 24 + 8 * BitVec.ofNat 64 i) v) (b.addr + 24) k =
      (words m (b.addr + 24) k).set i v := by
  apply List.ext_getElem (by simp)
  intro j hj _
  rw [words_length] at hj
  rw [List.getElem_set]
  simp only [words, List.getElem_map, List.getElem_range]
  split
  · subst i
    exact set_self _ _ _
  · exact set_ne _ _ fun h => absurd (word_inj hb (by omega) (by omega) h) (by omega)

/-- The payloads of two blocks have no word in common. -/
theorem payload_unique (hok : HeapOk g m bs) {b c : Block} (hb : b ∈ bs) (hc : c ∈ bs) {a : Word}
    (h : a ∈ payload b) (h' : a ∈ payload c) : b = c := by
  obtain ⟨⟨h1, h2⟩, -⟩ := payload_mem h (fill_bounds hok.fill hb).2.2
    (fill_aligned hok.fill hok.aligned hb)
  obtain ⟨⟨h3, h4⟩, -⟩ := payload_mem h' (fill_bounds hok.fill hc).2.2
    (fill_aligned hok.fill hok.aligned hc)
  apply tiles_unique Block.start_lt_stop hok.fill.1 hb hc (p := a.toNat)
  · omega
  · omega

theorem stores_write (hok : HeapOk g m bs) (hσ : Stores m bs σ) {p : Word} {ws : List Word}
    (hp : σ p = some ws) {i : Nat} (hi : i < ws.length) (v : Word) :
    HeapOk g (m.set (p + 8 * BitVec.ofNat 64 i) v) bs ∧
      Stores (m.set (p + 8 * BitVec.ofNat 64 i) v) bs
        (Function.update σ p (some (ws.set i v))) := by
  obtain ⟨hws, b, hb, halloc, rfl, hk⟩ := hσ p ws hp
  have ha : b.addr + 24 + 8 * BitVec.ofNat 64 i ∈ payload b := word_payload (by omega)
  refine ⟨heapOk_congr hok fun c hc a hh => set_ne _ _ ?_, fun q us hq => ?_⟩
  · rintro rfl
    exact payload_no_header hok.fill hok.aligned hb hc ha hh
  by_cases hqp : q = b.addr + 24
  · rw [hqp, Function.update_self] at hq
    cases hq
    rw [List.length_set]
    refine ⟨?_, b, hb, halloc, hqp, hk⟩
    rw [hqp, words_set (fill_bounds hok.fill hb).2.2 hk hi, ← hws]
  · rw [Function.update_of_ne hqp] at hq
    obtain ⟨hus, c, hc, hcalloc, rfl, hck⟩ := hσ q us hq
    refine ⟨hus.trans (words_congr hck fun a hac => set_ne _ _ ?_).symm, c, hc, hcalloc, rfl, hck⟩
    rintro rfl
    exact hqp (by rw [payload_unique hok hb hc ha hac])

/-! ## What a call does -/

/-- A request that gets the free block `b`. -/
theorem stores_place {size : Word} (finalize : Word) {xs ys : List Block} {b : Block}
    (hok : HeapOk g m (xs ++ b :: ys)) (hσ : Stores m (xs ++ b :: ys) σ) (hfree : b.alloc = false)
    (hsize : size.toNat ≤ b.size) :
    σ (b.addr + 24) = none ∧
      Stores (splitBlock m b.addr size finalize) (xs ++ (give size finalize b ++ ys))
        (Function.update σ (b.addr + 24)
          (some (words (splitBlock m b.addr size finalize) (b.addr + 24) size.toNat))) := by
  have hb : b ∈ xs ++ b :: ys := by simp
  have hnone : σ (b.addr + 24) = none := by
    rw [Option.eq_none_iff_forall_ne_some]
    intro ws hws
    obtain ⟨-, c, hc, halloc, heq, -⟩ := hσ _ ws hws
    rw [← block_unique hok hb hc heq, hfree] at halloc
    contradiction
  refine ⟨hnone, fun p ws hp => ?_⟩
  by_cases hpb : p = b.addr + 24
  · rw [hpb, Function.update_self] at hp
    cases hp
    obtain ⟨c, rest, hgive, haddr, halloc, hcsize, -⟩ := give_head finalize hsize
    rw [words_length, hpb]
    exact ⟨rfl, c, by simp [hgive], halloc, by rw [haddr], hcsize⟩
  · rw [Function.update_of_ne hpb] at hp
    refine stores_keep hσ (fun _ _ h => h) (fun c hc halloc _ => ?_) p ws hp
    have hne : c ≠ b := by
      rintro rfl
      rw [hfree] at halloc
      contradiction
    refine ⟨by simp at hc ⊢; tauto, fun a ha => ?_⟩
    obtain ⟨⟨h1, h2⟩, -⟩ := payload_mem ha (fill_bounds hok.fill hc).2.2
      (fill_aligned hok.fill hok.aligned hc)
    apply split_other (linked_info hok.linked hb) hsize (fill_bounds hok.fill hb).2.2
    rcases tiles_disjoint Block.start_lt_stop hok.fill.1 hb hc with rfl | h | h
    · exact absurd rfl hne
    · omega
    · omega

/-- A collection keeps a reachable block, with its payload, and calls no finalizer for it. -/
theorem collects_keeps {n : Nat} {s s' : State} {S : Set Word} {r : BitVec 32}
    (hok : HeapOk s.toStatics s.mem bs) (hunmarked : ∀ b ∈ bs, b.marked = false)
    (hlay : Layout e s.toStatics) (hsafe : HeapSafe e s.toStatics)
    (hS : Collects e n s bs S s' r) {b : Block} (hreach : Reachable e s.toStatics bs s.mem b)
    (halloc : b.alloc = true) :
    b ∈ collected bs S ∧ (∀ a ∈ payload b, s'.mem a = s.mem a) ∧
      ∀ f, (b.addr, f) ∉ finalCalls (bs.map (markIn S)) := by
  have hb := reachable_mem hreach
  -- The marks in memory say which blocks are in `S`.
  have hbS : b.addr ∈ S := by
    obtain ⟨l, T, hmark, hT⟩ := mark_run hok hlay hS.marked
    have hbT := reachable_marked hok hlay hunmarked hmark hreach halloc
    have hm : isMarked (marks s.mem S b.addr) = true := by
      rw [hT, isMarked_marks]
      exact Or.inl hbT
    rw [isMarked_marks, linked_info hok.linked hb] at hm
    refine hm.resolve_right ?_
    have := hunmarked b hb
    unfold Block.marked at this
    simp [this]
  refine ⟨?_, ?_, ?_⟩
  · unfold collected
    rw [← unmark_markIn (hunmarked b hb) hbS]
    exact sweepBlocks_keeps none (List.mem_map_of_mem hb) ((markIn_marked S b).mpr (Or.inl hbS))
  · intro a ha
    obtain ⟨m, w, hm, hw, rfl, -⟩ := markAndSweep_ok hS.run
    obtain rfl : marks s.mem S = m := Except.ok.inj (hS.marked.symm.trans hm)
    refine ((sweep_run (K := (· ∈ payload b)) (heapSafe_headers hok hsafe)
      (fun f M a ha => heapSafe_payload hok hsafe hb ha f M) (heapOk_marks hok hS.on_blocks)
      (fun a ha c hc hh => ?_) hw).2.2.2 a ha).trans (marks_payload hok hS.on_blocks hb ha)
    obtain ⟨d, hd, rfl⟩ := List.mem_map.mp hc
    apply payload_no_header hok.fill hok.aligned hb hd ha
    unfold Header at hh ⊢
    rwa [markIn_addr] at hh
  · intro f hf
    obtain ⟨d, hd, hdm, hda⟩ := finalCalls_mem hf
    obtain ⟨c, hc, rfl⟩ := List.mem_map.mp hd
    rw [markIn_addr] at hda
    have := (markIn_marked S c).mpr (Or.inl (hda ▸ hbS))
    rw [hdm] at this
    contradiction

/-- The live objects after a collection. -/
theorem stores_collect {n : Nat} {s s' : State} {S : Set Word} {r : BitVec 32}
    (hok : HeapOk s.toStatics s.mem bs) (hunmarked : ∀ b ∈ bs, b.marked = false)
    (hlay : Layout e s.toStatics) (hsafe : HeapSafe e s.toStatics)
    (hS : Collects e n s bs S s' r) (hσ : Stores s.mem bs σ) :
    Stores s'.mem (collected bs S) (live e s.toStatics s.mem σ) ∧
      ∀ a f, (a, f) ∈ finalCalls (bs.map (markIn S)) → ¬ Live e s.toStatics s.mem σ (a + 24) := by
  constructor
  · refine stores_keep hσ (fun p ws hp => (live_some.mp hp).2) fun b hb halloc hlive => ?_
    obtain ⟨ws, hws⟩ := Option.ne_none_iff_exists'.mp hlive
    obtain ⟨c, hc, heq, hreach⟩ := live_reachable hok hσ (live_some.mp hws).1
    obtain rfl := block_unique hok hb hc heq
    obtain ⟨hmem, hkeep, -⟩ := collects_keeps hok hunmarked hlay hsafe hS hreach halloc
    exact ⟨hmem, hkeep⟩
  · intro a f hf hlive
    obtain ⟨b, hb, heq, hreach⟩ := live_reachable hok hσ hlive
    obtain rfl := add_right_cancel heq
    obtain ⟨ws, hws⟩ := live_object hlive
    obtain ⟨-, c, hc, halloc, heq', -⟩ := hσ _ ws hws
    rw [← block_unique hok hb hc heq'] at halloc
    exact (collects_keeps hok hunmarked hlay hsafe hS hreach halloc).2.2 f hf

theorem heapSafe_statics {g' : Statics} (h : HeapSafe e g) (h1 : g'.heap = g.heap)
    (h2 : g'.total_heap_size = g.total_heap_size) : HeapSafe e g' := by
  unfold HeapSafe inHeapRange heapEnd at *
  rw [h1, h2]
  exact h

end

/-- The step lemma. -/
theorem memAllocate_stores {e : Env} {n : Nat} {s s' : State} {size finalize rsp rbp ptr : Word}
    {bs : List Block} {σ : Store} (hsafe : HeapSafe e s.toStatics)
    (hlay : Layout e (s.calling rsp rbp).toStatics) (hgood : Good s bs) (hσ : Stores s.mem bs σ)
    (hfits : CallFits e n size rsp rbp s)
    (h : memAllocate e n size finalize rsp rbp s = .ok (ptr, s')) :
    (∃ bs', Good s' bs' ∧ s'.heap = s.heap ∧ s'.total_heap_size = s.total_heap_size ∧
      Stores s'.mem bs' (if ptr = 0 then live e (s.calling rsp rbp).toStatics s.mem σ
        else Function.update (live e (s.calling rsp rbp).toStatics s.mem σ) ptr
          (some (words s'.mem ptr size.toNat)))) ∧
      (ptr ≠ 0 → live e (s.calling rsp rbp).toStatics s.mem σ ptr = none) ∧
      ∃ calls, s'.finalized = s.finalized ++ calls ∧
        ∀ a f, (a, f) ∈ calls → ¬ Live e (s.calling rsp rbp).toStatics s.mem σ (a + 24) := by
  obtain ⟨hok, hunmarked⟩ := hgood
  obtain ⟨hfit, hfit'⟩ := hfits bs hok
  have hok₀ : HeapOk (s.calling rsp rbp).toStatics s.mem bs := heapOk_statics hok rfl rfl rfl
  have hsafe₀ : HeapSafe e (s.calling rsp rbp).toStatics := heapSafe_statics hsafe rfl rfl
  cases memAllocate_serves hok (heapSafe_headers hok hsafe) h with
  | @first b hb =>
    obtain ⟨hmem, hfree⟩ := firstFit_free hb
    have hne := pointer_ne_zero hok hmem
    obtain ⟨xs, ys, rfl⟩ := List.append_of_mem hmem
    have hlive : Stores s.mem (xs ++ b :: ys) (live e (s.calling rsp rbp).toStatics s.mem σ) :=
      stores_keep hσ (fun p ws hp => (live_some.mp hp).2) fun c hc _ _ => ⟨hc, fun _ _ => rfl⟩
    obtain ⟨hnone, hstores⟩ := stores_place finalize hok hlive hfree (hfit _ hb)
    refine ⟨⟨_, split_good finalize ⟨hok₀, hunmarked⟩ (hfit _ hb), rfl, rfl, ?_⟩, fun _ => hnone,
      [], by simp, by simp⟩
    rw [if_neg hne]
    exact hstores
  | @full S s' r hnone hS =>
    obtain ⟨hstores, hcalls⟩ := stores_collect hok₀ hunmarked hlay hsafe₀ hS hσ
    refine ⟨⟨_, ⟨hS.heap, fun b hb => collected_unmarked hb⟩, ?_, ?_, ?_⟩, fun h => absurd rfl h,
      _, hS.calls, hcalls⟩
    · rw [hS.statics]
    · rw [hS.statics]
    · rw [if_pos rfl]
      exact hstores
  | @second S s' r b hnone hS hb =>
    obtain ⟨hstores, hcalls⟩ := stores_collect hok₀ hunmarked hlay hsafe₀ hS hσ
    obtain ⟨hmem, hfree⟩ := firstFit_free hb
    have hsize := hfit' hnone _ hS.on_blocks hS.marked _ hb
    have hne := pointer_ne_zero hS.heap hmem
    have hgood : Good s' (collected bs S) := ⟨hS.heap, fun b hb => collected_unmarked hb⟩
    obtain ⟨xs, ys, hcut⟩ := List.append_of_mem hmem
    rw [hcut] at hstores hgood
    obtain ⟨hnone, hstores'⟩ := stores_place finalize hgood.1 hstores hfree hsize
    refine ⟨⟨_, split_good finalize hgood hsize, ?_, ?_, ?_⟩, fun _ => hnone, _, hS.calls, hcalls⟩
    · simp only
      rw [hS.statics]
    · simp only
      rw [hS.statics]
    · rw [if_neg hne]
      exact hstores'

/-! ## Whole runs -/

theorem program_stores {e : Env} {s₀ s : State} {σ : Store} (hsafe : HeapSafe e s₀.toStatics)
    (h₀ : ∃ bs, Good s₀ bs) (hrun : Program e s₀ s σ) :
    (∃ bs, Good s bs ∧ Stores s.mem bs σ) ∧ s.heap = s₀.heap ∧
      s.total_heap_size = s₀.total_heap_size := by
  induction hrun with
  | start =>
    obtain ⟨bs, hgood⟩ := h₀
    exact ⟨⟨bs, hgood, by simp [Stores]⟩, rfl, rfl⟩
  | @outside s σ m _ hout ih =>
    obtain ⟨⟨bs, ⟨hok, hunmarked⟩, hσ⟩, hstatics⟩ := ih
    have hin : ∀ b ∈ bs, ∀ a : Word, b.start ≤ a.toNat → a.toNat < b.stop → m a = s.mem a := by
      intro b hb a h1 h2
      apply hout
      rw [inHeapRange_iff hok]
      have := fill_bounds hok.fill hb
      omega
    refine ⟨⟨bs, ⟨heapOk_congr hok fun b hb a hh => ?_, hunmarked⟩,
      stores_keep hσ (fun _ _ h => h) fun b hb _ _ => ⟨hb, fun a ha => ?_⟩⟩, hstatics⟩
    · have := header_range hh (fill_bounds hok.fill hb).2.2
      exact hin b hb a this.1 (by unfold Block.stop; omega)
    · obtain ⟨⟨h1, h2⟩, -⟩ := payload_mem ha (fill_bounds hok.fill hb).2.2
        (fill_aligned hok.fill hok.aligned hb)
      exact hin b hb a (by omega) h2
  | write i v _ hp hi ih =>
    obtain ⟨⟨bs, ⟨hok, hunmarked⟩, hσ⟩, hstatics⟩ := ih
    obtain ⟨hok', hσ'⟩ := stores_write hok hσ hp hi v
    exact ⟨⟨bs, ⟨hok', hunmarked⟩, hσ'⟩, hstatics⟩
  | allocate _ hlay hfits h ih =>
    obtain ⟨⟨bs, hgood, hσ⟩, hheap, htotal⟩ := ih
    obtain ⟨⟨bs', hgood', hheap', htotal', hσ'⟩, -⟩ :=
      memAllocate_stores (heapSafe_statics hsafe hheap htotal) hlay hgood hσ hfits h
    exact ⟨⟨bs', hgood', hσ'⟩, hheap'.trans hheap, htotal'.trans htotal⟩

/-- In every run, memory holds the words of each object, inside the heap and apart from those of
the others. A call returns no pointer of a live object, and no finalizer is called for one. -/
theorem heap_refines_store {e : Env} {size p rsp rbp : Word} {s s₀ : State}
    (hinit : memInitialize size p rsp rbp s = (s₀, 1)) (haligned : p.toNat % 8 = 0)
    (hroom : p.toNat + 8 * s₀.total_heap_size.toNat < 2 ^ 64)
    (hmin : BLOCK_SIZE ≤ s₀.total_heap_size) (hsafe : HeapSafe e s₀.toStatics) {s₁ : State}
    {σ : Store} (hrun : Program e s₀ s₁ σ) :
    (∀ q ws, σ q = some ws → words s₁.mem q ws.length = ws ∧ s₁.heap.toNat + 24 ≤ q.toNat ∧
      q.toNat + 8 * ws.length ≤ s₁.heap.toNat + 8 * s₁.total_heap_size.toNat) ∧
    (∀ q r ws us, σ q = some ws → σ r = some us → q ≠ r →
      q.toNat + 8 * ws.length ≤ r.toNat ∨ r.toNat + 8 * us.length ≤ q.toNat) ∧
    ∀ {n : Nat} {size' finalize rsp' rbp' ptr : Word} {s₂ : State},
      Layout e (s₁.calling rsp' rbp').toStatics → CallFits e n size' rsp' rbp' s₁ →
      memAllocate e n size' finalize rsp' rbp' s₁ = .ok (ptr, s₂) →
      (ptr ≠ 0 → ¬ Live e (s₁.calling rsp' rbp').toStatics s₁.mem σ ptr) ∧
      ∃ calls, s₂.finalized = s₁.finalized ++ calls ∧ ∀ a f, (a, f) ∈ calls →
        ¬ Live e (s₁.calling rsp' rbp').toStatics s₁.mem σ (a + 24) := by
  obtain ⟨b, hb, -⟩ := memInitialize_good hinit haligned hroom hmin
  obtain ⟨⟨bs, hgood, hσ⟩, hheap, htotal⟩ := program_stores hsafe ⟨[b], hb⟩ hrun
  refine ⟨fun q ws hq => ?_, fun q r ws us hq hr hne => stores_apart hgood.1 hσ hq hr hne, ?_⟩
  · exact ⟨((hσ q ws hq).1).symm, stores_bounds hgood.1 hσ hq⟩
  · intro n size' finalize rsp' rbp' ptr s₂ hlay hfits h
    obtain ⟨-, hnew, hcalls⟩ :=
      memAllocate_stores (heapSafe_statics hsafe hheap htotal) hlay hgood hσ hfits h
    refine ⟨fun hptr hlive => ?_, hcalls⟩
    obtain ⟨ws, hws⟩ := live_object hlive
    have := live_some.mpr ⟨hlive, hws⟩
    rw [hnew hptr] at this
    contradiction

/-- The state after a request of four words. -/
def fourObject : State :=
  { twelve.calling 0x9000 0x9000 with mem := splitBlock twelve.mem 0x1000 4 0 }

/-- An object of four words, a write of its first word, and a global that points to it. -/
theorem heap_refines_store_four : ∃ s σ, Program twoGlobals twelve s σ ∧
    s.mem 0x808 = 0x1018 ∧ σ 0x1018 = some [7, 0, 0, 0] ∧ words s.mem 0x1018 4 = [7, 0, 0, 0] := by
  have hfits : CallFits twoGlobals 5 4 0x9000 0x9000 twelve := by
    intro bs hbs
    rw [twelve_list hbs]
    refine ⟨?_, fun h => absurd h (by decide)⟩
    intro b hb
    obtain rfl : ⟨0x1000, 9, 0⟩ = b := Option.some.inj hb
    decide
  have hlay : Layout twoGlobals (twelve.calling 0x9000 0x9000).toStatics :=
    ⟨by decide, by decide, by decide, by decide, by decide, by decide, by decide⟩
  have hcall : memAllocate twoGlobals 5 4 0 0x9000 0x9000 twelve = .ok (0x1018, fourObject) := rfl
  have hobject := Program.allocate .start hlay hfits hcall
  rw [if_neg (by decide)] at hobject
  have hwrite := Program.write 0 7 hobject (Function.update_self _ _ _) (by simp)
  have hout : ∀ a, inHeapRange fourObject.toStatics a = true → a ≠ 0x808 := by
    rintro a ha rfl
    exact absurd ha (by decide)
  have hrun := Program.outside ((fourObject.mem.set 0x1018 7).set 0x808 0x1018) hwrite
    fun a ha => set_ne _ 0x1018 (hout a ha)
  have hinit : memInitialize 10 0x1000 0 0 { mem := fun _ => 0 } = (twelve, 1) := rfl
  obtain ⟨hwords, -⟩ := heap_refines_store hinit (by decide) (by decide) (by decide)
    (fun _ _ _ _ => rfl) hrun
  have hself := Function.update_self (0x1018 : Word)
    (some ((words fourObject.mem 0x1018 4).set 0 7)) (Function.update (live twoGlobals
      (twelve.calling 0x9000 0x9000).toStatics twelve.mem fun _ => none) 0x1018
      (some (words fourObject.mem 0x1018 4)))
  exact ⟨_, _, hrun, set_self (fourObject.mem.set 0x1018 7) 0x808 0x1018, hself,
    (hwords _ _ hself).1⟩

end Cs720.Alloc
