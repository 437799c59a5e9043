import Cs720.Lib.History
import Cs720.Alloc.HeapRuns
import Cs720.Alloc.Safety

/-! # Finalizers over a run

The finalizer that an allocation registers is called once, by the collection that reclaims the
block.
-/

namespace Cs720.Alloc

open Cs720.Lib

/-! ## Histories -/

inductive Event
  | given (block finalize : Word)
  /-- A collection that took back the blocks `reclaimed`, and the finalizer calls that it made, each
  with its block. -/
  | collected (reclaimed : List Word) (calls : List (Word × Word))

namespace Event

def calls : Event → List (Word × Word)
  | given _ _ => []
  | collected _ calls => calls

def Reclaims (a : Word) : Event → Prop
  | given _ _ => False
  | collected reclaimed _ => a ∈ reclaimed

end Event

/-- The block was given with the finalizer `f`, and has not been reclaimed since. -/
def Outstanding (h : List Event) (a f : Word) : Prop := Since (· = .given a f) (Event.Reclaims a) h

def allocated (bs : List Block) : List Word := (bs.filter (·.alloc)).map Block.addr

/-- Collections and allocations in any order, each allocation in a free block of at least the size
requested; the program writes where it likes, block headers apart. -/
inductive Life (e : Env) (s₀ : State) : State → List Event → Prop
  | start : Life e s₀ s₀ []
  | write {s : State} {h : List Event} (m : Mem) : Life e s₀ s h →
      (∀ bs, HeapOk s.toStatics s.mem bs → ∀ b ∈ bs, ∀ a, Header b a → m a = s.mem a) →
      Life e s₀ { s with mem := m } h
  | enter {s : State} {h : List Event} (rsp rbp : Word) : Life e s₀ s h →
      Life e s₀ { s with stack_top := rsp, frame_bottom := rbp } h
  | collect {s s' : State} {h : List Event} {n : Nat} {r : BitVec 32} {bs bs' : List Block}
      {calls : List (Word × Word)} : Life e s₀ s h → markAndSweep e n s = .ok (s', r) →
      HeapOk s.toStatics s.mem bs → HeapOk s'.toStatics s'.mem bs' →
      s'.finalized = s.finalized ++ calls →
      Life e s₀ s' (h ++ [.collected ((allocated bs).filter (· ∉ allocated bs')) calls])
  | place {s : State} {h : List Event} {size finalize : Word} {bs : List Block} {b : Block} :
      Life e s₀ s h → HeapOk s.toStatics s.mem bs → b ∈ bs → b.alloc = false →
      size.toNat ≤ b.size →
      Life e s₀ { s with mem := splitBlock s.mem b.addr size finalize }
        (h ++ [.given b.addr finalize])

/-! ## What a collection reclaims -/

section
variable {bs : List Block} {S : Set Word} {lo hi : Nat}

theorem mem_allocated {a : Word} : a ∈ allocated bs ↔ ∃ b ∈ bs, b.alloc = true ∧ b.addr = a := by
  simp [allocated, and_assoc]

theorem addrs_nodup (h : Fill lo bs hi) : (bs.map Block.addr).Nodup := by
  rw [List.Nodup, List.pairwise_map]
  apply (tiles_pairwise Block.start_lt_stop h.1).imp
  intro b c hbc ha
  have hlt := b.start_lt_stop
  have : b.start = c.start := congrArg BitVec.toNat ha
  omega

/-- The allocated blocks after a collection are those that it marked. -/
theorem collected_alloc (hfill : Fill lo bs hi) (hunmarked : ∀ b ∈ bs, b.marked = false)
    (hS : OnBlocks bs S) (b : Block) :
    b ∈ collected bs S ∧ b.alloc = true ↔ b ∈ bs ∧ b.addr ∈ S := by
  constructor
  · rintro ⟨hb, ha⟩
    obtain ⟨c', hc', hm, rfl⟩ := (sweepBlocks_alloc none (by simp) hb).2 ha
    obtain ⟨c, hc, rfl⟩ := List.mem_map.mp hc'
    have hcS : c.addr ∈ S := by
      rcases (markIn_marked S c).mp hm with h | h
      · exact h
      · exact absurd h (ne_true_of_eq_false (hunmarked c hc))
    rw [unmark_markIn (hunmarked c hc) hcS]
    exact ⟨hc, hcS⟩
  · rintro ⟨hb, hbS⟩
    obtain ⟨c, hc, hca, halloc⟩ := hS _ hbS
    obtain rfl := addr_inj hfill hc hb hca
    have hkeep := sweepBlocks_keeps none (List.mem_map_of_mem hb)
      ((markIn_marked S c).mpr (Or.inl hbS))
    rw [unmark_markIn (hunmarked c hc) hbS] at hkeep
    exact ⟨hkeep, halloc⟩

/-- A block is reclaimed if it was allocated and is not marked. -/
theorem mem_reclaimed (hfill : Fill lo bs hi) (hunmarked : ∀ b ∈ bs, b.marked = false)
    (hS : OnBlocks bs S) {a : Word} :
    a ∈ (allocated bs).filter (· ∉ allocated (collected bs S)) ↔
      ∃ b ∈ bs, b.alloc = true ∧ b.addr = a ∧ b.addr ∉ S := by
  have halloc := collected_alloc hfill hunmarked hS
  rw [List.mem_filter, decide_eq_true_iff, mem_allocated, mem_allocated]
  constructor
  · rintro ⟨⟨b, hb, ha, rfl⟩, hnot⟩
    refine ⟨b, hb, ha, rfl, fun hbS => hnot ?_⟩
    have := (halloc b).mpr ⟨hb, hbS⟩
    exact ⟨b, this.1, this.2, rfl⟩
  · rintro ⟨b, hb, ha, rfl, hbS⟩
    refine ⟨⟨b, hb, ha, rfl⟩, ?_⟩
    rintro ⟨c, hc, hca, haddr⟩
    obtain ⟨-, hcS⟩ := (halloc c).mp ⟨hc, hca⟩
    exact hbS (haddr ▸ hcS)

theorem mem_finalCalls (hunmarked : ∀ b ∈ bs, b.marked = false) {a f : Word} :
    (a, f) ∈ finalCalls (bs.map (markIn S)) ↔
      f ≠ 0 ∧ ∃ b ∈ bs, b.alloc = true ∧ b.addr = a ∧ b.finalizer = f ∧ b.addr ∉ S := by
  unfold finalCalls
  rw [List.mem_map]
  constructor
  · rintro ⟨c', hc', heq⟩
    rw [List.mem_filter, Bool.and_eq_true, Bool.and_eq_true] at hc'
    obtain ⟨hmem, ⟨hm, ha⟩, hf⟩ := hc'
    obtain ⟨c, hc, rfl⟩ := List.mem_map.mp hmem
    rw [markIn_addr, markIn_finalizer] at heq
    obtain ⟨rfl, rfl⟩ := Prod.mk.inj heq
    refine ⟨by simpa using hf, c, hc, by simpa using ha, rfl, rfl, fun hcS => ?_⟩
    rw [(markIn_marked S c).mpr (Or.inl hcS)] at hm
    cases hm
  · rintro ⟨hf, b, hb, ha, rfl, rfl, hbS⟩
    refine ⟨markIn S b, ?_, by simp⟩
    have hm : (markIn S b).marked = false := by
      rw [Bool.eq_false_iff, ne_eq, markIn_marked, hunmarked b hb]
      simpa using hbS
    rw [List.mem_filter]
    exact ⟨List.mem_map_of_mem hb, by simpa [hm, ha] using hf⟩

theorem finalCalls_nodup (hfill : Fill lo bs hi) : (finalCalls (bs.map (markIn S))).Nodup := by
  apply List.Nodup.of_map Prod.fst
  have hmap : (finalCalls (bs.map (markIn S))).map Prod.fst =
      ((bs.map (markIn S)).filter fun c => !c.marked && c.alloc && c.finalizer != 0).map
        Block.addr := by
    rw [finalCalls, List.map_map]
    rfl
  have haddrs : (bs.map (markIn S)).map Block.addr = bs.map Block.addr := by
    rw [List.map_map]
    exact List.map_congr_left fun b _ => markIn_addr S b
  rw [hmap]
  exact ((List.filter_sublist.map Block.addr).nodup) (haddrs ▸ addrs_nodup hfill)

theorem give_alloc {size finalize : Word} {b c : Block} (hc : c ∈ give size finalize b)
    (ha : c.alloc = true) : c.addr = b.addr ∧ c.finalizer = finalize := by
  unfold give at hc
  split at hc
  · rcases List.mem_cons.mp hc with rfl | hc
    · exact ⟨rfl, rfl⟩
    · obtain rfl := List.mem_singleton.mp hc
      simp [Block.alloc] at ha
  · obtain rfl := List.mem_singleton.mp hc
    exact ⟨rfl, rfl⟩

/-- The allocated blocks after an allocation: the given one, and those before it. -/
theorem split_alloc {size finalize : Word} {xs ys : List Block} {b : Block}
    (hfree : b.alloc = false) (hsize : size.toNat ≤ b.size) {a f : Word} :
    (∃ c ∈ xs ++ (give size finalize b ++ ys), c.alloc = true ∧ c.addr = a ∧ c.finalizer = f) ↔
      (b.addr = a ∧ finalize = f) ∨
        ∃ c ∈ xs ++ b :: ys, c.alloc = true ∧ c.addr = a ∧ c.finalizer = f := by
  constructor
  · rintro ⟨c, hc, hca, rfl, rfl⟩
    rw [List.mem_append, List.mem_append] at hc
    rcases hc with hc | hc | hc
    · exact Or.inr ⟨c, by simp [hc], hca, rfl, rfl⟩
    · obtain ⟨h1, h2⟩ := give_alloc hc hca
      exact Or.inl ⟨h1.symm, h2.symm⟩
    · exact Or.inr ⟨c, by simp [hc], hca, rfl, rfl⟩
  · rintro (⟨rfl, rfl⟩ | ⟨c, hc, hca, rfl, rfl⟩)
    · obtain ⟨c, rest, hgive, haddr, halloc, -, hf⟩ := give_head finalize hsize
      exact ⟨c, by simp [hgive], halloc, haddr, hf⟩
    · have hne : c ≠ b := by
        rintro rfl
        rw [hfree] at hca
        cases hca
      refine ⟨c, ?_, hca, rfl, rfl⟩
      rw [List.mem_append, List.mem_cons] at hc
      rw [List.mem_append, List.mem_append]
      rcases hc with hc | hc | hc
      · exact Or.inl hc
      · exact absurd hc hne
      · exact Or.inr (Or.inr hc)

end

/-! ## The invariant -/

/-- What may happen after a history: a block that is given is not outstanding, and a collection
calls the finalizers of the outstanding blocks that it reclaims, each once. -/
def Sound (past : List Event) : Event → Prop
  | .given a _ => ∀ f, ¬ Outstanding past a f
  | .collected reclaimed calls =>
      calls.Nodup ∧
      (∀ a f, (a, f) ∈ calls ↔ f ≠ 0 ∧ a ∈ reclaimed ∧ Outstanding past a f) ∧
      ∀ a f f', Outstanding past a f → Outstanding past a f' → f = f'

/-- The allocated blocks of the list are the outstanding ones, with their finalizers. -/
structure Tracks (s₀ s : State) (h : List Event) (bs : List Block) : Prop where
  good : Good s bs
  heap : s.heap = s₀.heap
  total : s.total_heap_size = s₀.total_heap_size
  outstanding : ∀ a f, Outstanding h a f ↔
    ∃ b ∈ bs, b.alloc = true ∧ b.addr = a ∧ b.finalizer = f
  log : s.finalized = s₀.finalized ++ h.flatMap Event.calls
  sound : Each Sound h

section
variable {e : Env} {s₀ s s' : State} {h : List Event} {bs : List Block}

theorem outstanding_given {a f a' f' : Word} :
    Outstanding (h ++ [.given a f]) a' f' ↔ (a = a' ∧ f = f') ∨ Outstanding h a' f' := by
  unfold Outstanding
  rw [since_concat]
  simp [Event.Reclaims]

theorem outstanding_collected {R : List Word} {calls : List (Word × Word)} {a f : Word} :
    Outstanding (h ++ [.collected R calls]) a f ↔ a ∉ R ∧ Outstanding h a f := by
  unfold Outstanding
  rw [since_concat]
  simp [Event.Reclaims]

theorem outstanding_after {R : List Word} {calls : List (Word × Word)} {a f : Word}
    {l : List Event} (ha : a ∈ R) (hout : Outstanding (h ++ .collected R calls :: l) a f) :
    .given a f ∈ l := by
  have hlater : Outstanding l a f := by
    unfold Outstanding at hout ⊢
    refine since_past (by simp) ?_ hout
    exact ha
  obtain ⟨ev, hev, rfl⟩ := since_exists hlater
  exact hev

theorem tracks_unique (ht : Tracks s₀ s h bs) {a f f' : Word} (h1 : Outstanding h a f)
    (h2 : Outstanding h a f') : f = f' := by
  obtain ⟨b, hb, -, hba, rfl⟩ := (ht.outstanding a f).mp h1
  obtain ⟨c, hc, -, hca, rfl⟩ := (ht.outstanding a f').mp h2
  rw [addr_inj ht.good.1.fill hb hc (hba.trans hca.symm)]

theorem tracks_collect (hsafe : HeadersSafe e s₀.toStatics) (ht : Tracks s₀ s h bs) {n : Nat}
    {r : BitVec 32} {l : List Block} {calls : List (Word × Word)}
    (hcollect : markAndSweep e n s = .ok (s', r)) (hl : HeapOk s'.toStatics s'.mem l)
    (hcalls : s'.finalized = s.finalized ++ calls) :
    Tracks s₀ s' (h ++ [.collected ((allocated bs).filter (· ∉ allocated l)) calls]) l := by
  obtain ⟨hok, hunmarked⟩ := ht.good
  obtain ⟨S, hS⟩ := collect_heap (headersSafe_statics hsafe ht.heap ht.total) hok hcollect
  obtain rfl := linked_unique hl.linked hS.heap.linked
  obtain rfl : calls = finalCalls (bs.map (markIn S)) :=
    List.append_cancel_left (hcalls.symm.trans hS.calls)
  have halloc := collected_alloc hok.fill hunmarked hS.on_blocks
  have hheap : s'.heap = s.heap := by rw [hS.statics]
  have htotal : s'.total_heap_size = s.total_heap_size := by rw [hS.statics]
  have hreclaimed : ∀ a, a ∈ (allocated bs).filter (· ∉ allocated (collected bs S)) ↔
      ∃ b ∈ bs, b.alloc = true ∧ b.addr = a ∧ b.addr ∉ S :=
    fun a => mem_reclaimed hok.fill hunmarked hS.on_blocks
  refine ⟨⟨hS.heap, fun b hb => collected_unmarked hb⟩, hheap.trans ht.heap, htotal.trans ht.total,
    ?_, ?_, each_concat.mpr ⟨ht.sound, finalCalls_nodup hok.fill, ?_, ?_⟩⟩
  · intro a f
    rw [outstanding_collected, ht.outstanding, hreclaimed]
    constructor
    · rintro ⟨hnot, b, hb, ha, rfl, rfl⟩
      have hbS : b.addr ∈ S := by
        by_contra hbS
        exact hnot ⟨b, hb, ha, rfl, hbS⟩
      have := (halloc b).mpr ⟨hb, hbS⟩
      exact ⟨b, this.1, this.2, rfl, rfl⟩
    · rintro ⟨b, hb, ha, rfl, rfl⟩
      obtain ⟨hmem, hbS⟩ := (halloc b).mp ⟨hb, ha⟩
      refine ⟨?_, b, hmem, ha, rfl, rfl⟩
      rintro ⟨c, -, -, haddr, hcS⟩
      exact hcS (haddr ▸ hbS)
  · rw [hS.calls, ht.log]
    simp [Event.calls]
  · intro a f
    rw [mem_finalCalls hunmarked, hreclaimed, ht.outstanding]
    constructor
    · rintro ⟨hf, b, hb, ha, hba, hbf, hbS⟩
      exact ⟨hf, ⟨b, hb, ha, hba, hbS⟩, b, hb, ha, hba, hbf⟩
    · rintro ⟨hf, ⟨b, hb, ha, hba, hbS⟩, c, hc, -, hca, hcf⟩
      obtain rfl := addr_inj hok.fill hb hc (hba.trans hca.symm)
      exact ⟨hf, b, hb, ha, hba, hcf, hbS⟩
  · intro a f f'
    exact tracks_unique ht

theorem tracks_place (ht : Tracks s₀ s h bs) {size finalize : Word} {b : Block} (hb : b ∈ bs)
    (hfree : b.alloc = false) (hsize : size.toNat ≤ b.size) :
    ∃ l, Tracks s₀ { s with mem := splitBlock s.mem b.addr size finalize }
      (h ++ [.given b.addr finalize]) l := by
  obtain ⟨xs, ys, rfl⟩ := List.append_of_mem hb
  refine ⟨_, split_good finalize ht.good hsize, ht.heap, ht.total, ?_, ?_,
    each_concat.mpr ⟨ht.sound, ?_⟩⟩
  · intro a f
    rw [outstanding_given, ht.outstanding, split_alloc hfree hsize]
  · rw [List.flatMap_append]
    simpa [Event.calls] using ht.log
  · intro f hout
    obtain ⟨d, hd, hda, haddr, -⟩ := (ht.outstanding _ _).mp hout
    obtain rfl := addr_inj ht.good.1.fill hd hb haddr
    rw [hfree] at hda
    cases hda

/-- The invariant of a life. -/
theorem life_tracks (hsafe : HeadersSafe e s₀.toStatics) (h₀ : ∃ bs, Tracks s₀ s₀ [] bs)
    (hlife : Life e s₀ s h) : ∃ bs, Tracks s₀ s h bs := by
  induction hlife with
  | start => exact h₀
  | write m _ hkeep ih =>
    obtain ⟨bs, ht⟩ := ih
    obtain ⟨hok, hmarks⟩ := ht.good
    exact ⟨bs, ⟨heapOk_congr hok (hkeep bs hok), hmarks⟩, ht.heap, ht.total, ht.outstanding, ht.log,
      ht.sound⟩
  | enter rsp rbp _ ih =>
    obtain ⟨bs, ht⟩ := ih
    exact ⟨bs, ⟨heapOk_statics ht.good.1 rfl rfl rfl, ht.good.2⟩, ht.heap, ht.total, ht.outstanding,
      ht.log, ht.sound⟩
  | collect _ hcollect hbs hbs' hcalls ih =>
    obtain ⟨bs, ht⟩ := ih
    obtain rfl := linked_unique ht.good.1.linked hbs.linked
    exact ⟨_, tracks_collect hsafe ht hcollect hbs' hcalls⟩
  | place _ hbs hb hfree hsize ih =>
    obtain ⟨bs, ht⟩ := ih
    obtain rfl := linked_unique ht.good.1.linked hbs.linked
    exact tracks_place ht hb hfree hsize

theorem tracks_start {size p rsp rbp : Word} (hinit : memInitialize size p rsp rbp s = (s₀, 1))
    (haligned : p.toNat % 8 = 0) (hroom : p.toNat + 8 * s₀.total_heap_size.toNat < 2 ^ 64)
    (hmin : 3 ≤ s₀.total_heap_size.toNat) : ∃ bs, Tracks s₀ s₀ [] bs := by
  obtain ⟨b, hgood, hfree⟩ := memInitialize_good hinit haligned hroom hmin
  refine ⟨[b], hgood, rfl, rfl, fun a f => ?_, by simp, each_nil⟩
  simp [Outstanding, Since, hfree]

/-! ## Heaps that hold no header -/

theorem heapOk_min {g : Statics} {m : Mem} (hok : HeapOk g m bs) : 3 ≤ g.total_heap_size.toNat := by
  obtain ⟨b, rest, rfl, -⟩ := heap_cons hok
  obtain ⟨h1, h2, -⟩ := fill_bounds hok.fill (b := b) (by simp)
  unfold Block.stop at h2
  omega

theorem life_small (hmin : s₀.total_heap_size.toNat < 3) (hlife : Life e s₀ s h) :
    h = [] ∧ s.finalized = s₀.finalized ∧ s.total_heap_size = s₀.total_heap_size := by
  induction hlife with
  | start => exact ⟨rfl, rfl, rfl⟩
  | write _ _ _ ih => exact ih
  | enter _ _ _ ih => exact ih
  | collect _ _ hbs _ _ ih =>
    have := heapOk_min hbs
    rw [ih.2.2] at this
    omega
  | place _ hbs _ _ _ ih =>
    have := heapOk_min hbs
    rw [ih.2.2] at this
    omega

end

/-! ## One allocation -/

/-- The calls made for the block `a` in what follows the event that gave it with `f`: none before
the collection that reclaims it, then one to `f` unless that is NULL, and later ones only for a
later owner of the block. -/
def CalledOnce (a f : Word) (later : List Event) : Prop :=
  ∀ l₁ reclaimed calls l₂, later = l₁ ++ .collected reclaimed calls :: l₂ →
    (∀ ev ∈ l₁, ¬ ev.Reclaims a) →
    (a ∉ reclaimed → ∀ f', (a, f') ∉ calls) ∧
    (a ∈ reclaimed →
      calls.count (a, f) = (if f = 0 then 0 else 1) ∧ (∀ f', f' ≠ f → (a, f') ∉ calls) ∧
      ∀ l₃ reclaimed' calls' l₄ f', l₂ = l₃ ++ .collected reclaimed' calls' :: l₄ →
        (a, f') ∈ calls' → .given a f' ∈ l₃)

theorem sound_once {h : List Event} (hsound : Each Sound h) {l₁ l₂ : List Event} {a f : Word}
    (heq : h = l₁ ++ .given a f :: l₂) : CalledOnce a f l₂ := by
  rintro l₃ reclaimed calls l₄ rfl hkept
  have hsplit : h = (l₁ ++ .given a f :: l₃) ++ .collected reclaimed calls :: l₄ := by
    rw [heq]
    simp
  obtain ⟨hnodup, hcalls, hunique⟩ := hsound _ _ _ hsplit
  have hout : Outstanding (l₁ ++ .given a f :: l₃) a f := since_of_split rfl hkept
  refine ⟨fun hnot f' hmem => hnot ((hcalls a f').mp hmem).2.1, fun hmem => ⟨?_, ?_, ?_⟩⟩
  · split
    · rename_i h0
      exact List.count_eq_zero.mpr fun hin => ((hcalls a f).mp hin).1 h0
    · rename_i h0
      exact List.count_eq_one_of_mem hnodup ((hcalls a f).mpr ⟨h0, hmem, hout⟩)
  · intro f' hne hin
    exact hne (hunique a f' f ((hcalls a f').mp hin).2.2 hout)
  · rintro l₅ reclaimed' calls' l₆ f' rfl hin
    have hsplit' : h = ((l₁ ++ .given a f :: l₃) ++ .collected reclaimed calls :: l₅) ++
        .collected reclaimed' calls' :: l₆ := by
      rw [hsplit]
      simp
    obtain ⟨-, hcalls', -⟩ := hsound _ _ _ hsplit'
    have hout' := ((hcalls' a f').mp hin).2.2
    exact outstanding_after hmem hout'

/-- A call of `memAllocate` that fits: at most one collection, then the block if there is one. -/
theorem memAllocate_life {e : Env} {s₀ s s' : State} {h : List Event} {bs : List Block} {n : Nat}
    {size finalize rsp rbp ptr : Word} (hsafe : HeadersSafe e s.toStatics) (hlife : Life e s₀ s h)
    (hok : HeapOk s.toStatics s.mem bs) (hfits : CallFits e n size rsp rbp s)
    (hcall : memAllocate e n size finalize rsp rbp s = .ok (ptr, s')) :
    ∃ h', (h' = [] ∨ ∃ reclaimed calls, h' = [.collected reclaimed calls]) ∧
      (ptr = 0 ∧ Life e s₀ s' (h ++ h') ∨
        ∃ b, ptr = b + 24 ∧ Life e s₀ s' (h ++ h' ++ [.given b finalize])) := by
  have hok₀ : HeapOk { s.toStatics with stack_top := rsp, frame_bottom := rbp } s.mem bs :=
    heapOk_statics hok rfl rfl rfl
  have hlife₀ := hlife.enter rsp rbp
  obtain ⟨hfit, hfit'⟩ := hfits bs hok
  cases memAllocate_serves hok hsafe hcall with
  | first hb =>
    obtain ⟨hmem, hfree⟩ := firstFit_free hb
    refine ⟨[], Or.inl rfl, Or.inr ⟨_, rfl, ?_⟩⟩
    rw [List.append_nil]
    exact hlife₀.place hok₀ hmem hfree (hfit _ hb)
  | full _ hS =>
    have hlife₁ := hlife₀.collect hS.run hok₀ hS.heap hS.calls
    exact ⟨_, Or.inr ⟨_, _, rfl⟩, Or.inl ⟨rfl, hlife₁⟩⟩
  | second hnone hS hb =>
    have hlife₁ := hlife₀.collect hS.run hok₀ hS.heap hS.calls
    obtain ⟨hmem, hfree⟩ := firstFit_free hb
    have hsize := hfit' hnone _ hS.on_blocks hS.marked _ hb
    exact ⟨_, Or.inr ⟨_, _, rfl⟩, Or.inr ⟨_, rfl, hlife₁.place hS.heap hmem hfree hsize⟩⟩

/-- Finalizers run once. In every life of a heap that `memInitialize` made, the calls made are those
of the collections, each for an outstanding block that it reclaims; each block that is given has its
finalizer called once; and what is outstanding is what is allocated. Every call of `memAllocate`
that fits continues the life. -/
theorem finalizers_once {e : Env} {size p rsp rbp : Word} {s s₀ : State}
    (hinit : memInitialize size p rsp rbp s = (s₀, 1)) (haligned : p.toNat % 8 = 0)
    (hroom : p.toNat + 8 * s₀.total_heap_size.toNat < 2 ^ 64) (hsafe : HeadersSafe e s₀.toStatics)
    {s₁ : State} {h : List Event} (hlife : Life e s₀ s₁ h) :
    s₁.finalized = s₀.finalized ++ h.flatMap Event.calls ∧
    (∀ l₁ reclaimed calls l₂, h = l₁ ++ .collected reclaimed calls :: l₂ →
      ∀ a f, (a, f) ∈ calls → f ≠ 0 ∧ a ∈ reclaimed ∧ Outstanding l₁ a f) ∧
    (∀ l₁ a f l₂, h = l₁ ++ .given a f :: l₂ → CalledOnce a f l₂) ∧
    ∀ bs, HeapOk s₁.toStatics s₁.mem bs →
      (∀ a f, Outstanding h a f ↔ ∃ b ∈ bs, b.alloc = true ∧ b.addr = a ∧ b.finalizer = f) ∧
      ∀ {n : Nat} {size' finalize rsp' rbp' ptr : Word} {s₂ : State},
        CallFits e n size' rsp' rbp' s₁ →
        memAllocate e n size' finalize rsp' rbp' s₁ = .ok (ptr, s₂) →
        ∃ h', (h' = [] ∨ ∃ reclaimed calls, h' = [.collected reclaimed calls]) ∧
          (ptr = 0 ∧ Life e s₀ s₂ (h ++ h') ∨
            ∃ b, ptr = b + 24 ∧ Life e s₀ s₂ (h ++ h' ++ [.given b finalize])) := by
  by_cases hmin : 3 ≤ s₀.total_heap_size.toNat
  · obtain ⟨bs, ht⟩ := life_tracks hsafe (tracks_start hinit haligned hroom hmin) hlife
    refine ⟨ht.log, ?_, fun l₁ a f l₂ heq => sound_once ht.sound heq, ?_⟩
    · intro l₁ reclaimed calls l₂ heq a f hmem
      obtain ⟨-, hcalls, -⟩ := ht.sound _ _ _ heq
      exact (hcalls a f).mp hmem
    · intro bs' hok
      obtain rfl := linked_unique ht.good.1.linked hok.linked
      exact ⟨ht.outstanding, fun hfits hcall =>
        memAllocate_life (headersSafe_statics hsafe ht.heap ht.total) hlife hok hfits hcall⟩
  · -- No list tiles such a heap, so nothing has happened.
    obtain ⟨rfl, hlog, htotal⟩ := life_small (by omega) hlife
    refine ⟨by simpa using hlog, by simp, by simp, fun bs hok => ?_⟩
    have := heapOk_min hok
    rw [htotal] at this
    omega

/-! ### One block, given and reclaimed -/

def gaveFour : State := { twelve with mem := splitBlock twelve.mem 0x1000 4 0x400 }

def tookFour : State :=
  match markAndSweep quiet 20 gaveFour with
  | .ok (s, _) => s
  | .error _ => gaveFour

theorem gaveFour_ok : HeapOk gaveFour.toStatics gaveFour.mem
    [⟨0x1000, infoMake 1#32 0#32 4, 0x400⟩, ⟨0x1038, 2, 0⟩] :=
  ⟨rfl, by decide, by decide, ⟨by decide, ⟨rfl, rfl, rfl⟩, by decide, ⟨rfl, rfl, rfl⟩, rfl⟩,
    ⟨rfl, by decide, rfl⟩, by decide⟩

theorem tookFour_ok : HeapOk tookFour.toStatics tookFour.mem [⟨0x1000, 9, 0x400⟩] :=
  ⟨rfl, by decide, by decide, ⟨by decide, ⟨rfl, rfl, rfl⟩, rfl⟩, ⟨rfl, rfl⟩, by decide⟩

theorem tookFour_life : Life quiet twelve tookFour
    [.given 0x1000 0x400, .collected [0x1000] [(0x1000, 0x400)]] := by
  have hmem : (⟨0x1000, 9, 0⟩ : Block) ∈ [(⟨0x1000, 9, 0⟩ : Block)] := List.mem_singleton_self _
  have hsize : (4 : Word).toNat ≤ (⟨0x1000, 9, 0⟩ : Block).size := by decide
  have hplace : Life quiet twelve _ ([] ++ [.given _ 0x400]) :=
    .place .start twelve_ok hmem (by decide) hsize
  have hgave : Life quiet twelve gaveFour [.given 0x1000 0x400] := hplace
  have hrun : markAndSweep quiet 20 gaveFour = .ok (tookFour, 7) := rfl
  have hcalls : tookFour.finalized = gaveFour.finalized ++ [(0x1000, 0x400)] := rfl
  exact hgave.collect hrun gaveFour_ok tookFour_ok hcalls

theorem finalizers_once_four : ∃ s h, Life quiet twelve s h ∧ s.finalized = [(0x1000, 0x400)] ∧
    ∀ bs, HeapOk s.toStatics s.mem bs → ¬ ∃ b ∈ bs, b.alloc = true ∧ b.addr = 0x1000 ∧
      b.finalizer = 0x400 := by
  have hinit : memInitialize 10 0x1000 0 0 { mem := fun _ => 0 } = (twelve, 1) := rfl
  obtain ⟨hlog, -, -, hout⟩ := finalizers_once hinit (by decide) (by decide) (fun _ _ _ h _ => h)
    tookFour_life
  refine ⟨_, _, tookFour_life, hlog, fun bs hok hb => ?_⟩
  have := ((hout bs hok).1 0x1000 0x400).mpr hb
  simp [Outstanding, Since, Event.Reclaims] at this

end Cs720.Alloc
