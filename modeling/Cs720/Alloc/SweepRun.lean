import Cs720.Alloc.Sweep

/-! # The loop of the sweep

`SweepInv` cuts the list in memory at the loop variables `prev` and `cur`: the blocks already swept,
the free block that can still grow, and the blocks to come.
-/

namespace Cs720.Alloc

open Cs720.Lib

/-- Finalizers leave the block headers alone. -/
def HeadersSafe (e : Env) (g : Statics) : Prop :=
  ∀ f m bs, Linked m g.heap bs →
    Fill g.heap.toNat bs (g.heap.toNat + 8 * g.total_heap_size.toNat) →
    Linked (e.finalizer f m) g.heap bs

/-! ## Edits of the list -/

section
variable {lo hi : Nat} {xs ys : List Block} {c : Block}

theorem map_setInfo (hfill : Fill lo (xs ++ c :: ys) hi) (v : Word) :
    (xs ++ c :: ys).map (setInfo c.addr v) = xs ++ { c with info := v } :: ys := by
  have hc : c ∈ xs ++ c :: ys := by simp
  have hother : ∀ b ∈ xs ++ ys, b.addr ≠ c.addr := by
    intro b hb ha
    have hlt := c.start_lt_stop
    obtain ⟨ht, -⟩ := hfill
    rw [tiles_append] at ht
    obtain ⟨mid, h1, h2, h3⟩ := ht
    have hba : b.start = c.start := congrArg BitVec.toNat ha
    rcases List.mem_append.mp hb with hb | hb
    · have := (tiles_bounds Block.start_lt_stop h1 hb).2
      have := b.start_lt_stop
      omega
    · have := (tiles_bounds Block.start_lt_stop h3 hb).1
      omega
  have hid : ∀ l ⊆ xs ++ ys, l.map (setInfo c.addr v) = l := by
    intro l hl
    have : ∀ b ∈ l, setInfo c.addr v b = id b := fun b hb => by
      simp [setInfo, hother b (hl hb)]
    rw [List.map_congr_left this, List.map_id]
  rw [List.map_append, List.map_cons, hid xs (by simp), hid ys (by simp)]
  simp [setInfo]

theorem linked_edit {m : Mem} {p v : Word} (hfill : Fill lo (xs ++ c :: ys) hi)
    (h : Linked m p (xs ++ c :: ys)) :
    Linked (m.set c.addr v) p (xs ++ { c with info := v } :: ys) := by
  rw [← map_setInfo hfill v]
  exact linked_setInfo hfill (by simp) h

/-- The link words of different blocks are different words. -/
theorem header_ne {bs : List Block} (hfill : Fill lo bs hi) {b d : Block} (hb : b ∈ bs)
    (hd : d ∈ bs) (hne : b ≠ d) {a a' : Word} (ha : Header b a) (ha' : Header d a') : a ≠ a' := by
  rintro rfl
  exact hne (header_unique hfill hb hd ha ha')

theorem link_ne_header (b : Block) : b.addr ≠ b.addr + 8 ∧ b.addr + 16 ≠ b.addr + 8 := by
  constructor <;> bv_omega

/-- Takes the block `d` out of the list. Its neighbour `c'` stands where `c` stood in the tiling. -/
theorem linked_unlink {m : Mem} {p : Word} {c' d : Block} (hc' : c'.addr = c.addr)
    (hfill : Fill lo (xs ++ c :: d :: ys) hi) (h : Linked m p (xs ++ c' :: d :: ys)) :
    Linked (m.set (c.addr + 8) (next m d.addr)) p (xs ++ c' :: ys) := by
  have hc : c ∈ xs ++ c :: d :: ys := by simp
  have hpair := tiles_pairwise Block.start_lt_stop hfill.1
  rw [List.pairwise_append, List.pairwise_cons, List.pairwise_cons] at hpair
  obtain ⟨-, ⟨hcd, hdy, -⟩, hxs⟩ := hpair
  have hkeep : ∀ b ∈ xs ++ d :: ys, ∀ a, Header b a →
      m.set (c.addr + 8) (next m d.addr) a = m a := by
    intro b hb a ha
    apply set_ne
    have hbc : b ≠ c := by
      rintro rfl
      have hlt := b.start_lt_stop
      rcases List.mem_append.mp hb with hb | hb
      · have := hxs b hb b (by simp)
        omega
      · have := hcd b hb
        omega
    exact header_ne hfill (by simp at hb ⊢; tauto) hc hbc ha (Or.inr (Or.inl rfl))
  have hseg : ∀ l ⊆ xs ++ d :: ys, ∀ q r, Seg 0 (Holds m) (next m) q l r →
      Seg 0 (Holds (m.set (c.addr + 8) (next m d.addr)))
        (next (m.set (c.addr + 8) (next m d.addr))) q l r := by
    intro l hl q r hs
    apply seg_congr _ hs
    rintro w b hb ⟨rfl, h1, h2⟩
    have hk := hkeep b (hl hb)
    refine ⟨⟨rfl, (hk _ (Or.inl rfl)).trans h1, ?_⟩, hk _ (Or.inr (Or.inl rfl))⟩
    exact (hk _ (Or.inr (Or.inr rfl))).trans h2
  obtain ⟨h1, h2⟩ := link_ne_header c
  unfold Linked at h ⊢
  rw [seg_append] at h ⊢
  obtain ⟨r, hx, hr0, ⟨rfl, hci, hcf⟩, hd0, ⟨hd, -, -⟩, hy⟩ := h
  rw [hc'] at hx hr0 hci hcf
  rw [← hc'] at hx
  refine ⟨c'.addr, hseg xs (by simp) _ _ hx, by rwa [hc'], ⟨rfl, ?_, ?_⟩, ?_⟩
  all_goals rw [hc']
  · rw [set_ne m _ h1]
    exact hci
  · unfold finalizerOf at hcf ⊢
    rw [set_ne m _ h2]
    exact hcf
  · have hn : next (m.set (c.addr + 8) (next m d.addr)) c.addr = next m d.addr := by
      simp [next]
    rw [hn]
    rw [hd] at hy
    exact hseg ys (by simp) _ _ hy

end

/-! ## The invariant -/

structure SweepInv (g : Statics) (K : Word → Prop) (m₀ : Mem) (log : List (Word × Word))
    (bs : List Block) (s : Sweep) (swept : List Block) (prev : Option Block) (rest : List Block) :
    Prop where
  before : Seg 0 (Holds s.mem) (next s.mem) g.heap (swept ++ prev.toList) s.cur
  after : Linked s.mem s.cur rest
  fill : Fill g.heap.toNat (swept ++ prev.toList ++ rest)
    (g.heap.toNat + 8 * g.total_heap_size.toNat)
  prev_addr : s.prev = prev.elim 0 Block.addr
  result : swept ++ sweepBlocks prev rest = sweepBlocks none bs
  calls : s.finalized ++ finalCalls rest = log ++ finalCalls bs
  freed : s.words_freed + BitVec.ofNat 64 (wordsFreed prev.isSome rest) =
    BitVec.ofNat 64 (wordsFreed false bs)
  kept : ∀ a, K a → s.mem a = m₀ a
  no_header : ∀ a, K a → ∀ b ∈ swept ++ prev.toList ++ rest, ¬ Header b a

section
variable {e : Env} {g : Statics} {K : Word → Prop} {m₀ : Mem} {log : List (Word × Word)}
  {bs : List Block} {s : Sweep} {swept rest : List Block} {prev : Option Block} {c : Block}

theorem SweepInv.linked (h : SweepInv g K m₀ log bs s swept prev rest) :
    Linked s.mem g.heap (swept ++ prev.toList ++ rest) := by
  unfold Linked
  rw [seg_append]
  exact ⟨s.cur, h.before, h.after⟩

/-- The pointers that cut a list are where its parts meet. -/
theorem linked_cut {m : Mem} {p : Word} {xs ys : List Block} {c : Block}
    (h : Linked m p (xs ++ c :: ys)) :
    Seg 0 (Holds m) (next m) p xs c.addr ∧ Linked m c.addr (c :: ys) := by
  unfold Linked at h
  rw [seg_append] at h
  obtain ⟨r, hx, hr⟩ := h
  obtain rfl := hr.2.1.1
  exact ⟨hx, hr⟩

theorem linked_cut_after {m : Mem} {p : Word} {xs ys : List Block} {c : Block}
    (h : Linked m p (xs ++ c :: ys)) :
    Seg 0 (Holds m) (next m) p (xs ++ [c]) (next m c.addr) ∧ Linked m (next m c.addr) ys := by
  obtain ⟨hx, h0, ⟨-, hc⟩, hy⟩ := linked_cut h
  refine ⟨?_, hy⟩
  rw [seg_append]
  exact ⟨c.addr, hx, h0, ⟨rfl, hc⟩, rfl⟩

theorem finalCalls_cons (c : Block) (cs : List Block) :
    finalCalls (c :: cs) = (if !c.marked && c.alloc && c.finalizer != 0 then
      [(c.addr, c.finalizer)] else []) ++ finalCalls cs := by
  unfold finalCalls
  rw [List.filter_cons]
  split <;> rfl

/-- A marked block: the mark goes, the block stays. -/
theorem sweepInv_marked (h : SweepInv g K m₀ log bs s swept prev (c :: rest))
    (hm : c.marked = true) :
    SweepInv g K m₀ log bs
      { s with mem := s.mem.set c.addr (s.mem c.addr &&& ~~~MARK_BIT)
               cur := next (s.mem.set c.addr (s.mem c.addr &&& ~~~MARK_BIT)) c.addr, prev := 0 }
      (swept ++ prev.toList ++ [c.unmark]) none rest := by
  have hinfo : s.mem c.addr = c.info := linked_info h.linked (by simp)
  have hedit := linked_edit (v := s.mem c.addr &&& ~~~MARK_BIT) h.fill h.linked
  rw [hinfo] at hedit ⊢
  obtain ⟨h1, h2⟩ := linked_cut_after hedit
  have hsame : swept ++ prev.toList ++ c.unmark :: rest =
      swept ++ prev.toList ++ [c.unmark] ++ (none : Option Block).toList ++ rest := by simp
  refine ⟨?_, h2, ?_, rfl, ?_, ?_, ?_, ?_, ?_⟩
  · rw [Option.toList_none, List.append_nil]
    exact h1
  · rw [← hsame]
    exact fill_append (fun _ => fill_unmark) h.fill
  · rw [← h.result]
    simp [sweepBlocks, hm]
  · rw [← h.calls, finalCalls_cons]
    simp [hm]
  · rw [← h.freed]
    simp [wordsFreed, hm]
  · intro a ha
    exact (set_ne _ _ fun hac => h.no_header a ha c (by simp) (Or.inl hac)).trans (h.kept a ha)
  · intro a ha b hb
    rw [← hsame] at hb
    rw [List.mem_append, List.mem_cons] at hb
    rcases hb with hb | rfl | hb
    · exact h.no_header a ha b (by simp at hb ⊢; tauto)
    · exact h.no_header a ha c (by simp)
    · exact h.no_header a ha b (by simp [hb])

/-- What `releaseBlock` does to the list, before the block is coalesced. -/
theorem release_linked (hsafe : HeadersSafe e g)
    (hK : ∀ f m a, K a → e.finalizer f m a = m a)
    (h : SweepInv g K m₀ log bs s swept prev (c :: rest)) (hcur : s.cur = c.addr)
    (hm : c.marked = false) (s' : Sweep)
    (hs' : s' = if isAlloc (s.mem s.cur) then releaseBlock e s else s) :
    Linked s'.mem g.heap (swept ++ prev.toList ++ c.release :: rest) ∧
      s'.cur = s.cur ∧ s'.prev = s.prev ∧
      s'.finalized ++ finalCalls rest = log ++ finalCalls bs ∧
      s'.words_freed = s.words_freed + (if c.alloc then BitVec.ofNat 64 c.size else 0) ∧
      ∀ a, K a → s'.mem a = m₀ a := by
  have hinfo : s.mem c.addr = c.info := linked_info h.linked (by simp)
  have hfin : finalizerOf s.mem c.addr = c.finalizer := (linked_cut h.linked).2.2.1.2.2
  have hcalls := h.calls
  rw [finalCalls_cons] at hcalls
  by_cases ha : c.alloc = true
  · have ha' : isAlloc (s.mem s.cur) = true := by
      rw [hcur, hinfo]
      exact ha
    rw [if_pos ha'] at hs'
    have hedit := linked_edit (v := s.mem c.addr &&& ~~~ALLOC_BIT) h.fill h.linked
    rw [hinfo] at hedit
    have hrel : ({ c with info := c.info &&& ~~~ALLOC_BIT } : Block) = c.release := by
      simp [Block.release, ha]
    rw [hrel] at hedit
    have hkept : ∀ a, K a → s.mem.set c.addr (c.info &&& ~~~ALLOC_BIT) a = m₀ a := by
      intro a hKa
      rw [set_ne _ _ (fun hac => h.no_header a hKa c (by simp) (Or.inl hac)), h.kept a hKa]
    have hfin' : finalizerOf (s.mem.set c.addr (c.info &&& ~~~ALLOC_BIT)) c.addr = c.finalizer := by
      rw [← hfin]
      exact set_ne _ _ (addr_ne_link h.fill (by simp) (by simp)).2
    have hsize : s.mem.set c.addr (c.info &&& ~~~ALLOC_BIT) c.addr &&& SIZE_MASK =
        BitVec.ofNat 64 c.size := by
      simp [Block.size]
    rw [releaseBlock, hcur, hinfo] at hs'
    simp only [hfin', hsize] at hs'
    by_cases hf : c.finalizer = 0
    · have hf' : (c.finalizer != 0) = false := by simpa using hf
      rw [if_neg (by simpa using hf)] at hs'
      subst hs'
      refine ⟨hedit, hcur.symm ▸ rfl, rfl, ?_, by simp [ha], hkept⟩
      rw [hm, ha, hf'] at hcalls
      simpa using hcalls
    · have hf' : (c.finalizer != 0) = true := by simpa using hf
      rw [if_pos (by simpa using hf)] at hs'
      subst hs'
      refine ⟨?_, hcur.symm ▸ rfl, rfl, ?_, by simp [ha], ?_⟩
      · exact hsafe _ _ _ hedit (fill_append (fun _ => fill_release) h.fill)
      · rw [hm, ha, hf'] at hcalls
        simpa using hcalls
      · intro a hKa
        exact (hK _ _ _ hKa).trans (hkept a hKa)
  · have ha' : ¬ isAlloc (s.mem s.cur) = true := by
      rw [hcur, hinfo]
      exact ha
    rw [if_neg ha'] at hs'
    subst hs'
    have hrel : c.release = c := by simp [Block.release, ha]
    rw [hrel]
    refine ⟨h.linked, rfl, rfl, ?_, by simp [ha], h.kept⟩
    simpa [ha] using hcalls

/-- The free block that a free `c` becomes, or becomes a part of. -/
def grow (prev : Option Block) (c : Block) : Block :=
  match prev with
  | none => c.release
  | some p => p.merge c.release

theorem sweepBlocks_free (prev : Option Block) {c : Block} (hm : c.marked = false)
    (cs : List Block) : sweepBlocks prev (c :: cs) = sweepBlocks (some (grow prev c)) cs := by
  cases prev <;> simp [sweepBlocks, hm, grow]

theorem grow_fill {lo hi : Nat} (h : Fill lo (swept ++ prev.toList ++ c :: rest) hi) :
    Fill lo (swept ++ (some (grow prev c)).toList ++ rest) hi := by
  rw [List.append_assoc] at h ⊢
  refine fill_append (fun mid hrest => ?_) h
  cases prev with
  | none => exact fill_release hrest
  | some p => exact fill_merge hrest

/-- `coalesce` on a memory in which the block at `cur` has been released. -/
theorem coalesce_linked {lo hi : Nat} {s : Sweep}
    (hfill : Fill lo (swept ++ prev.toList ++ c :: rest) hi)
    (hl : Linked s.mem g.heap (swept ++ prev.toList ++ c.release :: rest))
    (hcur : s.cur = c.addr) (hprev : s.prev = prev.elim 0 Block.addr) :
    Linked (coalesce s).mem g.heap (swept ++ grow prev c :: rest) ∧
      (coalesce s).cur = c.addr ∧ (coalesce s).prev = (grow prev c).addr ∧
      next (coalesce s).mem c.addr = next (coalesce s).mem (grow prev c).addr ∧
      (coalesce s).finalized = s.finalized ∧
      (coalesce s).words_freed = s.words_freed + (if prev.isSome then 3 else 0) ∧
      ∀ a, (∀ p ∈ prev, ¬ Header p a) → (coalesce s).mem a = s.mem a := by
  cases prev with
  | none =>
    have h0 : s.prev = 0 := hprev
    rw [coalesce, if_neg (not_not.mpr h0)]
    refine ⟨by simpa [grow] using hl, hcur, by simpa [grow] using hcur, by simp [grow], rfl, ?_,
      fun _ _ => rfl⟩
    simp
  | some p =>
    have hp : s.prev = p.addr := hprev
    have hfill' := fill_append (fun _ => fill_release) hfill
    simp only [Option.toList_some, List.append_assoc, List.cons_append, List.nil_append]
      at hl hfill'
    have h0 : p.addr ≠ 0 := (linked_cut hl).2.1
    have hpi : s.mem p.addr = p.info := linked_info hl (by simp)
    have hci : s.mem c.addr = c.release.info := by
      rw [← c.release_addr]
      exact linked_info hl (by simp)
    have hedit := linked_edit (v := (p.merge c.release).info) hfill' hl
    have hmerge : ({ p with info := (p.merge c.release).info } : Block) = p.merge c.release := rfl
    rw [hmerge] at hedit
    have hun := linked_unlink (Block.merge_addr p c.release) hfill' hedit
    rw [c.release_addr] at hun
    have hmem : (coalesce s).mem = (s.mem.set p.addr (p.merge c.release).info).set (p.addr + 8)
        (next (s.mem.set p.addr (p.merge c.release).info) c.addr) := by
      rw [coalesce, if_pos (by rw [hp]; exact h0)]
      simp only [hp, hcur, hpi, hci]
      rfl
    have hcoal : (coalesce s).cur = s.cur ∧ (coalesce s).prev = s.prev ∧
        (coalesce s).finalized = s.finalized ∧
        (coalesce s).words_freed = s.words_freed + BLOCK_SIZE := by
      rw [coalesce, if_pos (by rw [hp]; exact h0)]
      exact ⟨rfl, rfl, rfl, rfl⟩
    obtain ⟨h1, h2, h3, h4⟩ := hcoal
    refine ⟨by rw [hmem]; exact hun, h1.trans hcur, h2.trans hp, ?_, h3, h4, ?_⟩
    · -- The link of `c` was copied to `p`; it is still there in `c`.
      have hne : c.addr + 8 ≠ p.addr + 8 := by
        have : c.release.addr ≠ p.addr := by
          intro ha
          have := (tiles_append.mp hfill'.1)
          obtain ⟨mid, -, h5, h6, -⟩ := this
          have hlt := p.start_lt_stop
          have : c.release.start = p.start := congrArg BitVec.toNat ha
          omega
        rw [c.release_addr] at this
        intro he
        exact this (by bv_omega)
      rw [hmem, grow, Block.merge_addr]
      unfold next
      rw [set_self, set_ne _ _ hne]
    · intro a ha
      have hpa := ha p rfl
      rw [hmem, set_ne _ _ (fun h => hpa (Or.inr (Or.inl h))), set_ne _ _ (fun h => hpa (Or.inl h))]

/-- A free block, or one that the sweep frees: it is released and coalesced. -/
theorem sweepInv_free (hsafe : HeadersSafe e g) (hK : ∀ f m a, K a → e.finalizer f m a = m a)
    (h : SweepInv g K m₀ log bs s swept prev (c :: rest)) (hm : c.marked = false) (s₁ : Sweep)
    (hs₁ : s₁ = coalesce (if isAlloc (s.mem s.cur) then releaseBlock e s else s)) :
    SweepInv g K m₀ log bs { s₁ with cur := next s₁.mem s₁.cur } swept (some (grow prev c)) rest := by
  have hcur : s.cur = c.addr := h.after.2.1.1
  obtain ⟨hl, hc, hp, hcalls, hfreed, hkept⟩ := release_linked hsafe hK h hcur hm _ rfl
  obtain ⟨h1, h2, h3, h4, h5, h6, h7⟩ :=
    coalesce_linked h.fill hl (hc.trans hcur) (hp.trans h.prev_addr)
  rw [← hs₁] at h1 h2 h3 h4 h5 h6 h7
  obtain ⟨hb, ha⟩ := linked_cut_after h1
  have haddr : (grow prev c).addr = c.addr ∨ ∃ p ∈ prev, (grow prev c).addr = p.addr := by
    cases prev with
    | none => exact Or.inl (by simp [grow])
    | some p => exact Or.inr ⟨p, rfl, rfl⟩
  refine ⟨?_, ?_, grow_fill h.fill, h3, ?_, ?_, ?_, ?_, ?_⟩
  · rw [h2, h4]
    exact hb
  · rw [h2, h4]
    exact ha
  · rw [← sweepBlocks_free prev hm]
    exact h.result
  · rw [h5]
    exact hcalls
  · rw [h6, hfreed, ← h.freed]
    simp only [wordsFreed, hm, Option.isSome_some]
    cases c.alloc <;> cases prev.isSome <;> simp [BitVec.ofNat_add, BitVec.add_assoc]
  · intro a hKa
    rw [h7 a fun p hpa => h.no_header a hKa p (by simp [Option.mem_def.mp hpa])]
    exact hkept a hKa
  · intro a hKa b hb'
    simp only [Option.toList_some, List.mem_append, List.mem_singleton] at hb'
    rcases hb' with (hb' | rfl) | hb'
    · exact h.no_header a hKa b (by simp [hb'])
    · rcases haddr with ha | ⟨p, hpm, ha⟩
      · have := h.no_header a hKa c (by simp)
        unfold Header at this ⊢
        rwa [ha]
      · have := h.no_header a hKa p (by simp [Option.mem_def.mp hpm])
        unfold Header at this ⊢
        rwa [ha]
    · exact h.no_header a hKa b (by simp [hb'])

theorem sweepInv_step (hsafe : HeadersSafe e g) (hK : ∀ f m a, K a → e.finalizer f m a = m a)
    {s' : Sweep} (h : SweepInv g K m₀ log bs s swept prev rest)
    (hstep : sweepStep e s = .ok (.next s')) :
    ∃ swept' prev' rest', SweepInv g K m₀ log bs s' swept' prev' rest' := by
  cases rest with
  | nil =>
    have h0 : s.cur = 0 := h.after
    rw [sweepStep, if_pos h0] at hstep
    cases hstep
  | cons c rest =>
    obtain ⟨h0, ⟨hcur, hinfo, -⟩, -⟩ := h.after
    rw [sweepStep, if_neg h0] at hstep
    by_cases hm : c.marked = true
    · rw [if_pos (by rw [hinfo]; exact hm)] at hstep
      cases hstep
      rw [hcur]
      exact ⟨_, _, _, sweepInv_marked h hm⟩
    · rw [if_neg (by rw [hinfo]; exact hm)] at hstep
      cases hstep
      exact ⟨_, _, _, sweepInv_free hsafe hK h (by simpa using hm) _ rfl⟩

theorem sweepInv_start (log : List (Word × Word)) {m : Mem} (hok : HeapOk g m bs)
    (hno : ∀ a, K a → ∀ b ∈ bs, ¬ Header b a) :
    SweepInv g K m log bs ⟨g.heap, 0, 0, m, log⟩ [] none bs :=
  ⟨rfl, hok.linked, by simpa using hok.fill, rfl, by simp, rfl, by simp, fun _ _ => rfl,
    by simpa using hno⟩

/-- The sweep visits each block once. -/
theorem sweep_total (hsafe : HeadersSafe e g) (hK : ∀ f m a, K a → e.finalizer f m a = m a)
    (h : SweepInv g K m₀ log bs s swept prev rest) {n : Nat} (hn : rest.length < n) :
    ∃ w, loop (sweepStep e) n s = .ok w := by
  obtain ⟨n, rfl⟩ : ∃ k, n = k + 1 := ⟨n - 1, by omega⟩
  induction rest generalizing s swept prev n with
  | nil =>
    have h0 : s.cur = 0 := h.after
    have hb : sweepStep e s = .ok (.done s) := by rw [sweepStep, if_pos h0]
    exact ⟨s, by simp only [loop, hb]⟩
  | cons c rest ih =>
    obtain ⟨h0, ⟨hcur, hinfo, -⟩, -⟩ := h.after
    rw [List.length_cons] at hn
    obtain ⟨n, rfl⟩ : ∃ k, n = k + 1 := ⟨n - 1, by omega⟩
    rcases hm : c.marked with - | -
    · obtain ⟨w, hw⟩ := ih (sweepInv_free hsafe hK h hm _ rfl) n (by omega)
      refine ⟨w, ?_⟩
      rw [loop, sweepStep, if_neg h0, if_neg (by rw [hinfo]; exact ne_true_of_eq_false hm)]
      exact hw
    · obtain ⟨w, hw⟩ := ih (sweepInv_marked h hm) n (by omega)
      refine ⟨w, ?_⟩
      rw [loop, sweepStep, if_neg h0, if_pos (by rw [hinfo]; exact hm), hcur]
      exact hw

/-- The sweep of a heap whose list is `bs`. -/
theorem sweep_run (hsafe : HeadersSafe e g) (hK : ∀ f m a, K a → e.finalizer f m a = m a)
    {m : Mem} (hok : HeapOk g m bs) (hno : ∀ a, K a → ∀ b ∈ bs, ¬ Header b a) {n : Nat} {w : Sweep}
    (hr : loop (sweepStep e) n ⟨g.heap, 0, 0, m, log⟩ = .ok w) :
    HeapOk g w.mem (sweepBlocks none bs) ∧ w.finalized = log ++ finalCalls bs ∧
      w.words_freed = BitVec.ofNat 64 (wordsFreed false bs) ∧ ∀ a, K a → w.mem a = m a := by
  have h0 := sweepInv_start log hok hno
  refine loop_inv (fun s => ∃ swept prev rest, SweepInv g K m log bs s swept prev rest)
    (fun w => HeapOk g w.mem (sweepBlocks none bs) ∧ w.finalized = log ++ finalCalls bs ∧
      w.words_freed = BitVec.ofNat 64 (wordsFreed false bs) ∧ ∀ a, K a → w.mem a = m a)
    ?_ ?_ ⟨_, _, _, h0⟩ hr
  · rintro s s' ⟨swept, prev, rest, h⟩ hstep
    exact sweepInv_step hsafe hK h hstep
  · rintro s r ⟨swept, prev, rest, h⟩ hstep
    cases rest with
    | nil =>
      have h0 : s.cur = 0 := h.after
      rw [sweepStep, if_pos h0] at hstep
      cases hstep
      have hres : swept ++ prev.toList ++ [] = sweepBlocks none bs := by
        rw [List.append_nil, ← h.result]
        rfl
      refine ⟨⟨hok.initialized, hok.aligned, hok.nonnull, hres ▸ h.linked, hres ▸ h.fill⟩, ?_, ?_,
        h.kept⟩
      · simpa [finalCalls] using h.calls
      · simpa [wordsFreed] using h.freed
    | cons c rest =>
      have h0 : s.cur ≠ 0 := h.after.1
      rw [sweepStep, if_neg h0] at hstep
      split at hstep <;> cases hstep

end

end Cs720.Alloc
