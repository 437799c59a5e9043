import Cs720.Threads.Queue

/-! # The life of a queue on the heap

Between `init_queue` and `destroy_queue` a queue has its nodes for itself, and leaves nothing behind.
-/

namespace Cs720.Threads.Queues

open Cs720.Lib

/-! ## The functions -/

def iterator (Q : Ptr) : M Ptr := do
  let queue ← readQueue Q
  return queue.front

/-- The data, and what `*I` points to then. -/
def next (I : Ptr) : M (Ptr × Ptr) := do
  if I = NULL then return (NULL, NULL)
  else
    let item ← readItem I
    return (item.data, item.next)

/-- The body of the loop in `destroy_queue`. -/
def destroyItem (Q : Ptr) (h : Heap) : C (Lib.Flow Heap Heap) := do
  let (queue, _) ← readQueue Q h
  if queue.front = NULL then return .done h
  else
    let (item, _) ← readItem queue.front h
    return .next ((h.setQueue Q { queue with front := item.next }).setItem queue.front none)

def freeQueue (Q : Ptr) : M Unit :=
  modify fun h => { h with queue := Function.update h.queue Q none }

def destroyItems (n : Nat) (Q : Ptr) : M Unit := fun h => do
  let h ← loop (destroyItem Q) n h
  return ((), h)

def destroy_queue (n : Nat) (Q : Ptr) : M Unit := do
  if Q = NULL then return ()
  else
    destroyItems n Q
    freeQueue Q

/-- The body of a loop that calls `next` until it gives NULL. -/
def visit (h : Heap) (s : Ptr × List Ptr) : C (Lib.Flow (Ptr × List Ptr) (List Ptr)) := do
  let ((data, I), _) ← next s.1 h
  if data = NULL then return .done s.2 else return .next (I, s.2 ++ [data])

/-- What the iterator comes to. -/
def elements (n : Nat) (Q : Ptr) : M (List Ptr) := do
  let I ← iterator Q
  fun h => do return (← loop (visit h) n (I, []), h)

/-! ## What belongs to the queue -/

/-- The queue at `Q` has its nodes, which have been allocated since `h₀`, and nothing else is other
than it was then. -/
structure Owns (h₀ h : Heap) (Q : Ptr) (ns : List (Ptr × Ptr)) (front : Ptr) : Prop
    extends Rep h Q ns front where
  mine : ∀ a ∈ ns.map Prod.fst, h₀.item a = none
  rest : ∀ a, a ∉ ns.map Prod.fst → h.item a = h₀.item a
  others : ∀ Q', Q' ≠ Q → h.queue Q' = h₀.queue Q'

/-- Only the queue at `Q` and nodes in `as` change. -/
structure Only (h h' : Heap) (Q : Ptr) (as : List Ptr) : Prop where
  item : ∀ a, a ∉ as → h'.item a = h.item a
  queue : ∀ Q', Q' ≠ Q → h'.queue Q' = h.queue Q'

section
variable {h₀ h h' : Heap} {Q front data item a b p prev : Ptr} {ns us xs ys : List (Ptr × Ptr)}
  {as : List Ptr} {n : Nat} {r : Int}

theorem only_refl : Only h h Q as := ⟨fun _ _ => rfl, fun _ _ => rfl⟩

theorem Only.setItem {o : Option Item} (ho : Only h h' Q as) (ha : a ∈ as) :
    Only h (h'.setItem a o) Q as := by
  refine ⟨fun c hc => ?_, ho.queue⟩
  have hca : c ≠ a := by
    rintro rfl
    exact hc ha
  exact (Function.update_of_ne hca _ _).trans (ho.item c hc)

theorem Only.setQueue {queue : Queue} (ho : Only h h' Q as) : Only h (h'.setQueue Q queue) Q as :=
  ⟨ho.item, fun Q' hQ' => (Function.update_of_ne hQ' _ _).trans (ho.queue Q' hQ')⟩

theorem Rep.push_only (hr : Rep h Q ns front) (hnull : item ≠ NULL) (hfresh : h.item item = none)
    (hp : queue_push Q data item h = .ok ((), h')) : Only h h' Q (item :: ns.map Prod.fst) := by
  have hitem : item ∈ item :: ns.map Prod.fst := List.mem_cons_self
  have hq := hr.queue
  rcases List.eq_nil_or_concat ns with rfl | ⟨ms, ⟨a, b⟩, rfl⟩
  · rw [push_empty hq hnull] at hp
    cases hp
    exact (only_refl.setItem hitem).setQueue
  · rw [List.concat_eq_append] at *
    rw [lastAddr_concat] at hq
    obtain ⟨ha, it, hit, -⟩ := linked_mem hr.nodes (by simp : (a, b) ∈ ms ++ [(a, b)])
    have hne : a ≠ item := by
      rintro rfl
      exact hr.fresh hfresh (by simp)
    rw [push_back hq ha hit hnull hne] at hp
    cases hp
    exact ((only_refl.setItem hitem).setItem (by simp)).setQueue

theorem takeOut_only (ht : takeOut Q prev a h = .ok ((), h')) (hprev : prev ∈ as) (ha : a ∈ as) :
    Only h h' Q as ∧ h'.item a = none := by
  unfold takeOut at ht
  rw [run_bind, bind_ok] at ht
  obtain ⟨⟨queue, h₁⟩, hq, ht⟩ := ht
  obtain rfl : h = h₁ := by
    unfold readQueue at hq
    split at hq <;> cases hq
    rfl
  rw [run_bind, bind_ok] at ht
  obtain ⟨⟨it, h₂⟩, hit, ht⟩ := ht
  obtain rfl : h = h₂ := by
    unfold readItem at hit
    split at hit <;> cases hit
    rfl
  dsimp only at ht
  rw [run_ite] at ht
  split at ht
  · cases ht
    exact ⟨only_refl.setQueue.setItem ha, Function.update_self ..⟩
  · rw [run_bind, bind_ok] at ht
    obtain ⟨⟨⟨⟩, h₃⟩, hset, ht⟩ := ht
    unfold setNext at hset
    rw [run_bind, bind_ok] at hset
    obtain ⟨⟨pit, h₄⟩, hpit, hset⟩ := hset
    unfold readItem at hpit
    split at hpit <;> cases hpit
    cases hset
    cases ht
    exact ⟨(only_refl.setItem hprev).setItem ha, Function.update_self ..⟩

/-- `queue_remove` changes nothing, or takes one node out. -/
theorem remove_only (hl : Linked NULL Item.data Item.next h.item p us NULL)
    (hprev : us ≠ [] → prev ∈ as) (hus : us.map Prod.fst ⊆ as)
    (hloop : loop (removeItem h Q data) n (prev, p) = .ok (r, h')) :
    r = 1 ∧ h' = h ∨ Only h h' Q as ∧ ∃ a ∈ as, h'.item a = none := by
  induction us generalizing n prev p with
  | nil =>
    obtain rfl : p = NULL := hl
    have hr : (r, h') = (1, h) := loop_of_done (remove_null h prev) hloop
    cases hr
    exact .inl ⟨rfl, rfl⟩
  | cons u us ih =>
    obtain ⟨rfl, hp, it, hit, hd, hl⟩ := hl
    rw [List.map_cons] at hus
    have hmem : u.1 ∈ as := hus List.mem_cons_self
    by_cases hdata : it.data = data
    · cases n with
      | zero => cases hloop
      | succ n =>
        right
        have hbody : removeItem h Q data (prev, u.1) =
            takeOut Q prev u.1 h >>= fun r => .ok (.done (0, r.2)) := by
          unfold removeItem
          rw [if_neg hp, run_readItem hit, ok_bind]
          exact if_pos hdata
        simp only [loop, hbody] at hloop
        cases htake : takeOut Q prev u.1 h with
        | error e =>
          rw [htake] at hloop
          cases hloop
        | ok t =>
          obtain ⟨⟨⟩, h₁⟩ := t
          rw [htake] at hloop
          cases hloop
          obtain ⟨honly, hnone⟩ := takeOut_only htake (hprev (by simp)) hmem
          exact ⟨honly, u.1, hmem, hnone⟩
    · obtain ⟨k, -, hloop⟩ := loop_of_next (remove_other hp hit hdata) hloop
      exact ih hl (fun _ => hmem) (fun c hc => hus (List.mem_cons_of_mem _ hc)) hloop

/-! ## One call -/

variable {ms : List (Ptr × Ptr)} {front' : Ptr}

theorem owns_init (hQ : Q ≠ NULL) : Owns h₀ (h₀.setQueue Q ⟨NULL, NULL⟩) Q [] NULL :=
  ⟨⟨hQ, Function.update_self _ _ _, rfl⟩, by simp, fun _ _ => rfl,
    fun _ hQ' => Function.update_of_ne hQ' _ _⟩

theorem Owns.to (ho : Owns h₀ h Q ns front) (hr : Rep h' Q ms front') (honly : Only h h' Q as)
    (hns : ns.map Prod.fst ⊆ as) (hmine : ∀ a ∈ as, h₀.item a = none) (hms : ms.map Prod.fst ⊆ as)
    (hgone : ∀ a ∈ as, a ∉ ms.map Prod.fst → h'.item a = none) : Owns h₀ h' Q ms front' := by
  refine ⟨hr, fun a ha => hmine a (hms ha), rest_of_change ho.rest hns hmine honly.item hgone,
    fun Q' hQ' => ?_⟩
  rw [honly.queue Q' hQ', ho.others Q' hQ']

theorem Owns.push (ho : Owns h₀ h Q ns front) (hnull : item ≠ NULL) (hfresh : h.item item = none) :
    ∃ h' front', queue_push Q data item h = .ok ((), h') ∧
      Owns h₀ h' Q (ns ++ [(item, data)]) front' := by
  obtain ⟨h', front', hpush, hr⟩ : ∃ h' front', queue_push Q data item h = .ok ((), h') ∧
      Rep h' Q (ns ++ [(item, data)]) front' := ho.toRep.push hnull hfresh
  refine ⟨h', front', hpush, ho.to hr (ho.toRep.push_only hnull hfresh hpush) ?_ ?_ ?_ ?_⟩
  · exact List.subset_cons_self _ _
  · rw [List.forall_mem_cons]
    exact ⟨(ho.rest item (ho.toRep.fresh hfresh)).symm.trans hfresh, ho.mine⟩
  · simp
  · intro a ha hna
    simp at ha hna
    tauto

theorem Owns.pop (ho : Owns h₀ h Q ((a, b) :: ns) front) :
    ∃ h' front', queue_pop Q h = .ok (b, h') ∧ Owns h₀ h' Q ns front' := by
  obtain ⟨h', front', hpop, hr⟩ := ho.toRep.pop
  refine ⟨h', front', hpop, ?_⟩
  obtain ⟨rfl, ha, it, hit, -, -⟩ := ho.nodes
  have hpop' := pop_front ho.queue ha hit
  rw [hpop] at hpop'
  cases hpop'
  have hmem : front ∈ front :: ns.map Prod.fst := List.mem_cons_self
  refine ho.to hr (only_refl.setQueue.setItem hmem) (List.Subset.refl _) ho.mine
    (List.subset_cons_self _ _) ?_
  intro c hc hnot
  obtain rfl : c = front := (List.mem_cons.mp hc).resolve_right hnot
  exact Function.update_self ..

/-- A node that has another one behind it is taken out. -/
theorem Owns.remove (ho : Owns h₀ h Q (us ++ (a, data) :: xs) front) (hd : data ≠ NULL)
    (hus : data ∉ us.map Prod.snd) (hn : us.length < n) (hxs : xs ≠ []) :
    ∃ h' front', queue_remove n Q data h = .ok (0, h') ∧ Owns h₀ h' Q (us ++ xs) front' := by
  obtain ⟨h', front', hrun, hq, hl⟩ := ho.toRep.remove hd hus hn
  have hback : lastAddr NULL (us ++ (a, data) :: xs) = lastAddr NULL (us ++ xs) := by
    rw [← List.singleton_append, ← List.append_assoc, lastAddr_append hxs, lastAddr_append hxs]
  have hr : Rep h' Q (us ++ xs) front' := ⟨ho.notNull, hback ▸ hq, hl⟩
  refine ⟨h', front', hrun, ?_⟩
  rw [ho.toRep.remove_start hd (by simp)] at hrun
  have hfront := linked_head_mem ho.nodes (by simp)
  rcases remove_only ho.nodes (fun _ => hfront) (List.Subset.refl _) hrun with ⟨hr0, -⟩ | ⟨honly, hgone⟩
  · cases hr0
  · obtain ⟨c, hc, hnone⟩ := hgone
    have hsub : (us ++ xs).map Prod.fst ⊆ (us ++ (a, data) :: xs).map Prod.fst := by
      intro d hd
      simp at hd ⊢
      tauto
    have hmiss : ∀ d ∈ (us ++ (a, data) :: xs).map Prod.fst, d ∉ (us ++ xs).map Prod.fst → d = a := by
      intro d hd hnd
      simp at hd hnd
      tauto
    have hca : c = a := hmiss c hc fun hmem => (linked_mem_fst hl hmem).2 hnone
    refine ho.to hr honly (List.Subset.refl _) ho.mine hsub ?_
    intro d hd hnd
    rw [hmiss d hd hnd, ← hca, hnone]

/-! ## `destroy_queue` -/

theorem destroy_items (hq : h.queue Q = some ⟨front, b⟩)
    (hl : Linked NULL Item.data Item.next h.item front ns NULL) (hn : ns.length < n) :
    loop (destroyItem Q) n h = .ok ⟨freed h.item (ns.map Prod.fst),
      Function.update h.queue Q (some ⟨NULL, b⟩)⟩ := by
  induction ns generalizing n h front with
  | nil =>
    obtain ⟨k, rfl⟩ : ∃ k, n = k + 1 := ⟨n - 1, by simp at hn; omega⟩
    obtain rfl : front = NULL := hl
    have hbody : destroyItem Q h = .ok (.done h) := by
      unfold destroyItem
      rw [run_readQueue hq]
      rfl
    simp only [loop, hbody]
    rw [← hq, Function.update_eq_self]
    rfl
  | cons x ns ih =>
    obtain ⟨k, rfl⟩ : ∃ k, n = k + 1 := ⟨n - 1, by simp at hn; omega⟩
    have hnd := linked_nodup hl
    rw [List.map_cons, List.nodup_cons] at hnd
    obtain ⟨rfl, hx, it, hit, -, hl⟩ := hl
    have hbody : destroyItem Q h =
        .ok (.next ((h.setQueue Q ⟨it.next, b⟩).setItem x.1 none)) := by
      unfold destroyItem
      rw [run_readQueue hq, ok_bind]
      dsimp only
      rw [if_neg hx, run_readItem hit]
      rfl
    rw [List.length_cons] at hn
    have hfront : ((h.setQueue Q ⟨it.next, b⟩).setItem x.1 none).queue Q = some ⟨it.next, b⟩ :=
      Function.update_self ..
    have hrest := ih (n := k) hfront (linked_update hnd.1 hl) (by omega)
    simp only [loop, hbody, hrest, Heap.setItem_item, Heap.setQueue_item, Heap.setItem_queue,
      Heap.setQueue_queue, Function.update_idem, freed_cons, List.map_cons]

/-- Nothing is left of the queue, and all else is as it was. -/
theorem Owns.destroy (ho : Owns h₀ h Q ns front) (hQ : h₀.queue Q = none) (hn : ns.length < n) :
    destroy_queue n Q h = .ok ((), h₀) := by
  have hitems : destroyItems n Q h = .ok ((), ⟨h₀.item,
      Function.update h.queue Q (some ⟨NULL, lastAddr NULL ns⟩)⟩) := by
    unfold destroyItems
    rw [destroy_items ho.queue ho.nodes hn, freed_eq ho.mine ho.rest]
    rfl
  have hqueue : Function.update h.queue Q none = h₀.queue := by
    funext Q'
    by_cases hQ' : Q' = Q
    · rw [hQ', Function.update_self, hQ]
    · rw [Function.update_of_ne hQ', ho.others Q' hQ']
  unfold destroy_queue
  rw [run_ite, if_neg ho.notNull, run_bind, hitems, ok_bind]
  change Except.ok ((), (⟨h₀.item, _⟩ : Heap)) = _
  rw [Function.update_idem, hqueue]

/-! ## The iterator -/

theorem visit_nodes (hl : Linked NULL Item.data Item.next h.item p ns NULL)
    (hnull : NULL ∉ ns.map Prod.snd) (hn : ns.length < n) (ds : List Ptr) :
    loop (visit h) n (p, ds) = .ok (ds ++ ns.map Prod.snd) := by
  induction ns generalizing n p ds with
  | nil =>
    obtain ⟨k, rfl⟩ : ∃ k, n = k + 1 := ⟨n - 1, by simp at hn; omega⟩
    obtain rfl : p = NULL := hl
    have hbody : visit h (NULL, ds) = .ok (.done ds) := rfl
    simp only [loop, hbody, List.map_nil, List.append_nil]
  | cons x ns ih =>
    obtain ⟨k, rfl⟩ : ∃ k, n = k + 1 := ⟨n - 1, by simp at hn; omega⟩
    obtain ⟨rfl, hx, it, hit, hdata, hl⟩ := hl
    rw [List.map_cons, List.mem_cons, not_or] at hnull
    rw [List.length_cons] at hn
    have hne : it.data ≠ NULL := by
      rw [hdata]
      exact Ne.symm hnull.1
    have hbody : visit h (x.1, ds) = .ok (.next (it.next, ds ++ [it.data])) := by
      unfold visit next
      rw [run_ite, if_neg hx, run_bind, run_readItem hit]
      exact if_neg hne
    simp only [loop, hbody]
    rw [ih hl hnull.2 (by omega), hdata, List.append_assoc]
    rfl

theorem Rep.elements (hr : Rep h Q ns front) (hnull : NULL ∉ ns.map Prod.snd) (hn : ns.length < n) :
    elements n Q h = .ok (ns.map Prod.snd, h) := by
  unfold Queues.elements iterator
  rw [run_bind, run_bind, run_readQueue hr.queue, ok_bind]
  change (loop (visit h) n (front, []) >>= _) = _
  rw [visit_nodes hr.nodes hnull hn]
  rfl

end

/-! ## Runs -/

/-- `malloc` has not failed, and the node that is taken out is not the last one. -/
def Sound (op : Op) (s : Heap × List Ptr) : Prop :=
  match op with
  | .push _ item => item ≠ NULL
  | .remove data _ => data ∈ s.2 → data ∈ s.2.dropLast
  | _ => True

/-- The queue at `Q` holds the list, in nodes of its own. -/
def OwnQueue (h₀ : Heap) (Q : Ptr) (s : Heap × List Ptr) : Prop :=
  ∃ ns front, Owns h₀ s.1 Q ns front ∧ ns.map Prod.snd = s.2 ∧ NULL ∉ s.2

section
variable {h₀ h h' : Heap} {Q : Ptr} {op : Op} {ops : List Op} {s : Heap × List Ptr} {r : Result}

theorem step_run (hrun : perform Q op s.1 = .ok (r, h')) :
    step Q op s = .ok (h', (fifo op s.2).2) := by
  unfold step
  rw [hrun]
  rfl

theorem own_step (hs : OwnQueue h₀ Q s) (ha : Allowed op s) (hsound : Sound op s) :
    ∃ s', step Q op s = .ok s' ∧ OwnQueue h₀ Q s' := by
  obtain ⟨ns, front, ho, hns, hnull⟩ := hs
  cases op with
  | push data item =>
    obtain ⟨hdata, hitem⟩ := ha
    obtain ⟨h', front', hpush, ho'⟩ : ∃ h' front', queue_push Q data item s.1 = .ok ((), h') ∧
        Owns h₀ h' Q (ns ++ [(item, data)]) front' := ho.push hsound (hitem.resolve_left hsound)
    refine ⟨_, step_run (perform_push hpush), _, front', ho', by simp [fifo, hns], ?_⟩
    simpa [fifo, hnull] using Ne.symm hdata
  | pop =>
    cases ns with
    | nil =>
      obtain rfl : front = NULL := ho.nodes
      refine ⟨_, step_run (perform_pop (pop_empty ho.queue)), [], NULL, ho, ?_, ?_⟩ <;>
        simp [fifo, ← hns]
    | cons x ns =>
      obtain ⟨h', front', hpop, ho'⟩ := ho.pop
      refine ⟨_, step_run (perform_pop hpop), ns, front', ho', ?_, fun hmem => hnull ?_⟩
      · simp [fifo, ← hns]
      · exact List.mem_of_mem_tail hmem
  | peek => exact ⟨_, step_run (perform_peek ho.toRep.peek), ns, front, ho, hns, hnull⟩
  | notEmpty => exact ⟨_, step_run (perform_notEmpty ho.toRep.notEmpty), ns, front, ho, hns, hnull⟩
  | remove data n =>
    obtain ⟨hd, hn⟩ := ha
    have hlen : ns.length < n := by
      rw [← List.length_map (f := Prod.snd), hns]
      exact hn
    by_cases hmem : data ∈ s.2
    · have hlast := hsound hmem
      obtain ⟨us', vs', hsplit, hus⟩ := List.eq_append_cons_of_mem hmem
      rw [hsplit, mem_dropLast hus] at hlast
      rw [hsplit] at hns
      obtain ⟨us, rest, rfl, rfl, hrest⟩ := List.map_eq_append_iff.mp hns
      obtain ⟨⟨a, d⟩, vs, rfl, rfl, rfl⟩ := List.map_eq_cons_iff.mp hrest
      rw [List.length_append] at hlen
      have hvs : vs ≠ [] := by simpa using hlast
      obtain ⟨h', front', hrun, ho'⟩ := ho.remove hd hus (by omega : us.length < n) hvs
      have hfifo : (fifo (.remove d n) s.2).2 = us.map Prod.snd ++ vs.map Prod.snd := by
        rw [hsplit, fifo_remove hus]
      refine ⟨_, step_run (perform_remove hrun), us ++ vs, front', ho', ?_, ?_⟩
      · rw [hfifo, List.map_append]
      · rw [hfifo]
        rw [hsplit] at hnull
        simp at hnull ⊢
        tauto
    · have hfifo : (fifo (.remove data n) s.2).2 = s.2 := congrArg Prod.snd (if_neg hmem)
      have hrun := perform_remove (ho.toRep.remove_absent hd (hns ▸ hmem) hlen)
      refine ⟨_, step_run hrun, ns, front, ho, ?_, ?_⟩ <;> rw [hfifo] <;> assumption

/-- From `init_queue` on a queue touches no block that was there before, the iterator gives its
elements in order, and `destroy_queue` leaves the heap as it was before `init_queue`. -/
theorem queue_life (hQ : h₀.queue Q = none) (hinit : init_queue Q h₀ = .ok (0, h))
    (hallowed : Along (step Q) Allowed ops (h, [])) (hsound : Along (step Q) Sound ops (h, [])) :
    ∃ s, playFrom (step Q) ops (h, []) = .ok s ∧
      (∀ Q', Q' ≠ Q → s.1.queue Q' = h₀.queue Q') ∧
      (∀ a, h₀.item a ≠ none → s.1.item a = h₀.item a) ∧
      ∀ n, s.2.length < n → elements n Q s.1 = .ok (s.2, s.1) ∧
        destroy_queue n Q s.1 = .ok ((), h₀) := by
  have hstart : OwnQueue h₀ Q (h, []) := by
    have hnull : Q ≠ NULL := by
      rintro rfl
      cases hinit
    unfold init_queue at hinit
    rw [run_ite, if_neg hnull] at hinit
    cases hinit
    exact ⟨[], NULL, owns_init hnull, rfl, List.not_mem_nil⟩
  obtain ⟨s, hrun, ns, front, ho, hns, hnull⟩ :=
    playFrom_along (fun op s hs h => own_step hs h.1 h.2) hstart (along_and hallowed hsound)
  refine ⟨s, hrun, ho.others, fun a ha => ho.rest a fun hmem => ha (ho.mine a hmem), ?_⟩
  intro n hn
  have hlen : ns.length < n := by
    rw [← List.length_map (f := Prod.snd), hns]
    exact hn
  refine ⟨?_, ho.destroy hQ hlen⟩
  rw [← hns] at hnull ⊢
  exact ho.toRep.elements hnull hlen

/-- Two elements, the first of which is taken out and the second iterated over. -/
theorem queue_life_two : ∃ h s, init_queue 1 noBlocks = .ok (0, h) ∧
    playFrom (step 1) [.push 5 100, .push 6 101, .remove 5 3] (h, []) = .ok s ∧ s.2 = [6] ∧
    elements 2 1 s.1 = .ok ([6], s.1) ∧ destroy_queue 2 1 s.1 = .ok ((), noBlocks) := by
  have hinit : init_queue 1 noBlocks = .ok (0, noBlocks.setQueue 1 ⟨NULL, NULL⟩) := rfl
  have hallowed : Along (step 1) Allowed [.push 5 100, .push 6 101, .remove 5 3]
      (noBlocks.setQueue 1 ⟨NULL, NULL⟩, []) := by
    refine ⟨⟨by decide, Or.inr rfl⟩, fun s₁ h₁ => ?_⟩
    cases h₁
    refine ⟨⟨by decide, Or.inr rfl⟩, fun s₂ h₂ => ?_⟩
    cases h₂
    exact ⟨⟨by decide, by decide⟩, fun _ _ => trivial⟩
  have hsound : Along (step 1) Sound [.push 5 100, .push 6 101, .remove 5 3]
      (noBlocks.setQueue 1 ⟨NULL, NULL⟩, []) := by
    refine ⟨(by decide : (100 : Ptr) ≠ NULL), fun s₁ h₁ => ?_⟩
    cases h₁
    refine ⟨(by decide : (101 : Ptr) ≠ NULL), fun s₂ h₂ => ?_⟩
    cases h₂
    exact ⟨fun _ => (by decide : (5 : Ptr) ∈ [5, 6].dropLast), fun _ _ => trivial⟩
  obtain ⟨s, hrun, -, -, hend⟩ := queue_life rfl hinit hallowed hsound
  have hlist : s.2 = [6] := by
    cases hrun
    rfl
  obtain ⟨helements, hdestroy⟩ := hend 2 (by rw [hlist]; decide)
  exact ⟨_, s, hinit, hrun, hlist, hlist ▸ helements, hdestroy⟩

end

end Cs720.Threads.Queues
