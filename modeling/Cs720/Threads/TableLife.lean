import Cs720.Threads.TableRuns

/-! # The life of a table on the heap

Between `init_table` and `destroy_table` a table has its handles for itself, and leaves nothing
behind.
-/

namespace Cs720.Threads.Tables

open Cs720.Lib

/-! ## The functions -/

def get_tcb (n : Nat) (table tcb : Ptr) : M Ptr := do
  if table = NULL ∨ tcb = NULL then return NULL
  else
    let c ← deref Heap.tcb tcb
    if c.handle = NULL then return NULL
    else
      let e ← deref Heap.handle c.handle
      get_tcb_by_id n table e.id

/-- The TCB at `tcb` has no handle any more, if there is one. -/
def dropHandle (tcb : Ptr) : M Unit := do
  if tcb = NULL then return ()
  else
    let c ← deref Heap.tcb tcb
    writeTcb tcb { c with handle := NULL }

/-- The body of the loop in `destroy_table`. -/
def destroyHandle (table : Ptr) (h : Heap) : C (Lib.Flow Heap Heap) := do
  let (t, _) ← deref Heap.table table h
  if t.head = NULL then return .done h
  else
    let (e, _) ← deref Heap.handle t.head h
    let (_, h) ← dropHandle e.tcb h
    return .next ((h.setHandle t.head none).setTable table { t with head := e.next })

def destroyHandles (n : Nat) (table : Ptr) : M Unit := fun h => do
  let h ← loop (destroyHandle table) n h
  return ((), h)

def freeTable (table : Ptr) : M Unit :=
  modify fun h => { h with table := Function.update h.table table none }

def destroy_table (n : Nat) (table : Ptr) : M Int := do
  if table = NULL then return -1
  else
    destroyHandles n table
    freeTable table
    return 0

/-! ## What belongs to the table -/

/-- The handles of the table at `T` have been allocated since `h₀`, and no other handle and no other
table is other than it was then. -/
structure Owns (h₀ h : Heap) (T : Ptr) (ns : List Node) : Prop where
  mine : ∀ a ∈ ns.map Prod.fst, h₀.handle a = none
  rest : ∀ a, a ∉ ns.map Prod.fst → h.handle a = h₀.handle a
  others : ∀ T', T' ≠ T → h.table T' = h₀.table T'

/-- Only the table at `T` and the handles in `as` change. -/
structure Only (h h' : Heap) (T : Ptr) (as : List Ptr) : Prop where
  handle : ∀ a, a ∉ as → h'.handle a = h.handle a
  table : ∀ T', T' ≠ T → h'.table T' = h.table T'

section
variable {h₀ h h' : Heap} {T tcb handle a prev ptr : Ptr} {id : Id} {t : Table} {c : Tcb}
  {e : Handle} {ns ms xs ys : List Node} {as : List Ptr} {n : Nat} {r : Int}

theorem owns_init : Owns h₀ (h₀.setTable T t) T [] :=
  ⟨by simp, fun _ _ => rfl, fun _ hT' => Function.update_of_ne hT' _ _⟩

theorem Owns.to (ho : Owns h₀ h T ns) (honly : Only h h' T as) (hns : ns.map Prod.fst ⊆ as)
    (hmine : ∀ a ∈ as, h₀.handle a = none) (hms : ms.map Prod.fst ⊆ as)
    (hgone : ∀ a ∈ as, a ∉ ms.map Prod.fst → h'.handle a = none) : Owns h₀ h' T ms := by
  refine ⟨fun a ha => hmine a (hms ha), rest_of_change ho.rest hns hmine honly.handle hgone,
    fun T' hT' => ?_⟩
  rw [honly.table T' hT', ho.others T' hT']

theorem Holds.pop_only (hh : Holds h T t ((a, id, tcb) :: ns))
    (hrun : pop_tcb T h = .ok (ptr, h')) :
    Only h h' T (((a, id, tcb) :: ns).map Prod.fst) ∧ h'.handle a = none := by
  obtain ⟨hhead, ha, e, he, hmember, -⟩ := hh.nodes
  obtain ⟨rfl, rfl⟩ := Prod.mk.inj hmember
  obtain ⟨c, hc, -⟩ := hh.handles _ List.mem_cons_self
  subst hhead
  rw [pop_ok hh.notNull hh.table ha he hc] at hrun
  cases hrun
  exact ⟨⟨fun b hb => Function.update_of_ne (List.ne_of_not_mem_cons hb) _ _,
    fun T' hT' => Function.update_of_ne hT' _ _⟩, Function.update_self ..⟩

/-- `remove_tcb` changes the node that it frees and the one before it. -/
theorem unlink_only (hrun : unlinkNode T tcb prev ptr t c e h = .ok (r, h')) (hptr : ptr ∈ as)
    (hprev : prev ≠ NULL → prev ∈ as) : Only h h' T as ∧ h'.handle ptr = none := by
  by_cases hnull : prev = NULL
  · subst hnull
    rw [unlink_first] at hrun
    cases hrun
    refine ⟨⟨fun a ha => ?_, fun T' hT' => Function.update_of_ne hT' _ _⟩, Function.update_self ..⟩
    have hne : a ≠ ptr := by
      rintro rfl
      exact ha hptr
    exact Function.update_of_ne hne _ _
  · obtain ⟨d, hd⟩ : ∃ d, h.handle prev = some d := by
      by_contra hnone
      have hnone' : h.handle prev = none := Option.eq_none_iff_forall_ne_some.mpr
        fun d hd => hnone ⟨d, hd⟩
      unfold unlinkNode setNext at hrun
      rw [run_bind, run_writeTcb, ok_bind, run_ite, if_neg hnull] at hrun
      simp [deref, hnone'] at hrun
    rw [unlink_inner hnull hd] at hrun
    cases hrun
    refine ⟨⟨fun a ha => ?_, fun T' hT' => Function.update_of_ne hT' _ _⟩, Function.update_self ..⟩
    have hne : a ≠ ptr := by
      rintro rfl
      exact ha hptr
    have hne' : a ≠ prev := by
      rintro rfl
      exact ha (hprev hnull)
    exact (Function.update_of_ne hne _ _).trans (Function.update_of_ne hne' _ _)

theorem Holds.remove_only (hh : Holds h T t (xs ++ (a, id, tcb) :: ys)) (htcb : tcb ≠ NULL)
    (hn : (xs ++ (a, id, tcb) :: ys).length < n) (hrun : remove_tcb n T tcb h = .ok (r, h')) :
    Only h h' T ((xs ++ (a, id, tcb) :: ys).map Prod.fst) ∧ h'.handle a = none := by
  obtain ⟨c, hc, rfl⟩ := hh.handles (a, id, tcb) (by simp)
  obtain ⟨htake, hdrop⟩ := takeWhile_above hh.sorted
  obtain ⟨q, hwalk, -, hrest⟩ := run_walk id hh.nodes hn
  rw [htake] at hwalk
  rw [hdrop] at hrest
  obtain ⟨rfl, hq, e, he, hmember, -⟩ := hrest
  obtain ⟨rfl, rfl⟩ := Prod.mk.inj hmember
  rw [remove_found hh.notNull htcb hc hq he hh.table hwalk] at hrun
  refine unlink_only hrun (by simp) fun hprev => ?_
  have hxs : xs ≠ [] := by
    rintro rfl
    exact hprev rfl
  rw [List.map_append]
  exact List.mem_append_left _ (lastAddr_mem hxs)

end

/-! ## One call -/

/-- The table at `T` is right and owns its handles. -/
def Owned (h₀ : Heap) (T : Ptr) (w : World) : Prop :=
  w.members.length < 2 ^ 31 ∧ ∃ t ns, Inv T w t ns ∧ Owns h₀ w.heap T ns

section
variable {h₀ h h' : Heap} {T tcb handle : Ptr} {w w' : World} {t : Table} {ns : List Node} {op : Op}
  {ops : List Op} {n : Nat} {r : Int}

theorem step_put (hrun : put_tcb T tcb handle w.heap = .ok (0, h')) :
    step T (.put tcb handle) w = .ok (w.enter h' tcb) := by
  unfold Tables.step
  dsimp only
  rw [hrun, ok_bind]
  rfl

theorem step_remove (hrun : remove_tcb n T tcb w.heap = .ok (0, h')) :
    step T (.remove tcb n) w = .ok (w.leave h' tcb) := by
  unfold Tables.step
  dsimp only
  rw [hrun, ok_bind]
  rfl

theorem step_pop (hrun : pop_tcb T w.heap = .ok (tcb, h')) :
    step T .pop w = .ok (w.leave h' tcb) := by
  unfold Tables.step
  dsimp only
  rw [hrun, ok_bind]
  rfl

/-- A call that gives an error code leaves all as it is. -/
theorem step_put_null : step T (.put NULL handle) w = .ok w := by
  unfold Tables.step put_tcb
  dsimp only
  rw [run_ite, if_pos (Or.inr rfl)]
  rfl

theorem step_remove_null : step T (.remove NULL n) w = .ok w := by
  unfold Tables.step remove_tcb
  dsimp only
  rw [run_ite, if_pos (Or.inr rfl)]
  rfl

theorem step_remove_free (hi : Inv T w t ns) (hnull : tcb ≠ NULL) (hfree : w.Free tcb) :
    step T (.remove tcb n) w = .ok w := by
  obtain ⟨-, c, hc, hnone⟩ := hfree
  unfold Tables.step
  dsimp only
  rw [remove_no_handle hi.holds.notNull hnull hc hnone, ok_bind]
  rfl

theorem step_put_fail (hT : T ≠ NULL) (hnull : tcb ≠ NULL) :
    step T (.put tcb NULL) w = .error (.exit (-1)) := by
  unfold Tables.step put_tcb
  dsimp only
  rw [run_ite, if_neg (by simp [hT, hnull]), run_ite, if_pos rfl]
  rfl

theorem owns_put (hi : Inv T w t ns) (ho : Owns h₀ w.heap T ns) (ha : Allowed (.put tcb handle) w)
    (hr : Room (.put tcb handle) w) (hstep : step T (.put tcb handle) w = .ok w') :
    ∃ t' ns', Inv T w' t' ns' ∧ Owns h₀ w'.heap T ns' := by
  obtain ⟨htcb, hhandle⟩ := ha
  by_cases hnull : tcb = NULL
  · subst hnull
    rw [step_put_null] at hstep
    cases hstep
    exact ⟨t, ns, hi, ho⟩
  by_cases hmalloc : handle = NULL
  · subst hmalloc
    rw [step_put_fail hi.holds.notNull hnull] at hstep
    cases hstep
  have hfree := htcb.resolve_left hnull
  have hfresh := hhandle.resolve_left hmalloc
  obtain ⟨w₁, t', hstep₁, hi', -, -, -, hhandles⟩ := hi.put hnull hmalloc hfresh hfree hr.1
  have honly : Only w.heap w₁.heap T (handle :: ns.map Prod.fst) := by
    obtain ⟨-, c, hc, hnone⟩ := hfree
    have hput := step_put (put_ok hi.holds.notNull hnull hmalloc hi.holds.table hc hnone)
    rw [hstep₁] at hput
    refine ⟨fun a ha => hhandles a (List.ne_of_not_mem_cons ha), fun T' hT' => ?_⟩
    cases hput
    exact Function.update_of_ne hT' _ _
  rw [hstep₁] at hstep
  cases hstep
  have hnot : handle ∉ ns.map Prod.fst := fun hmem => (linked_mem_fst hi.holds.nodes hmem).2 hfresh
  refine ⟨t', _, hi', ho.to honly (List.subset_cons_self _ _) ?_ (List.Subset.refl _) ?_⟩
  · rw [List.forall_mem_cons]
    exact ⟨(ho.rest handle hnot).symm.trans hfresh, ho.mine⟩
  · exact fun a ha hnot => absurd ha hnot

theorem owns_pop (hi : Inv T w t ns) (ho : Owns h₀ w.heap T ns) (hstep : step T .pop w = .ok w') :
    ∃ t' ns', Inv T w' t' ns' ∧ Owns h₀ w'.heap T ns' := by
  cases ns with
  | nil =>
    have hmembers : w.members = [] := hi.members.symm
    have hleave : w.leave w.heap NULL = w := by
      unfold World.leave
      rw [hmembers, List.eraseP_nil, ← hmembers]
    rw [step_pop (pop_empty hi.holds), hleave] at hstep
    cases hstep
    exact ⟨t, [], hi, ho⟩
  | cons x ns =>
    obtain ⟨a, id, tcb⟩ := x
    obtain ⟨h', t', hrun, hh, hmax, -⟩ := hi.holds.pop
    rw [step_pop hrun] at hstep
    cases hstep
    obtain ⟨honly, hgone⟩ := hi.holds.pop_only hrun
    refine ⟨t', ns, Inv.leave [] hi hh hmax, ho.to honly (List.Subset.refl _) ho.mine
      (List.subset_cons_self _ _) fun b hb hnot => ?_⟩
    obtain rfl : b = a := (List.mem_cons.mp hb).resolve_right hnot
    exact hgone

theorem owns_remove (hi : Inv T w t ns) (ho : Owns h₀ w.heap T ns) (ha : Allowed (.remove tcb n) w)
    (hstep : step T (.remove tcb n) w = .ok w') :
    ∃ t' ns', Inv T w' t' ns' ∧ Owns h₀ w'.heap T ns' := by
  obtain ⟨htcb, hn⟩ := ha
  by_cases hnull : tcb = NULL
  · subst hnull
    rw [step_remove_null] at hstep
    cases hstep
    exact ⟨t, ns, hi, ho⟩
  rcases htcb.resolve_left hnull with hmem | hfree
  · rw [hi.tcbs] at hmem
    obtain ⟨⟨a, id, _⟩, hx, rfl⟩ := List.mem_map.mp hmem
    obtain ⟨xs, ys, rfl⟩ := List.append_of_mem hx
    rw [hi.length] at hn
    obtain ⟨h', t', hrun, hh, hmax, -⟩ := hi.holds.remove hnull hn
    obtain ⟨honly, hgone⟩ := hi.holds.remove_only hnull hn hrun
    rw [step_remove hrun] at hstep
    cases hstep
    refine ⟨t', xs ++ ys, Inv.leave xs hi hh hmax, ho.to honly (List.Subset.refl _) ho.mine ?_ ?_⟩
    · exact List.map_subset _ (List.Sublist.append_left (List.sublist_cons_self _ _) xs).subset
    · intro b hb hnot
      rw [List.map_append, List.map_cons, List.mem_append, List.mem_cons] at hb
      rw [List.map_append, List.mem_append] at hnot
      obtain rfl : b = a := by tauto
      exact hgone
  · rw [step_remove_free hi hnull hfree] at hstep
    cases hstep
    exact ⟨t, ns, hi, ho⟩

theorem owned_step (ho : Owned h₀ T w) (ha : Allowed op w) (hr : Room op w) :
    step T op w = .error (.exit (-1)) ∨ ∃ w', step T op w = .ok w' ∧ Owned h₀ T w' := by
  obtain ⟨hsize, t, ns, hi, ho⟩ := ho
  have hput : op.adds = 1 → w.given.length + 1 < 2 ^ 64 ∧ w.members.length + 1 < 2 ^ 31 := by
    intro hadds
    cases op with
    | put => exact hr
    | _ => cases hadds
  rcases serves hi ha fun hadds => (hput hadds).1 with he | ⟨w', -, -, hstep, -, hlen⟩
  · exact Or.inl he
  · refine Or.inr ⟨w', hstep, ?_, ?_⟩
    · by_cases hadds : op.adds = 1
      · have hroom := (hput hadds).2
        omega
      · have hzero : op.adds = 0 := by
          cases op with
          | put => exact absurd rfl hadds
          | _ => rfl
        omega
    · cases op with
      | put tcb handle => exact owns_put hi ho ha hr hstep
      | remove tcb n => exact owns_remove hi ho ha hstep
      | pop => exact owns_pop hi ho hstep
      | caller tcb c =>
        have hnot : tcb ∉ ns.map (·.2.2) := hi.tcbs ▸ ha
        cases hstep
        exact ⟨t, ns, ⟨hi.holds.setTcb hnot c, hi.members, hi.count, hi.given, hi.past, hi.notNull⟩,
          ho.mine, ho.rest, ho.others⟩

end

/-! ## `get_tcb` -/

section
variable {h : Heap} {T tcb : Ptr} {w : World} {t : Table} {ns : List Node} {n : Nat}

theorem get_member (hi : Inv T w t ns) (hsize : w.members.length < 2 ^ 31)
    (hmem : tcb ∈ w.members.map Prod.snd) (hn : w.members.length < n) :
    get_tcb n T tcb w.heap = .ok (tcb, w.heap) := by
  rw [hi.tcbs] at hmem
  obtain ⟨⟨a, id, _⟩, hx, rfl⟩ := List.mem_map.mp hmem
  obtain ⟨c, hc, rfl⟩ := hi.holds.handles _ hx
  obtain ⟨ha, e, he, hmember⟩ := linked_mem hi.holds.nodes hx
  obtain ⟨rfl, rfl⟩ := Prod.mk.inj hmember
  have hmem' : e.member ∈ w.members := by
    rw [← hi.members]
    exact List.mem_map_of_mem hx
  have hfound : get_tcb_by_id n T e.id w.heap = .ok (e.tcb, w.heap) :=
    (hi.ok hsize).found _ hmem' n hn
  have hnull : e.tcb ≠ NULL := hi.notNull _ hx
  unfold get_tcb
  rw [run_ite, if_neg (by simp [hi.holds.notNull, hnull]), run_bind, run_deref hc, ok_bind, run_ite,
    if_neg ha, run_bind, run_deref he, ok_bind, hfound]

theorem get_free (hfree : w.Free tcb) : get_tcb n T tcb w.heap = .ok (NULL, w.heap) := by
  obtain ⟨-, c, hc, hnone⟩ := hfree
  unfold get_tcb
  rw [run_ite]
  split
  · rfl
  · rw [run_bind, run_deref hc, ok_bind, run_ite, if_pos hnone]
    rfl

/-! ## `destroy_table` -/

/-- The TCBs at these addresses have no handle any more. -/
def detached (f : Ptr → Option Tcb) (tcbs : List Ptr) (p : Ptr) : Option Tcb :=
  if p ∈ tcbs then (f p).map fun c => { c with handle := NULL } else f p

theorem detached_cons {f : Ptr → Option Tcb} {tcbs : List Ptr} {c : Tcb} (hc : f tcb = some c) :
    detached (Function.update f tcb (some { c with handle := NULL })) tcbs =
      detached f (tcb :: tcbs) := by
  funext p
  unfold detached
  by_cases hp : p = tcb
  · rw [hp, Function.update_self, hc, if_pos List.mem_cons_self]
    split <;> rfl
  · simp only [Function.update_of_ne hp, List.mem_cons, hp, false_or]

theorem destroyHandle_last (ht : h.table T = some t) (hhead : t.head = NULL) :
    destroyHandle T h = .ok (.done h) := by
  unfold destroyHandle
  rw [run_deref ht, ok_bind]
  exact if_pos hhead

theorem destroyHandle_next {e : Handle} {c : Tcb} (ht : h.table T = some t) (hhead : t.head ≠ NULL)
    (he : h.handle t.head = some e) (hnull : e.tcb ≠ NULL) (hc : h.tcb e.tcb = some c) :
    destroyHandle T h = .ok (.next (((h.setTcb e.tcb (some { c with handle := NULL })).setHandle
      t.head none).setTable T { t with head := e.next })) := by
  have hdrop : dropHandle e.tcb h =
      .ok ((), h.setTcb e.tcb (some { c with handle := NULL })) := by
    unfold dropHandle
    rw [run_ite, if_neg hnull, run_bind, run_deref hc]
    rfl
  unfold destroyHandle
  rw [run_deref ht, ok_bind]
  dsimp only
  rw [if_neg hhead, run_deref he, ok_bind]
  dsimp only
  rw [hdrop]
  rfl

theorem destroy_handles (ht : h.table T = some t) (hl : Nodes h t.head ns NULL)
    (hnull : ∀ x ∈ ns, x.2.2 ≠ NULL) (htcbs : ∀ x ∈ ns, h.tcb x.2.2 ≠ none) (hn : ns.length < n) :
    loop (destroyHandle T) n h = .ok ⟨freed h.handle (ns.map Prod.fst),
      detached h.tcb (ns.map (·.2.2)),
      Function.update h.table T (some { t with head := NULL })⟩ := by
  obtain ⟨n, rfl⟩ : ∃ k, n = k + 1 := ⟨n - 1, by omega⟩
  induction ns generalizing n h t with
  | nil =>
    have hhead : t.head = NULL := hl
    have htable : Function.update h.table T (some { t with head := NULL }) = h.table := by
      rw [← hhead, ← ht, Function.update_eq_self]
    simp only [loop, destroyHandle_last ht hhead]
    rw [htable]
    rfl
  | cons x ns ih =>
    obtain ⟨n, rfl⟩ : ∃ k, n = k + 1 := ⟨n - 1, by simp at hn; omega⟩
    have hnd := linked_nodup hl
    rw [List.map_cons, List.nodup_cons] at hnd
    obtain ⟨hx, hhead, e, he, hmember, hl⟩ := hl
    obtain ⟨a, m⟩ := x
    subst hx hmember
    rw [List.forall_mem_cons] at hnull htcbs
    obtain ⟨c, hc⟩ := Option.ne_none_iff_exists'.mp htcbs.1
    have htcb : ∀ y ∈ ns,
        Function.update h.tcb e.tcb (some { c with handle := NULL }) y.2.2 ≠ none := by
      intro y hy
      by_cases hey : y.2.2 = e.tcb
      · rw [hey, Function.update_self]
        exact Option.some_ne_none _
      · rw [Function.update_of_ne hey]
        exact htcbs.2 y hy
    rw [List.length_cons] at hn
    have htable : (((h.setTcb e.tcb (some { c with handle := NULL })).setHandle t.head
        none).setTable T { t with head := e.next }).table T = some { t with head := e.next } :=
      Function.update_self ..
    have hrest := ih htable (linked_update hnd.1 hl) hnull.2 htcb n (by omega)
    rw [loop, destroyHandle_next ht hhead he hnull.1 hc]
    dsimp only
    rw [hrest]
    simp only [Heap.setTable_handle, Heap.setHandle_handle, Heap.setTcb_handle, Heap.setTable_tcb,
      Heap.setHandle_tcb, Heap.setTcb_tcb, Heap.setTable_table, Heap.setHandle_table,
      Heap.setTcb_table, Function.update_idem, freed_cons, List.map_cons]
    have hcons : detached (Function.update h.tcb e.tcb (some { c with handle := NULL }))
        (ns.map (·.2.2)) = detached h.tcb (e.tcb :: ns.map (·.2.2)) := detached_cons hc
    rw [hcons]
    rfl

/-- Nothing is left of the table, and its TCBs have no handles. -/
theorem destroy_run {h₀ : Heap} (hi : Inv T w t ns) (ho : Owns h₀ w.heap T ns)
    (hT : h₀.table T = none) (hn : w.members.length < n) :
    destroy_table n T w.heap =
      .ok (0, ⟨h₀.handle, detached w.heap.tcb (w.members.map Prod.snd), h₀.table⟩) := by
  have htcbs : ∀ x ∈ ns, w.heap.tcb x.2.2 ≠ none := by
    intro x hx
    obtain ⟨c, hc, -⟩ := hi.holds.handles x hx
    rw [hc]
    exact Option.some_ne_none c
  have hhandles : destroyHandles n T w.heap = .ok ((), ⟨h₀.handle,
      detached w.heap.tcb (w.members.map Prod.snd),
      Function.update w.heap.table T (some { t with head := NULL })⟩) := by
    unfold destroyHandles
    rw [destroy_handles hi.holds.table hi.holds.nodes hi.notNull htcbs (hi.length ▸ hn),
      freed_eq ho.mine ho.rest, hi.tcbs]
    rfl
  have htable : Function.update w.heap.table T none = h₀.table := by
    funext T'
    by_cases hT' : T' = T
    · rw [hT', Function.update_self, hT]
    · rw [Function.update_of_ne hT', ho.others T' hT']
  unfold destroy_table
  rw [run_ite, if_neg hi.holds.notNull, run_bind, hhandles, ok_bind]
  change Except.ok ((0 : Int),
    Heap.mk h₀.handle _ (Function.update (Function.update _ _ _) _ _)) = _
  rw [Function.update_idem, htable]

end

/-! ## Runs -/

section
variable {h₀ h : Heap} {T : Ptr} {ops : List Op}

/-- From `init_table` on a table touches no handle that was there before, unless there is no memory
for a handle. `get_tcb` gives the threads that are in it, and `destroy_table` frees the table and
all its handles, nothing else, and leaves no handle in any of its TCBs. -/
theorem table_life (hT : h₀.table T = none) (hinit : init_table T h₀ = .ok (0, h))
    (hallowed : Along (step T) Allowed ops ⟨h, [], []⟩)
    (hroom : Along (step T) Room ops ⟨h, [], []⟩) :
    playFrom (step T) ops ⟨h, [], []⟩ = .error (.exit (-1)) ∨
      ∃ w, playFrom (step T) ops ⟨h, [], []⟩ = .ok w ∧
        (∀ T', T' ≠ T → w.heap.table T' = h₀.table T') ∧
        (∀ a, h₀.handle a ≠ none → w.heap.handle a = h₀.handle a) ∧
        ∀ n, w.members.length < n →
          (∀ tcb ∈ w.members.map Prod.snd, get_tcb n T tcb w.heap = .ok (tcb, w.heap)) ∧
          (∀ tcb, w.Free tcb → get_tcb n T tcb w.heap = .ok (NULL, w.heap)) ∧
          destroy_table n T w.heap =
            .ok (0, ⟨h₀.handle, detached w.heap.tcb (w.members.map Prod.snd), h₀.table⟩) := by
  have hnull : T ≠ NULL := by
    rintro rfl
    cases hinit
  rw [(holds_init hnull).1] at hinit
  obtain rfl : h₀.setTable T ⟨NULL, 0, 0⟩ = h := (Prod.mk.inj (Except.ok.inj hinit)).2
  have hstart : Owned h₀ T ⟨h₀.setTable T ⟨NULL, 0, 0⟩, [], []⟩ :=
    ⟨Nat.two_pow_pos 31, _, _, inv_init hnull, owns_init⟩
  rcases playFrom_stops (fun op w ho h => owned_step ho h.1 h.2) hstart
    (along_and hallowed hroom) with he | ⟨w, hw, hsize, t, ns, hi, ho⟩
  · exact Or.inl he
  · refine Or.inr ⟨w, hw, ho.others, fun a ha => ho.rest a fun hmem => ha (ho.mine a hmem), ?_⟩
    intro n hn
    exact ⟨fun tcb hmem => get_member hi hsize hmem hn, fun tcb hfree => get_free hfree,
      destroy_run hi ho hT hn⟩

/-- Two threads; the first is taken out, and the table is destroyed with the other in it. -/
theorem table_life_two : ∃ h w, init_table 1 freeTcbs = .ok (0, h) ∧
    playFrom (step 1) [.put 2 3, .put 4 5, .remove 2 3] ⟨h, [], []⟩ = .ok w ∧
    get_tcb 2 1 4 w.heap = .ok (4, w.heap) ∧ w.heap.tcb 4 = some ⟨1, 5⟩ ∧
    ∃ h', destroy_table 2 1 w.heap = .ok (0, h') ∧ h'.handle = freeTcbs.handle ∧
      h'.table = freeTcbs.table ∧ h'.tcb 4 = some ⟨1, NULL⟩ := by
  have hallowed : Along (step 1) Allowed [.put 2 3, .put 4 5, .remove 2 3]
      ⟨freeTcbs.setTable 1 ⟨NULL, 0, 0⟩, [], []⟩ := by
    refine ⟨⟨Or.inr ⟨by simp, _, rfl, rfl⟩, Or.inr rfl⟩, fun w₁ h₁ => ?_⟩
    cases h₁
    refine ⟨⟨Or.inr ⟨by decide, _, rfl, rfl⟩, Or.inr rfl⟩, fun w₂ h₂ => ?_⟩
    cases h₂
    exact ⟨⟨Or.inr (Or.inl (by decide)), by decide⟩, fun _ _ => trivial⟩
  have hroom : Along (step 1) Room [.put 2 3, .put 4 5, .remove 2 3]
      ⟨freeTcbs.setTable 1 ⟨NULL, 0, 0⟩, [], []⟩ := by
    refine ⟨⟨by decide, by decide⟩, fun w₁ h₁ => ?_⟩
    cases h₁
    exact ⟨⟨by decide, by decide⟩, fun _ _ => ⟨trivial, fun _ _ => trivial⟩⟩
  have hinit : init_table 1 freeTcbs = .ok (0, freeTcbs.setTable 1 ⟨NULL, 0, 0⟩) := rfl
  rcases table_life rfl hinit hallowed hroom with he | ⟨w, hw, -, -, hend⟩
  · cases he
  · have hmembers : w.members = [(1, 4)] := by
      cases hw
      rfl
    have htcb : w.heap.tcb 4 = some ⟨1, 5⟩ := by
      cases hw
      rfl
    obtain ⟨hget, -, hdestroy⟩ := hend 2 (by rw [hmembers]; decide)
    rw [hmembers] at hget hdestroy
    refine ⟨_, w, rfl, hw, hget 4 (by decide), htcb, _, hdestroy, rfl, rfl, ?_⟩
    change detached w.heap.tcb [4] 4 = some ⟨1, NULL⟩
    unfold detached
    rw [htcb]
    rfl

end

end Cs720.Threads.Tables
