import Cs720.Lib.Interleave
import Cs720.Lib.Linked
import Cs720.Lib.Run
import Cs720.Threads.Code

/-! # Queues on the heap (`A3/queue.c`)

The functions as they are, on the blocks that `malloc` has given. The rest of the model has a queue
as a list. The block that a call of `malloc` gives is an argument.
-/

namespace Cs720.Threads.Queues

open Cs720.Lib

abbrev NULL : Ptr := 0

/-- A `qitem_t`. -/
structure Item where
  data : Ptr
  next : Ptr
  deriving DecidableEq

structure Queue where
  front : Ptr
  back : Ptr
  deriving DecidableEq

/-- The blocks that are not freed. -/
structure Heap where
  item : Ptr → Option Item
  queue : Ptr → Option Queue

@[simps -fullyApplied]
def Heap.setItem (h : Heap) (p : Ptr) (item : Option Item) : Heap :=
  { h with item := Function.update h.item p item }

@[simps -fullyApplied]
def Heap.setQueue (h : Heap) (Q : Ptr) (queue : Queue) : Heap :=
  { h with queue := Function.update h.queue Q (some queue) }

abbrev M := StateT Heap C

def readQueue (Q : Ptr) : M Queue := fun h =>
  match h.queue Q with
  | some queue => .ok (queue, h)
  | none => .error .fault

def writeQueue (Q : Ptr) (queue : Queue) : M Unit := modify fun h => h.setQueue Q queue

def readItem (p : Ptr) : M Item := fun h =>
  match h.item p with
  | some item => .ok (item, h)
  | none => .error .fault

def writeItem (p : Ptr) (item : Option Item) : M Unit := modify fun h => h.setItem p item

/-- `p->next = next` -/
def setNext (p next : Ptr) : M Unit := do
  let item ← readItem p
  writeItem p (some { item with next })

/-- What `malloc` returns is used without a check. -/
def newItem (p : Ptr) (item : Item) : M Unit :=
  if p = NULL then fun _ => .error .fault else writeItem p (some item)

def free (p : Ptr) : M Unit := writeItem p none

/-! ## The functions -/

def init_queue (queue : Ptr) : M Int := do
  if queue = NULL then return 1
  else
    writeQueue queue ⟨NULL, NULL⟩
    return 0

def queue_not_empty (Q : Ptr) : M Int := do
  if Q = NULL then return 0
  else
    let queue ← readQueue Q
    return if queue.front ≠ NULL then 1 else 0

def queue_push (Q data item : Ptr) : M Unit := do
  newItem item ⟨data, NULL⟩
  let queue ← readQueue Q
  if queue.back ≠ NULL then
    setNext queue.back item
    writeQueue Q { queue with back := item }
  else writeQueue Q ⟨item, item⟩

-- The result is the node, not its data.
def queue_peek (Q : Ptr) : M Ptr := do
  if Q = NULL then return NULL
  else
    let queue ← readQueue Q
    if queue.front = NULL then return NULL else return queue.front

def queue_pop (Q : Ptr) : M Ptr := do
  let queue ← readQueue Q
  if queue.front = NULL then return NULL
  else
    let item ← readItem queue.front
    writeQueue Q ⟨item.next, if item.next = NULL then NULL else queue.back⟩
    free queue.front
    return item.data

/-- The node `p`, after `prev`, is taken out. The queue keeps its `back`. -/
def takeOut (Q prev p : Ptr) : M Unit := do
  let queue ← readQueue Q
  let item ← readItem p
  if p = queue.front then writeQueue Q { queue with front := item.next }
  else setNext prev item.next
  free p

/-- The body of the loop in `queue_remove`, from `prev` and `item`. -/
def removeItem (h : Heap) (Q data : Ptr) (s : Ptr × Ptr) : C (Lib.Flow (Ptr × Ptr) (Int × Heap)) :=
  if s.2 = NULL then .ok (.done (1, h))
  else do
    let (item, _) ← readItem s.2 h
    if item.data = data then
      let (_, h') ← takeOut Q s.1 s.2 h
      return .done (0, h')
    else return .next (s.2, item.next)

def queue_remove (n : Nat) (Q data : Ptr) : M Int := do
  if Q = NULL ∨ data = NULL then return 1
  else
    let queue ← readQueue Q
    if queue.front = NULL then return 1
    else fun h => loop (removeItem h Q data) n (queue.front, queue.front)

/-! ## The list that a queue holds -/

/-- The queue at `Q` has these nodes, with their data. -/
structure Rep (h : Heap) (Q : Ptr) (ns : List (Ptr × Ptr)) (front : Ptr) : Prop where
  notNull : Q ≠ NULL
  queue : h.queue Q = some ⟨front, lastAddr NULL ns⟩
  nodes : Linked NULL Item.data Item.next h.item front ns NULL

section
variable {h h' : Heap} {Q front data item a b : Ptr} {ns ms xs ys : List (Ptr × Ptr)}

theorem run_readQueue {queue : Queue} (hq : h.queue Q = some queue) :
    readQueue Q h = .ok (queue, h) := by
  unfold readQueue
  rw [hq]

theorem run_readItem {it : Item} (hi : h.item a = some it) : readItem a h = .ok (it, h) := by
  unfold readItem
  rw [hi]

@[simp] theorem run_writeQueue {queue : Queue} :
    writeQueue Q queue h = .ok ((), h.setQueue Q queue) := rfl

@[simp] theorem run_writeItem {it : Option Item} : writeItem a it h = .ok ((), h.setItem a it) := rfl

@[simp] theorem run_free : free a h = .ok ((), h.setItem a none) := rfl

theorem run_newItem {it : Item} (ha : a ≠ NULL) :
    newItem a it h = .ok ((), h.setItem a (some it)) := by
  unfold newItem
  rw [if_neg ha]
  rfl

theorem run_setNext {it : Item} (hi : h.item a = some it) :
    setNext a b h = .ok ((), h.setItem a (some { it with next := b })) := by
  unfold setNext
  rw [run_bind, run_readItem hi]
  rfl

/-! ## One call -/

theorem rep_init (hQ : Q ≠ NULL) : ∃ h', init_queue Q h = .ok (0, h') ∧ Rep h' Q [] NULL := by
  refine ⟨h.setQueue Q ⟨NULL, NULL⟩, ?_, hQ, Function.update_self _ _ _, rfl⟩
  simp [init_queue, hQ]

/-- A node that is not allocated yet is none of the nodes of the queue. -/
theorem Rep.fresh (hr : Rep h Q ns front) (hfresh : h.item item = none) :
    item ∉ ns.map Prod.fst := fun hmem => (linked_mem_fst hr.nodes hmem).2 hfresh

theorem push_empty (hqueue : h.queue Q = some ⟨front, NULL⟩) (hnull : item ≠ NULL) :
    queue_push Q data item h =
      .ok ((), (h.setItem item (some ⟨data, NULL⟩)).setQueue Q ⟨item, item⟩) := by
  have hqueue' : (h.setItem item (some ⟨data, NULL⟩)).queue Q = some ⟨front, NULL⟩ := hqueue
  unfold queue_push
  rw [run_bind, run_newItem hnull, ok_bind, run_bind, run_readQueue hqueue', ok_bind, run_ite]
  rfl

theorem push_back {it : Item} (hqueue : h.queue Q = some ⟨front, a⟩) (ha : a ≠ NULL)
    (hit : h.item a = some it) (hnull : item ≠ NULL) (hne : a ≠ item) :
    queue_push Q data item h = .ok ((), ((h.setItem item (some ⟨data, NULL⟩)).setItem a
      (some { it with next := item })).setQueue Q ⟨front, item⟩) := by
  have hqueue' : (h.setItem item (some ⟨data, NULL⟩)).queue Q = some ⟨front, a⟩ := hqueue
  have hit' : (h.setItem item (some ⟨data, NULL⟩)).item a = some it :=
    (Function.update_of_ne hne _ _).trans hit
  unfold queue_push
  rw [run_bind, run_newItem hnull, ok_bind, run_bind, run_readQueue hqueue', ok_bind, run_ite,
    if_pos ha, run_bind, run_setNext hit']
  rfl

theorem Rep.push (hr : Rep h Q ns front) (hnull : item ≠ NULL) (hfresh : h.item item = none) :
    ∃ h' front', queue_push Q data item h = .ok ((), h') ∧
      Rep h' Q (ns ++ [(item, data)]) front' := by
  have hnot := hr.fresh hfresh
  obtain ⟨hQ, hqueue, hnodes⟩ := hr
  rcases List.eq_nil_or_concat ns with rfl | ⟨ms, ⟨a, b⟩, rfl⟩
  · refine ⟨_, item, push_empty hqueue hnull, hQ, Function.update_self _ _ _, ?_⟩
    exact ⟨rfl, hnull, _, Function.update_self _ _ _, rfl, rfl⟩
  · rw [List.concat_eq_append] at *
    rw [lastAddr_concat] at hqueue
    obtain ⟨ha, it, hit, hb⟩ := linked_mem hnodes (by simp : (a, b) ∈ ms ++ [(a, b)])
    have hne : a ≠ item := by
      rintro rfl
      exact hnot (by simp)
    have hams : a ∉ ms.map Prod.fst := by
      have hnd := linked_nodup hnodes
      rw [List.map_append, List.nodup_append] at hnd
      exact fun hmem => hnd.2.2 a hmem a (by simp) rfl
    refine ⟨_, front, push_back hqueue ha hit hnull hne, hQ, ?_, ?_⟩
    · rw [lastAddr_concat]
      exact Function.update_self _ _ _
    · have hnew := linked_update hnot (o := some ⟨data, NULL⟩) hnodes
      have hb' : Item.data { it with next := item } = b := hb
      have hlink := linked_relink hnew hams hb'
      refine linked_append.mpr ⟨item, hlink, rfl, hnull, ⟨data, NULL⟩, ?_, rfl, rfl⟩
      exact (Function.update_of_ne hne.symm _ _).trans (Function.update_self _ _ _)

theorem pop_empty (hqueue : h.queue Q = some ⟨NULL, b⟩) : queue_pop Q h = .ok (NULL, h) := by
  unfold queue_pop
  rw [run_bind, run_readQueue hqueue, ok_bind, run_ite]
  rfl

theorem pop_front {it : Item} (hqueue : h.queue Q = some ⟨a, b⟩) (ha : a ≠ NULL)
    (hit : h.item a = some it) : queue_pop Q h = .ok (it.data,
      (h.setQueue Q ⟨it.next, if it.next = NULL then NULL else b⟩).setItem a none) := by
  unfold queue_pop
  rw [run_bind, run_readQueue hqueue, ok_bind, run_ite, if_neg ha, run_bind, run_readItem hit]
  rfl

theorem Rep.pop (hr : Rep h Q ((a, b) :: ns) front) :
    ∃ h' front', queue_pop Q h = .ok (b, h') ∧ Rep h' Q ns front' := by
  have hnd := linked_nodup hr.nodes
  rw [List.map_cons, List.nodup_cons] at hnd
  obtain ⟨hQ, hqueue, rfl, ha, it, hit, rfl, hnodes⟩ := hr
  refine ⟨_, it.next, pop_front hqueue ha hit, hQ, ?_, linked_update hnd.1 hnodes⟩
  rw [Heap.setItem_queue, Heap.setQueue_queue, Function.update_self]
  cases ns with
  | nil =>
    have hnext : it.next = NULL := hnodes
    rw [if_pos hnext]
    rfl
  | cons c ns =>
    have hnext : it.next ≠ NULL := by
      rw [hnodes.1]
      exact hnodes.2.1
    rw [if_neg hnext, ← List.singleton_append, lastAddr_append (by simp)]

theorem Rep.notEmpty (hr : Rep h Q ns front) :
    queue_not_empty Q h = .ok (if ns = [] then 0 else 1, h) := by
  obtain ⟨hQ, hqueue, hnodes⟩ := hr
  have hfront : front = NULL ↔ ns = [] := by
    cases ns with
    | nil => exact iff_of_true hnodes rfl
    | cons x ns =>
      refine iff_of_false ?_ (by simp)
      rw [hnodes.1]
      exact hnodes.2.1
  unfold queue_not_empty
  rw [run_ite, if_neg hQ, run_bind, run_readQueue hqueue, ok_bind, run_pure]
  simp [hfront]

theorem Rep.peek (hr : Rep h Q ns front) : queue_peek Q h = .ok (front, h) := by
  unfold queue_peek
  rw [run_ite, if_neg hr.notNull, run_bind, run_readQueue hr.queue, ok_bind, run_ite]
  by_cases hnull : front = NULL
  · rw [if_pos hnull, run_pure, hnull]
  · exact if_neg hnull

/-! ## `queue_remove` -/

theorem remove_null (h : Heap) (prev : Ptr) :
    removeItem h Q data (prev, NULL) = .ok (.done (1, h)) := if_pos rfl

theorem remove_other {it : Item} {prev : Ptr} (ha : a ≠ NULL) (hit : h.item a = some it)
    (hd : it.data ≠ data) : removeItem h Q data (prev, a) = .ok (.next (a, it.next)) := by
  unfold removeItem
  rw [if_neg ha, run_readItem hit, ok_bind]
  dsimp only
  rw [if_neg hd]
  rfl

theorem remove_hit {it : Item} {prev : Ptr} (ha : a ≠ NULL) (hit : h.item a = some it)
    (hd : it.data = data) (ht : takeOut Q prev a h = .ok ((), h')) :
    removeItem h Q data (prev, a) = .ok (.done (0, h')) := by
  unfold removeItem
  rw [if_neg ha, run_readItem hit, ok_bind]
  dsimp only
  rw [if_pos hd, ht]
  rfl

/-- The node at the front is taken out. -/
theorem takeOut_front {it : Item} {prev : Ptr} (hq : h.queue Q = some ⟨a, b⟩)
    (hit : h.item a = some it) :
    takeOut Q prev a h = .ok ((), (h.setQueue Q ⟨it.next, b⟩).setItem a none) := by
  unfold takeOut
  rw [run_bind, run_readQueue hq, ok_bind, run_bind, run_readItem hit, ok_bind]
  dsimp only
  rw [if_pos rfl]
  rfl

/-- A node behind `prev` is taken out. -/
theorem takeOut_behind {it pit : Item} {prev : Ptr} (hq : h.queue Q = some ⟨front, b⟩)
    (hit : h.item a = some it) (hfront : a ≠ front) (hprev : h.item prev = some pit) :
    takeOut Q prev a h =
      .ok ((), (h.setItem prev (some { pit with next := it.next })).setItem a none) := by
  unfold takeOut
  rw [run_bind, run_readQueue hq, ok_bind, run_bind, run_readItem hit, ok_bind]
  dsimp only
  rw [if_neg hfront, run_bind, run_setNext hprev]
  rfl

/-- `prev` is the node before the one that the loop has come to. -/
def Before (prev : Ptr) (xs : List (Ptr × Ptr)) : Prop :=
  xs = [] ∨ ∃ ms b, xs = ms ++ [(prev, b)]

/-- A node is taken out of the list; `back` stays. -/
theorem takeOut_list {prev : Ptr} (hq : h.queue Q = some ⟨front, b⟩)
    (hl : Linked NULL Item.data Item.next h.item front (xs ++ (a, data) :: ys) NULL)
    (hprev : Before prev xs) : ∃ h' front', takeOut Q prev a h = .ok ((), h') ∧
      h'.queue Q = some ⟨front', b⟩ ∧
      Linked NULL Item.data Item.next h'.item front' (xs ++ ys) NULL := by
  have hnd := linked_nodup hl
  rw [List.map_append, List.nodup_append, List.map_cons, List.nodup_cons] at hnd
  obtain ⟨-, ⟨hay, -⟩, hdisj⟩ := hnd
  obtain ⟨r, hxs, rfl, ha, it, hit, -, hys⟩ := linked_append.mp hl
  rcases hprev with rfl | ⟨ms, c, rfl⟩
  · obtain rfl : front = r := hxs
    exact ⟨_, it.next, takeOut_front hq hit, Function.update_self _ _ _, linked_update hay hys⟩
  · obtain ⟨-, pit, hpit, hc⟩ := linked_mem hxs (by simp : (prev, c) ∈ ms ++ [(prev, c)])
    have hfront : r ≠ front := by
      rintro rfl
      exact hdisj r (linked_head_mem hxs (by simp)) r (by simp) rfl
    have hc' : Item.data { pit with next := it.next } = c := hc
    exact ⟨_, front, takeOut_behind hq hit hfront hpit, hq, linked_take_out hl hit hc' rfl⟩

/-- The loop, when it has passed the nodes `xs`. -/
theorem remove_found {n : Nat} {prev p : Ptr} {us vs : List (Ptr × Ptr)}
    (hq : h.queue Q = some ⟨front, b⟩)
    (hxs : Linked NULL Item.data Item.next h.item front xs p)
    (hys : Linked NULL Item.data Item.next h.item p (us ++ (a, data) :: vs) NULL)
    (hprev : Before prev xs) (hus : data ∉ us.map Prod.snd) (hn : us.length < n) :
    ∃ h' front', loop (removeItem h Q data) n (prev, p) = .ok (0, h') ∧
      h'.queue Q = some ⟨front', b⟩ ∧
      Linked NULL Item.data Item.next h'.item front' (xs ++ us ++ vs) NULL := by
  induction us generalizing n prev p xs with
  | nil =>
    obtain ⟨k, rfl⟩ : ∃ k, n = k + 1 := ⟨n - 1, by simp at hn; omega⟩
    obtain ⟨h', front', htake, hq', hl⟩ :=
      takeOut_list hq (linked_append.mpr ⟨p, hxs, hys⟩) hprev
    obtain ⟨rfl, ha, it, hit, hd, -⟩ := hys
    refine ⟨h', front', ?_, hq', by rwa [List.append_nil]⟩
    simp only [loop, remove_hit ha hit hd htake]
  | cons u us ih =>
    obtain ⟨c, d⟩ := u
    rw [List.map_cons, List.mem_cons, not_or] at hus
    rw [List.length_cons] at hn
    obtain ⟨k, rfl⟩ : ∃ k, n = k + 1 := ⟨n - 1, by omega⟩
    obtain ⟨rfl, hc, it, hit, hd, hrest⟩ := hys
    have hxs' : Linked NULL Item.data Item.next h.item front (xs ++ [(p, d)]) it.next :=
      linked_append.mpr ⟨p, hxs, rfl, hc, it, hit, hd, rfl⟩
    obtain ⟨h', front', hloop, hq', hl⟩ :=
      ih (n := k) hxs' hrest (Or.inr ⟨xs, d, rfl⟩) hus.2 (by omega)
    refine ⟨h', front', ?_, hq', by simpa using hl⟩
    simp only [loop, remove_other hc hit (fun h => hus.1 (h.symm.trans hd))]
    exact hloop

theorem remove_absent {n : Nat} {prev p : Ptr}
    (hys : Linked NULL Item.data Item.next h.item p ys NULL) (hd : data ∉ ys.map Prod.snd)
    (hn : ys.length < n) : loop (removeItem h Q data) n (prev, p) = .ok (1, h) := by
  induction ys generalizing n prev p with
  | nil =>
    obtain ⟨k, rfl⟩ : ∃ k, n = k + 1 := ⟨n - 1, by simp at hn; omega⟩
    obtain rfl : p = NULL := hys
    simp only [loop, remove_null]
  | cons y ys ih =>
    rw [List.map_cons, List.mem_cons, not_or] at hd
    rw [List.length_cons] at hn
    obtain ⟨k, rfl⟩ : ∃ k, n = k + 1 := ⟨n - 1, by omega⟩
    obtain ⟨rfl, hc, it, hit, hdata, hrest⟩ := hys
    simp only [loop, remove_other hc hit (fun h => hd.1 (h.symm.trans hdata))]
    exact ih hrest hd.2 (by omega)

theorem Rep.remove_start {n : Nat} (hr : Rep h Q ns front) (hd : data ≠ NULL) (hns : ns ≠ []) :
    queue_remove n Q data h = loop (removeItem h Q data) n (front, front) := by
  have hfront : front ≠ NULL := (linked_mem_fst hr.nodes (linked_head_mem hr.nodes hns)).1
  unfold queue_remove
  rw [run_ite, if_neg (by simp [hr.notNull, hd]), run_bind, run_readQueue hr.queue, ok_bind, run_ite,
    if_neg hfront]

theorem Rep.remove_absent {n : Nat} (hr : Rep h Q ns front) (hd : data ≠ NULL)
    (hnot : data ∉ ns.map Prod.snd) (hn : ns.length < n) :
    queue_remove n Q data h = .ok (1, h) := by
  cases ns with
  | nil =>
    obtain rfl : front = NULL := hr.nodes
    unfold queue_remove
    rw [run_ite, if_neg (by simp [hr.notNull, hd]), run_bind, run_readQueue hr.queue, ok_bind,
      run_ite]
    rfl
  | cons x ns =>
    rw [hr.remove_start hd (by simp)]
    exact Queues.remove_absent hr.nodes hnot hn

/-- The first node with the data is taken out, and `back` stays. -/
theorem Rep.remove {n : Nat} (hr : Rep h Q (xs ++ (a, data) :: ys) front) (hd : data ≠ NULL)
    (hnot : data ∉ xs.map Prod.snd) (hn : xs.length < n) :
    ∃ h' front', queue_remove n Q data h = .ok (0, h') ∧
      h'.queue Q = some ⟨front', lastAddr NULL (xs ++ (a, data) :: ys)⟩ ∧
      Linked NULL Item.data Item.next h'.item front' (xs ++ ys) NULL := by
  rw [hr.remove_start hd (by simp)]
  have hempty : Linked NULL Item.data Item.next h.item front [] front := rfl
  exact remove_found hr.queue hempty hr.nodes (Or.inl rfl) hnot hn

end

/-! ## Runs beside a list -/

inductive Op where
  /-- `malloc` gives `item`. -/
  | push (data item : Ptr)
  | pop
  | peek
  /-- With a budget for the loop. -/
  | remove (data : Ptr) (n : Nat)
  | notEmpty

inductive Result where
  | none
  | ptr (p : Ptr)
  | int (n : Int)
  deriving DecidableEq

def perform (Q : Ptr) : Op → M Result
  | .push data item => (fun _ => .none) <$> queue_push Q data item
  | .pop => .ptr <$> queue_pop Q
  | .peek => .ptr <$> queue_peek Q
  | .remove data n => .int <$> queue_remove n Q data
  | .notEmpty => .int <$> queue_not_empty Q

/-- What the operation is for a first-in-first-out list, and its result. -/
def fifo : Op → List Ptr → Result × List Ptr
  | .push data _, xs => (.none, xs ++ [data])
  | .pop, xs => (.ptr (xs.head?.getD NULL), xs.tail)
  | .peek, xs => (.ptr (xs.head?.getD NULL), xs)
  | .remove data _, xs => if data ∈ xs then (.int 0, xs.erase data) else (.int 1, xs)
  | .notEmpty, xs => (.int (if xs = [] then 0 else 1), xs)

/-- The operation on the heap, with the list beside it. -/
def step (Q : Ptr) (op : Op) (s : Heap × List Ptr) : C (Heap × List Ptr) := do
  let (_, h) ← perform Q op s.1
  return (h, (fifo op s.2).2)

/-- The queue at `Q` holds the list. -/
def IsQueue (h : Heap) (Q : Ptr) (xs : List Ptr) : Prop :=
  ∃ ns front, Rep h Q ns front ∧ ns.map Prod.snd = xs

/-- The operation gives the result for the list, and the queue holds the list that it leaves. -/
def Agrees (Q : Ptr) (op : Op) (s : Heap × List Ptr) : Prop :=
  ∃ h, perform Q op s.1 = .ok ((fifo op s.2).1, h) ∧ IsQueue h Q (fifo op s.2).2

/-- What callers and `malloc` guarantee. -/
def Allowed (op : Op) (s : Heap × List Ptr) : Prop :=
  match op with
  | .push data item => data ≠ NULL ∧ (item = NULL ∨ s.1.item item = none)
  | .remove data n => data ≠ NULL ∧ s.2.length < n
  | _ => True

/-- `malloc` has not failed; the data at the front is the address of its node; the first node with
the data is not the last one. -/
def Fits (Q : Ptr) (op : Op) (s : Heap × List Ptr) : Prop :=
  match op with
  | .push _ item => item ≠ NULL
  | .peek => ∀ queue, s.1.queue Q = some queue → ∀ x ∈ s.2.head?, x = queue.front
  | .remove data _ => data ∈ s.2 → data ∈ s.2.dropLast
  | _ => True

section
variable {h h' : Heap} {Q data item p : Ptr} {xs : List Ptr} {n : Nat} {i : Int}

theorem map_ok {α β : Type} {g : α → β} {x : M α} {a : α} (hx : x h = .ok (a, h')) :
    (g <$> x) h = .ok (g a, h') := by
  rw [run_map, hx]
  rfl

theorem perform_push (hp : queue_push Q data item h = .ok ((), h')) :
    perform Q (.push data item) h = .ok (.none, h') :=
  map_ok hp

theorem perform_pop (hp : queue_pop Q h = .ok (p, h')) : perform Q .pop h = .ok (.ptr p, h') :=
  map_ok hp

theorem perform_peek (hp : queue_peek Q h = .ok (p, h')) : perform Q .peek h = .ok (.ptr p, h') :=
  map_ok hp

theorem perform_remove (hp : queue_remove n Q data h = .ok (i, h')) :
    perform Q (.remove data n) h = .ok (.int i, h') :=
  map_ok hp

theorem perform_notEmpty (hp : queue_not_empty Q h = .ok (i, h')) :
    perform Q .notEmpty h = .ok (.int i, h') :=
  map_ok hp

theorem agrees_push (hs : IsQueue h Q xs) (ha : Allowed (.push data item) (h, xs)) :
    Agrees Q (.push data item) (h, xs) ↔ item ≠ NULL := by
  constructor
  · rintro ⟨h', hrun, -⟩ rfl
    cases hrun
  · intro hnull
    obtain ⟨ns, front, hr, rfl⟩ := hs
    obtain ⟨h', front', hpush, hr'⟩ := hr.push hnull (ha.2.resolve_left hnull)
    exact ⟨h', perform_push hpush, ns ++ [(item, data)], front', hr', by simp [fifo]⟩

theorem agrees_pop (hs : IsQueue h Q xs) : Agrees Q .pop (h, xs) := by
  obtain ⟨ns, front, hr, rfl⟩ := hs
  cases ns with
  | nil =>
    obtain rfl : front = NULL := hr.nodes
    exact ⟨h, perform_pop (pop_empty hr.queue), [], NULL, hr, rfl⟩
  | cons n ns =>
    obtain ⟨h', front', hpop, hr'⟩ := hr.pop
    exact ⟨h', perform_pop hpop, ns, front', hr', rfl⟩

theorem agrees_notEmpty (hs : IsQueue h Q xs) : Agrees Q .notEmpty (h, xs) := by
  obtain ⟨ns, front, hr, rfl⟩ := hs
  refine ⟨h, (perform_notEmpty hr.notEmpty).trans ?_, ns, front, hr, rfl⟩
  simp [fifo]

theorem agrees_peek (hs : IsQueue h Q xs) : Agrees Q .peek (h, xs) ↔ Fits Q .peek (h, xs) := by
  obtain ⟨ns, front, hr, rfl⟩ := hs
  have hrun := perform_peek hr.peek
  constructor
  · rintro ⟨h', hrun', -⟩ queue hqueue x hx
    obtain rfl : (⟨front, lastAddr NULL ns⟩ : Queue) = queue := Option.some.inj (hr.queue.symm.trans hqueue)
    rw [hrun] at hrun'
    have hfront : front = ((ns.map Prod.snd).head?).getD NULL :=
      Result.ptr.inj (Prod.mk.inj (Except.ok.inj hrun')).1
    rw [hfront, Option.mem_def.mp hx]
    rfl
  · intro hfits
    refine ⟨h, hrun.trans ?_, ns, front, hr, rfl⟩
    cases ns with
    | nil =>
      obtain rfl : front = NULL := hr.nodes
      rfl
    | cons x ns =>
      have hx : x.2 = front := hfits _ hr.queue x.2 rfl
      rw [← hx]
      rfl

/-- With the last node taken out `back` is not the last node any more. -/
theorem lastAddr_stale {a b : Ptr} {ns : List (Ptr × Ptr)} (ha : a ≠ NULL)
    (hnot : a ∉ ns.map Prod.fst) : lastAddr NULL ns ≠ lastAddr NULL (ns ++ [(a, b)]) := by
  rw [lastAddr_concat]
  rintro rfl
  rcases eq_or_ne ns [] with rfl | hns
  · exact ha rfl
  · exact hnot (lastAddr_mem hns)

theorem mem_dropLast {us vs : List Ptr} (hus : data ∉ us) :
    data ∈ (us ++ data :: vs).dropLast ↔ vs ≠ [] := by
  cases vs with
  | nil => simp [hus]
  | cons v vs => simp [List.dropLast_append_of_ne_nil]

theorem fifo_remove {us vs : List Ptr} (hus : data ∉ us) :
    fifo (.remove data n) (us ++ data :: vs) = (.int 0, us ++ vs) := by
  have herase : (us ++ data :: vs).erase data = us ++ vs := by
    rw [List.erase_append_right _ hus, List.erase_cons_head]
  exact (if_pos (by simp)).trans (congrArg _ herase)

/-- Only with another node behind it is a node taken out as it should be. -/
theorem Rep.remove_iff {a front : Ptr} {us vs : List (Ptr × Ptr)}
    (hr : Rep h Q (us ++ (a, data) :: vs) front) (hd : data ≠ NULL) (hus : data ∉ us.map Prod.snd)
    (hn : us.length < n) :
    (∃ h', perform Q (.remove data n) h = .ok (.int 0, h') ∧ IsQueue h' Q ((us ++ vs).map Prod.snd)) ↔
      vs ≠ [] := by
  obtain ⟨h', front', hrun, hq, hl⟩ := hr.remove hd hus hn
  constructor
  · rintro ⟨h₁, hrun₁, ns, front₁, hr₁, -⟩ rfl
    rw [perform_remove hrun] at hrun₁
    obtain rfl : h' = h₁ := (Prod.mk.inj (Except.ok.inj hrun₁)).2
    obtain ⟨rfl, hlast⟩ := Queue.mk.inj (Option.some.inj (hq.symm.trans hr₁.queue))
    obtain rfl := linked_unique hr₁.nodes hl
    have hnd := linked_nodup hr.nodes
    rw [List.map_append, List.nodup_append] at hnd
    have ha : a ∉ us.map Prod.fst := fun hmem => hnd.2.2 a hmem a (by simp) rfl
    have hnull : a ≠ NULL := (linked_mem_fst hr.nodes (by simp)).1
    rw [List.append_nil] at hlast
    exact lastAddr_stale hnull ha hlast.symm
  · intro hvs
    refine ⟨h', perform_remove hrun, us ++ vs, front', ⟨hr.notNull, ?_, hl⟩, rfl⟩
    rw [hq, ← List.singleton_append, ← List.append_assoc, lastAddr_append hvs, lastAddr_append hvs]

theorem agrees_remove (hs : IsQueue h Q xs) (ha : Allowed (.remove data n) (h, xs)) :
    Agrees Q (.remove data n) (h, xs) ↔ Fits Q (.remove data n) (h, xs) := by
  obtain ⟨ns, front, hr, hns⟩ := hs
  obtain ⟨hd, hn⟩ := ha
  have hn : ns.length < n := by simpa [← hns] using hn
  by_cases hmem : data ∈ xs
  · obtain ⟨us', vs', rfl, hus⟩ := List.eq_append_cons_of_mem hmem
    obtain ⟨us, rest, rfl, rfl, hrest⟩ := List.map_eq_append_iff.mp hns
    obtain ⟨⟨a, d⟩, vs, rfl, rfl, rfl⟩ := List.map_eq_cons_iff.mp hrest
    have hlt : us.length < n := by
      simp at hn
      omega
    have hfits : Fits Q (.remove d n) (h, us.map Prod.snd ++ d :: vs.map Prod.snd) ↔ vs ≠ [] := by
      have hmap : vs.map Prod.snd ≠ [] ↔ vs ≠ [] := by simp
      rw [← hmap, ← mem_dropLast hus]
      exact ⟨fun hf => hf (by simp), fun hm _ => hm⟩
    rw [hfits, ← hr.remove_iff hd hus hlt]
    unfold Agrees
    rw [fifo_remove hus, List.map_append]
  · have hfifo : fifo (.remove data n) xs = (.int 1, xs) := if_neg hmem
    refine iff_of_true ⟨h, ?_, ?_⟩ fun hin => absurd hin hmem
    · rw [hfifo]
      exact perform_remove (hr.remove_absent hd (hns ▸ hmem) hn)
    · rw [hfifo]
      exact ⟨ns, front, hr, hns⟩

end

/-! ## Runs -/

section
variable {h h₀ : Heap} {Q : Ptr} {op : Op} {ops : List Op} {s s' : Heap × List Ptr}

theorem agrees_iff (hs : IsQueue s.1 Q s.2) (ha : Allowed op s) : Agrees Q op s ↔ Fits Q op s := by
  cases op with
  | push data item => exact agrees_push hs ha
  | pop => exact iff_of_true (agrees_pop hs) trivial
  | peek => exact agrees_peek hs
  | remove data n => exact agrees_remove hs ha
  | notEmpty => exact iff_of_true (agrees_notEmpty hs) trivial

theorem Agrees.step (ha : Agrees Q op s) (hs : step Q op s = .ok s') : IsQueue s'.1 Q s'.2 := by
  obtain ⟨h, hrun, hq⟩ := ha
  unfold Queues.step at hs
  rw [hrun] at hs
  cases hs
  exact hq

/-- From a fresh queue on all calls agree with those of a first-in-first-out list, if and only if
none of them peeks at an element, takes out the last node, or has no memory for a node. -/
theorem queue_refines_iff (hinit : init_queue Q h₀ = .ok (0, h))
    (hallowed : Along (step Q) Allowed ops (h, [])) :
    Along (step Q) (Agrees Q) ops (h, []) ↔ Along (step Q) (Fits Q) ops (h, []) := by
  have hstart : IsQueue h Q [] := by
    have hQ : Q ≠ NULL := by
      rintro rfl
      cases hinit
    obtain ⟨h', hinit', hr⟩ := rep_init (h := h₀) hQ
    rw [hinit] at hinit'
    cases hinit'
    exact ⟨[], NULL, hr, rfl⟩
  constructor
  · intro hagree
    refine along_imp (J := fun s => IsQueue s.1 Q s.2) ?_ ?_ hstart (along_and hallowed hagree)
    · intro op s s' _ ⟨_, ha⟩ hs
      exact ha.step hs
    · intro op s hq ⟨hal, ha⟩
      exact (agrees_iff hq hal).mp ha
  · intro hfits
    refine along_imp (J := fun s => IsQueue s.1 Q s.2) ?_ ?_ hstart (along_and hallowed hfits)
    · intro op s s' hq ⟨hal, hf⟩ hs
      exact ((agrees_iff hq hal).mpr hf).step hs
    · intro op s hq ⟨hal, hf⟩
      exact (agrees_iff hq hal).mpr hf

/-- No block. -/
def noBlocks : Heap := ⟨fun _ => none, fun _ => none⟩

/-- Two pushes, and the first of the two taken out. -/
def twoItems : List Op := [.push 5 100, .push 6 101, .remove 5 3, .notEmpty, .pop]

theorem queue_refines_two : ∃ h, init_queue 1 noBlocks = .ok (0, h) ∧
    Along (step 1) (Agrees 1) twoItems (h, []) := by
  have hinit : init_queue 1 noBlocks = .ok (0, noBlocks.setQueue 1 ⟨NULL, NULL⟩) := rfl
  refine ⟨_, hinit, (queue_refines_iff hinit ?_).mpr ?_⟩
  · refine ⟨⟨by decide, Or.inr rfl⟩, fun s₁ h₁ => ?_⟩
    cases h₁
    refine ⟨⟨by decide, Or.inr rfl⟩, fun s₂ h₂ => ?_⟩
    cases h₂
    exact ⟨⟨by decide, by decide⟩, fun _ _ => ⟨trivial, fun _ _ => ⟨trivial, fun _ _ => trivial⟩⟩⟩
  · refine ⟨(by decide : (100 : Ptr) ≠ NULL), fun s₁ h₁ => ?_⟩
    cases h₁
    refine ⟨(by decide : (101 : Ptr) ≠ NULL), fun s₂ h₂ => ?_⟩
    cases h₂
    exact ⟨fun _ => (by decide : (5 : Ptr) ∈ [5, 6].dropLast), fun _ _ => ⟨trivial, fun _ _ => ⟨trivial, fun _ _ => trivial⟩⟩⟩

/-- The first element is peeked at, and the node comes back. The only element is taken out, and the
next push writes to its node, which is freed. -/
theorem queue_differs : ∃ h, init_queue 1 noBlocks = .ok (0, h) ∧
    (∃ s, playFrom (step 1) [.push 5 100] (h, []) = .ok s ∧ s.2 = [5] ∧
      perform 1 .peek s.1 = .ok (.ptr 100, s.1)) ∧
    ¬ Along (step 1) (Agrees 1) [.push 5 100, .peek] (h, []) ∧
    (∃ s, playFrom (step 1) [.push 5 100, .remove 5 2] (h, []) = .ok s ∧ s.2 = [] ∧
      s.1.queue 1 = some ⟨NULL, 100⟩ ∧ perform 1 (.push 6 101) s.1 = .error .fault) ∧
    ¬ Along (step 1) (Agrees 1) [.push 5 100, .remove 5 2, .push 6 101] (h, []) := by
  refine ⟨_, rfl, ⟨_, rfl, rfl, rfl⟩, ?_, ⟨_, rfl, rfl, rfl, rfl⟩, ?_⟩
  · rintro ⟨-, h⟩
    obtain ⟨⟨h', hrun, -⟩, -⟩ := h _ rfl
    cases hrun
  · rintro ⟨-, h⟩
    obtain ⟨-, h⟩ := h _ rfl
    obtain ⟨⟨h', hrun, -⟩, -⟩ := h _ rfl
    cases hrun

end

/-! ## The queues of the rest of the model -/

section
variable {h : Heap} {Q data item : Ptr} {xs : List Ptr}

theorem push_as_list (m : State) (hs : IsQueue h Q xs) (hnull : item ≠ NULL)
    (hfresh : h.item item = none) : ∃ h' xs', queue_push Q data item h = .ok ((), h') ∧
      Threads.queue_push (some xs) data m = .ok (xs', m) ∧ IsQueue h' Q xs' := by
  obtain ⟨ns, front, hr, rfl⟩ := hs
  obtain ⟨h', front', hpush, hr'⟩ := hr.push hnull hfresh
  exact ⟨h', _, hpush, rfl, ns ++ [(item, data)], front', hr', by simp⟩

theorem pop_as_list (m : State) (hs : IsQueue h Q xs) :
    ∃ h' p xs', queue_pop Q h = .ok (p.getD NULL, h') ∧
      Threads.queue_pop (some xs) m = .ok ((p, xs'), m) ∧ IsQueue h' Q xs' := by
  obtain ⟨ns, front, hr, rfl⟩ := hs
  cases ns with
  | nil =>
    obtain rfl : front = NULL := hr.nodes
    exact ⟨h, none, [], pop_empty hr.queue, rfl, [], NULL, hr, rfl⟩
  | cons n ns =>
    obtain ⟨h', front', hpop, hr'⟩ := hr.pop
    exact ⟨h', some n.2, _, hpop, rfl, ns, front', hr', rfl⟩

end

end Cs720.Threads.Queues
