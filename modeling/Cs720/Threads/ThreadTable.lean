import Cs720.Lib.Linked
import Cs720.Lib.Run
import Cs720.Threads.Table

/-! # The table of threads on the heap (`A3/thread_table.c`)

The functions as they are, with the machine integers of the table, on the blocks that `malloc` has
given. The rest of the model has the table as a list. The block that a call of `malloc` gives is an
argument, and of a TCB there are the fields that the table has to do with.
-/

namespace Cs720.Threads.Tables

open Cs720.Lib

abbrev NULL : Ptr := 0

abbrev Id := BitVec 64

/-- A `thandle_t`. -/
structure Handle where
  tcb : Ptr
  id : Id
  next : Ptr

/-- The id and the TCB. -/
def Handle.member (e : Handle) : Id × Ptr := (e.id, e.tcb)

structure Table where
  head : Ptr
  max_id : Id
  size : BitVec 32

structure Tcb where
  tid : Id
  handle : Ptr

/-- The blocks that are not freed. -/
structure Heap where
  handle : Ptr → Option Handle
  tcb : Ptr → Option Tcb
  table : Ptr → Option Table

@[simps -fullyApplied]
def Heap.setHandle (h : Heap) (p : Ptr) (e : Option Handle) : Heap :=
  { h with handle := Function.update h.handle p e }

@[simps -fullyApplied]
def Heap.setTcb (h : Heap) (p : Ptr) (c : Option Tcb) : Heap :=
  { h with tcb := Function.update h.tcb p c }

@[simps -fullyApplied]
def Heap.setTable (h : Heap) (p : Ptr) (t : Table) : Heap :=
  { h with table := Function.update h.table p (some t) }

abbrev M := StateT Heap C

/-- What is at `p`, if it is allocated. -/
def deref {α : Type} (block : Heap → Ptr → Option α) (p : Ptr) : M α := fun h =>
  match block h p with
  | some a => .ok (a, h)
  | none => .error .fault

def writeHandle (p : Ptr) (e : Option Handle) : M Unit := modify fun h => h.setHandle p e
def writeTcb (p : Ptr) (c : Tcb) : M Unit := modify fun h => h.setTcb p (some c)
def writeTable (p : Ptr) (t : Table) : M Unit := modify fun h => h.setTable p t
def free (p : Ptr) : M Unit := writeHandle p none

/-! ## The functions -/

def malloc_fail : M Int := fun _ => .error (.exit (-1))

def init_table (table : Ptr) : M Int := do
  if table = NULL then malloc_fail
  else
    writeTable table ⟨NULL, 0, 0⟩
    return 0

def put_tcb (table tcb handle : Ptr) : M Int := do
  if table = NULL ∨ tcb = NULL then return -1
  else if handle = NULL then malloc_fail
  else
    let t ← deref Heap.table table
    let c ← deref Heap.tcb tcb
    writeTcb tcb { c with tid := t.max_id }
    writeHandle handle (some ⟨tcb, t.max_id, t.head⟩)
    writeTable table ⟨handle, t.max_id + 1, t.size + 1⟩
    if c.handle ≠ NULL then free c.handle
    writeTcb tcb ⟨t.max_id, handle⟩
    return 0

/-- The body of the loop that looks for `target`, from `prev` and `ptr`. -/
def walkStep (h : Heap) (target : Id) (s : Ptr × Ptr) : C (Lib.Flow (Ptr × Ptr) (Ptr × Ptr)) :=
  if s.2 = NULL then .ok (.done s)
  else do
    let (e, _) ← deref Heap.handle s.2 h
    if e.id > target then return .next (s.2, e.next) else return .done s

/-- `prev` and `ptr` after the loop. `get_tcb_by_id` has no `prev`. -/
def walk (n : Nat) (head : Ptr) (target : Id) : M (Ptr × Ptr) := fun h => do
  let s ← loop (walkStep h target) n (NULL, head)
  return (s, h)

def get_tcb_by_id (n : Nat) (table : Ptr) (target_id : Id) : M Ptr := do
  let t ← deref Heap.table table
  let (_, ptr) ← walk n t.head target_id
  if ptr = NULL then return NULL
  else
    let e ← deref Heap.handle ptr
    if e.id ≠ target_id then return NULL else return e.tcb

def pop_tcb (table : Ptr) : M Ptr := do
  if table = NULL then return NULL
  else
    let t ← deref Heap.table table
    if t.head = NULL then return NULL
    else
      let ret ← deref Heap.handle t.head
      let c ← deref Heap.tcb ret.tcb
      writeTcb ret.tcb { c with handle := NULL }
      writeTable table { t with head := ret.next, size := t.size - 1 }
      free t.head
      return ret.tcb

def setNext (p next : Ptr) : M Unit := do
  let e ← deref Heap.handle p
  writeHandle p (some { e with next })

def remove_tcb (n : Nat) (table tcb : Ptr) : M Int := do
  if table = NULL ∨ tcb = NULL then return -1
  else
    let c ← deref Heap.tcb tcb
    if c.handle = NULL then return -1
    else
      let target := (← deref Heap.handle c.handle).id
      let t ← deref Heap.table table
      let (prev, ptr) ← walk n t.head target
      if ptr = NULL then return -2
      else
        let e ← deref Heap.handle ptr
        if e.id ≠ target then return -2
        else
          writeTcb tcb { c with handle := NULL }
          if prev = NULL then
            writeTable table { t with head := e.next, size := t.size - 1 }
          else
            setNext prev e.next
            writeTable table { t with size := t.size - 1 }
          free ptr
          return 0

/-! ## The walk -/

/-- A node with its address, its id and its TCB. -/
abbrev Node := Ptr × Id × Ptr

/-- The walk goes on at this node. -/
def above (target : Id) (n : Node) : Bool := target < n.2.1

/-- The nodes from `p` on. -/
abbrev Nodes (h : Heap) : Ptr → List Node → Ptr → Prop :=
  Linked NULL Handle.member Handle.next h.handle

/-- The nodes, as the rest of the model has them. -/
def asHandles (ns : List Node) : List Threads.Handle :=
  ns.map fun n => ⟨n.1, n.2.2, n.2.1.toNat⟩

section
variable {h h' : Heap} {p q a T prev tcb : Ptr} {ns xs ys : List Node} {target id : Id} {n : Nat}
  {t : Table}

theorem run_deref {α : Type} {block : Heap → Ptr → Option α} {b : α} (hb : block h p = some b) :
    deref block p h = .ok (b, h) := by
  unfold deref
  rw [hb]

variable (target prev) in
theorem walk_nodes (hl : Nodes h p ns NULL) (hn : ns.length < n) :
    ∃ q, loop (walkStep h target) n (prev, p) =
        .ok (lastAddr prev (ns.takeWhile (above target)), q) ∧
      Nodes h p (ns.takeWhile (above target)) q ∧ Nodes h q (ns.dropWhile (above target)) NULL := by
  induction ns generalizing n prev p with
  | nil =>
    obtain ⟨k, rfl⟩ : ∃ k, n = k + 1 := ⟨n - 1, by simp at hn; omega⟩
    obtain rfl : p = NULL := hl
    exact ⟨NULL, rfl, rfl, rfl⟩
  | cons x ns ih =>
    obtain ⟨k, rfl⟩ : ∃ k, n = k + 1 := ⟨n - 1, by simp at hn; omega⟩
    rw [List.length_cons] at hn
    obtain ⟨a, m⟩ := x
    have hwhole := hl
    obtain ⟨rfl, hp, e, he, rfl, hl⟩ := hl
    have hstep : walkStep h target (prev, p) =
        if e.id > target then .ok (.next (p, e.next)) else .ok (.done (prev, p)) := by
      unfold walkStep
      rw [if_neg hp, run_deref he, ok_bind]
      rfl
    by_cases hgt : target < e.id
    · rw [if_pos hgt] at hstep
      have habove : above target (p, e.member) = true := decide_eq_true hgt
      obtain ⟨q, hloop, hkeep, hrest⟩ := ih (n := k) p hl (by omega)
      rw [List.takeWhile_cons_of_pos habove, List.dropWhile_cons_of_pos habove]
      refine ⟨q, ?_, ⟨rfl, hp, e, he, rfl, hkeep⟩, hrest⟩
      simp only [loop, hstep, hloop, lastAddr_cons]
    · rw [if_neg hgt] at hstep
      have habove : ¬ above target (p, e.member) = true := by
        unfold above
        rwa [decide_eq_true_eq]
      rw [List.takeWhile_cons_of_neg habove, List.dropWhile_cons_of_neg habove]
      refine ⟨p, ?_, rfl, hwhole⟩
      simp only [loop, hstep]
      rfl

variable (target) in
theorem run_walk (hl : Nodes h p ns NULL) (hn : ns.length < n) :
    ∃ q, walk n p target h = .ok ((lastAddr NULL (ns.takeWhile (above target)), q), h) ∧
      Nodes h p (ns.takeWhile (above target)) q ∧ Nodes h q (ns.dropWhile (above target)) NULL := by
  obtain ⟨q, hloop, hkeep, hrest⟩ := walk_nodes NULL target hl hn
  refine ⟨q, ?_, hkeep, hrest⟩
  unfold walk
  rw [hloop]
  rfl

theorem search_asHandles : Threads.search target.toNat (asHandles ns) =
    match ns.dropWhile (above target) with
    | [] => none
    | (a, id, tcb) :: _ => if id ≠ target then none else some ⟨a, tcb, id.toNat⟩ := by
  have hdrop : (asHandles ns).dropWhile (fun ptr => ptr.id > target.toNat) =
      asHandles (ns.dropWhile (above target)) := by
    unfold asHandles
    rw [List.dropWhile_map]
    rfl
  unfold Threads.search
  rw [hdrop]
  cases ns.dropWhile (above target) with
  | nil => rfl
  | cons x rest =>
    obtain ⟨a, id, tcb⟩ := x
    simp only [asHandles, List.map_cons, ne_eq, BitVec.toNat_inj]

/-- The search gives what the search in the list gives. -/
theorem get_as_list (ht : h.table T = some t) (hl : Nodes h t.head ns NULL) (hn : ns.length < n) :
    get_tcb_by_id n T target h =
      .ok (((Threads.search target.toNat (asHandles ns)).map Threads.Handle.tcb).getD NULL, h) := by
  obtain ⟨q, hwalk, -, hrest⟩ := run_walk target hl hn
  unfold get_tcb_by_id
  rw [run_bind, run_deref ht, ok_bind, run_bind, hwalk, ok_bind, search_asHandles]
  dsimp only
  cases hdrop : ns.dropWhile (above target) with
  | nil =>
    rw [hdrop] at hrest
    obtain rfl : q = NULL := hrest
    rfl
  | cons x rest =>
    rw [hdrop] at hrest
    obtain ⟨a, m⟩ := x
    obtain ⟨rfl, hq, e, he, rfl, -⟩ := hrest
    rw [run_ite, if_neg hq, run_bind, run_deref he, ok_bind, run_ite]
    dsimp only [Handle.member]
    split <;> rfl

end

/-! ## The table -/

/-- The table at `T` is `t`, and it has these nodes. -/
structure Holds (h : Heap) (T : Ptr) (t : Table) (ns : List Node) : Prop where
  notNull : T ≠ NULL
  table : h.table T = some t
  nodes : Nodes h t.head ns NULL
  sorted : ns.Pairwise fun x y => y.2.1 < x.2.1
  below : ∀ x ∈ ns, x.2.1 < t.max_id
  size : t.size = BitVec.ofNat 32 ns.length
  handles : ∀ x ∈ ns, ∃ c, h.tcb x.2.2 = some c ∧ c.handle = x.1

section
variable {h h' : Heap} {a T tcb handle : Ptr} {x : Node} {ns xs ys : List Node} {id : Id} {n : Nat}
  {t : Table} {c : Tcb}

@[simp] theorem run_writeHandle {e : Option Handle} :
    writeHandle a e h = .ok ((), h.setHandle a e) := rfl

@[simp] theorem run_writeTcb : writeTcb a c h = .ok ((), h.setTcb a (some c)) := rfl

@[simp] theorem run_writeTable : writeTable a t h = .ok ((), h.setTable a t) := rfl

theorem holds_init (hT : T ≠ NULL) :
    init_table T h = .ok (0, h.setTable T ⟨NULL, 0, 0⟩) ∧
      Holds (h.setTable T ⟨NULL, 0, 0⟩) T ⟨NULL, 0, 0⟩ [] := by
  refine ⟨?_, hT, Function.update_self _ _ _, rfl, .nil, by simp, rfl, by simp⟩
  unfold init_table
  rw [run_ite, if_neg hT]
  rfl

/-- A change of a TCB that is not in the table. -/
theorem Holds.setTcb (hh : Holds h T t ns) (htcb : tcb ∉ ns.map (·.2.2)) (o : Option Tcb) :
    Holds (h.setTcb tcb o) T t ns := by
  refine ⟨hh.notNull, hh.table, hh.nodes, hh.sorted, hh.below, hh.size, fun x hx => ?_⟩
  have hne : x.2.2 ≠ tcb := by
    rintro rfl
    exact htcb (List.mem_map_of_mem hx)
  rw [Heap.setTcb_tcb, Function.update_of_ne hne]
  exact hh.handles x hx

/-- No TCB has two nodes. -/
theorem Holds.nodup (hh : Holds h T t ns) : (ns.map (·.2.2)).Nodup := by
  have haddr := linked_nodup hh.nodes
  rw [List.Nodup, List.pairwise_map] at haddr ⊢
  refine haddr.imp_of_mem ?_
  intro x y hx hy hne heq
  obtain ⟨c, hc, hcx⟩ := hh.handles x hx
  obtain ⟨d, hd, hdy⟩ := hh.handles y hy
  rw [heq, hd] at hc
  cases hc
  exact hne (hcx.symm.trans hdy)

theorem put_ok (hT : T ≠ NULL) (htcb : tcb ≠ NULL) (hhandle : handle ≠ NULL)
    (ht : h.table T = some t) (hc : h.tcb tcb = some c) (hnone : c.handle = NULL) :
    put_tcb T tcb handle h = .ok (0, (((h.setTcb tcb (some { c with tid := t.max_id })).setHandle
      handle (some ⟨tcb, t.max_id, t.head⟩)).setTable T ⟨handle, t.max_id + 1, t.size + 1⟩).setTcb
      tcb (some ⟨t.max_id, handle⟩)) := by
  unfold put_tcb
  rw [run_ite, if_neg (by simp [hT, htcb]), run_ite, if_neg hhandle, run_bind, run_deref ht, ok_bind,
    run_bind, run_deref hc]
  simp [hnone]

theorem Holds.put (hh : Holds h T t ns) (htcb : tcb ≠ NULL) (hhandle : handle ≠ NULL)
    (hfresh : h.handle handle = none) (hc : h.tcb tcb = some c) (hnone : c.handle = NULL)
    (hnew : tcb ∉ ns.map (·.2.2)) (hroom : t.max_id.toNat + 1 < 2 ^ 64) :
    ∃ h', put_tcb T tcb handle h = .ok (0, h') ∧
      Holds h' T ⟨handle, t.max_id + 1, t.size + 1⟩ ((handle, t.max_id, tcb) :: ns) ∧
      h'.tcb tcb = some ⟨t.max_id, handle⟩ ∧ (∀ p, p ≠ tcb → h'.tcb p = h.tcb p) ∧
      ∀ p, p ≠ handle → h'.handle p = h.handle p := by
  have htcbs : ∀ p, p ≠ tcb → Function.update (Function.update h.tcb tcb
      (some { c with tid := t.max_id })) tcb (some ⟨t.max_id, handle⟩) p = h.tcb p := by
    intro p hp
    rw [Function.update_of_ne hp, Function.update_of_ne hp]
  refine ⟨_, put_ok hh.notNull htcb hhandle hh.table hc hnone, ?_, Function.update_self _ _ _, htcbs,
    fun p hp => Function.update_of_ne hp _ _⟩
  have hnot : handle ∉ ns.map Prod.fst := fun hmem => (linked_mem_fst hh.nodes hmem).2 hfresh
  have hle : ∀ {id : Id}, id < t.max_id → id < t.max_id + 1 := by
    intro id hlt
    bv_omega
  refine ⟨hh.notNull, Function.update_self _ _ _, ?_, ?_, ?_, ?_, ?_⟩
  · exact ⟨rfl, hhandle, _, Function.update_self _ _ _, rfl, linked_update hnot hh.nodes⟩
  · exact List.pairwise_cons.mpr ⟨hh.below, hh.sorted⟩
  · rw [List.forall_mem_cons]
    refine ⟨by bv_omega, fun x hx => hle (hh.below x hx)⟩
  · rw [hh.size, List.length_cons, BitVec.ofNat_add]
    rfl
  · rw [List.forall_mem_cons]
    refine ⟨⟨_, Function.update_self _ _ _, rfl⟩, fun x hx => ?_⟩
    have hne : x.2.2 ≠ tcb := by
      rintro rfl
      exact hnew (List.mem_map_of_mem hx)
    obtain ⟨d, hd, hdx⟩ := hh.handles x hx
    exact ⟨d, (htcbs _ hne).trans hd, hdx⟩

theorem pop_empty (hh : Holds h T t []) : pop_tcb T h = .ok (NULL, h) := by
  have hhead : t.head = NULL := hh.nodes
  unfold pop_tcb
  rw [run_ite, if_neg hh.notNull, run_bind, run_deref hh.table, ok_bind, run_ite, if_pos hhead]
  rfl

theorem pop_ok {e : Handle} (hT : T ≠ NULL) (ht : h.table T = some t) (hhead : t.head ≠ NULL)
    (he : h.handle t.head = some e) (hc : h.tcb e.tcb = some c) :
    pop_tcb T h = .ok (e.tcb, ((h.setTcb e.tcb (some { c with handle := NULL })).setTable T
      { t with head := e.next, size := t.size - 1 }).setHandle t.head none) := by
  unfold pop_tcb
  rw [run_ite, if_neg hT, run_bind, run_deref ht, ok_bind, run_ite, if_neg hhead, run_bind,
    run_deref he, ok_bind, run_bind, run_deref hc]
  rfl

variable (xs) in
/-- The rest of the nodes, when one has been taken out. -/
theorem Holds.rest {next : Ptr} (hh : Holds h T t (xs ++ (a, id, tcb) :: ys))
    (ht : h'.table T = some { t with head := next, size := t.size - 1 })
    (hl : Nodes h' next (xs ++ ys) NULL)
    (hsame : ∀ p, p ≠ tcb → h'.tcb p = h.tcb p) :
    Holds h' T { t with head := next, size := t.size - 1 } (xs ++ ys) := by
  have hsub : (xs ++ ys).Sublist (xs ++ (a, id, tcb) :: ys) :=
    List.Sublist.append_left (List.sublist_cons_self _ _) xs
  refine ⟨hh.notNull, ht, hl, hh.sorted.sublist hsub, fun x hx => hh.below x (hsub.subset hx), ?_,
    fun x hx => ?_⟩
  · have hlen : (xs ++ (a, id, tcb) :: ys).length = (xs ++ ys).length + 1 := by
      simp
      omega
    rw [hh.size, hlen, BitVec.ofNat_add]
    simp
  · have hnd := hh.nodup
    rw [List.map_append, List.map_cons, List.nodup_middle, List.nodup_cons, ← List.map_append] at hnd
    have hne : x.2.2 ≠ tcb := by
      rintro rfl
      have hmem : x.2.2 ∈ (xs ++ ys).map (·.2.2) := List.mem_map_of_mem hx
      exact hnd.1 hmem
    rw [hsame _ hne]
    exact hh.handles x (hsub.subset hx)

theorem Holds.pop (hh : Holds h T t ((a, id, tcb) :: ns)) :
    ∃ h' t', pop_tcb T h = .ok (tcb, h') ∧ Holds h' T t' ns ∧ t'.max_id = t.max_id ∧
      ∃ c, h'.tcb tcb = some c ∧ c.handle = NULL := by
  have hnd := linked_nodup hh.nodes
  rw [List.map_cons, List.nodup_cons] at hnd
  obtain ⟨hhead, ha, e, he, hmember, hl⟩ := hh.nodes
  obtain ⟨rfl, rfl⟩ := Prod.mk.inj hmember
  obtain ⟨c, hc, -⟩ := hh.handles _ List.mem_cons_self
  rw [← hhead] at ha he hnd
  refine ⟨_, { t with head := e.next, size := t.size - 1 }, pop_ok hh.notNull hh.table ha he hc, ?_,
    rfl, _, Function.update_self _ _ _, rfl⟩
  refine Holds.rest [] hh (Function.update_self _ _ _) (linked_update hnd.1 hl) ?_
  intro p hp
  exact Function.update_of_ne hp _ _

/-! ## `remove_tcb` -/

/-- The nodes before one with the id. -/
theorem takeWhile_above (hs : (xs ++ (a, id, tcb) :: ys).Pairwise fun x y => y.2.1 < x.2.1) :
    (xs ++ (a, id, tcb) :: ys).takeWhile (above id) = xs ∧
      (xs ++ (a, id, tcb) :: ys).dropWhile (above id) = (a, id, tcb) :: ys := by
  have habove : ∀ x ∈ xs, above id x = true := by
    intro x hx
    exact decide_eq_true ((List.pairwise_append.mp hs).2.2 x hx _ List.mem_cons_self)
  have hself : ¬ above id (a, id, tcb) = true := by simp [above]
  constructor
  · rw [List.takeWhile_append_of_pos habove, List.takeWhile_cons_of_neg hself, List.append_nil]
  · rw [List.dropWhile_append_of_pos habove, List.dropWhile_cons_of_neg hself]

theorem remove_no_handle (hT : T ≠ NULL) (htcb : tcb ≠ NULL) (hc : h.tcb tcb = some c)
    (hnone : c.handle = NULL) : remove_tcb n T tcb h = .ok (-1, h) := by
  unfold remove_tcb
  rw [run_ite, if_neg (by simp [hT, htcb]), run_bind, run_deref hc, ok_bind, run_ite, if_pos hnone]
  rfl

/-- The end of `remove_tcb`, when it has found the node. -/
def unlinkNode (T tcb prev ptr : Ptr) (t : Table) (c : Tcb) (e : Handle) : M Int := do
  writeTcb tcb { c with handle := NULL }
  if prev = NULL then
    writeTable T { t with head := e.next, size := t.size - 1 }
  else
    setNext prev e.next
    writeTable T { t with size := t.size - 1 }
  free ptr
  return 0

theorem remove_found {e : Handle} {prev : Ptr} (hT : T ≠ NULL) (htcb : tcb ≠ NULL)
    (hc : h.tcb tcb = some c) (hhandle : c.handle ≠ NULL) (he : h.handle c.handle = some e)
    (ht : h.table T = some t) (hwalk : walk n t.head e.id h = .ok ((prev, c.handle), h)) :
    remove_tcb n T tcb h = unlinkNode T tcb prev c.handle t c e h := by
  unfold remove_tcb
  rw [run_ite, if_neg (by simp [hT, htcb]), run_bind, run_deref hc, ok_bind, run_ite, if_neg hhandle,
    run_bind, run_deref he, ok_bind, run_bind, run_deref ht, ok_bind, run_bind, hwalk, ok_bind]
  dsimp only
  rw [run_ite, if_neg hhandle, run_bind, run_deref he, ok_bind, run_ite, if_neg (by simp)]
  rfl

theorem unlink_first {e : Handle} {ptr : Ptr} : unlinkNode T tcb NULL ptr t c e h = .ok (0,
    ((h.setTcb tcb (some { c with handle := NULL })).setTable T
      { t with head := e.next, size := t.size - 1 }).setHandle ptr none) := rfl

theorem unlink_inner {e d : Handle} {prev ptr : Ptr} (hprev : prev ≠ NULL)
    (hd : h.handle prev = some d) : unlinkNode T tcb prev ptr t c e h = .ok (0,
      (((h.setTcb tcb (some { c with handle := NULL })).setHandle prev
        (some { d with next := e.next })).setTable T { t with size := t.size - 1 }).setHandle ptr
        none) := by
  have hd' : (h.setTcb tcb (some { c with handle := NULL })).handle prev = some d := hd
  unfold unlinkNode setNext
  rw [run_bind, run_writeTcb, ok_bind, run_ite, if_neg hprev, run_bind, run_bind, run_deref hd']
  rfl

theorem Holds.remove (hh : Holds h T t (xs ++ (a, id, tcb) :: ys)) (htcb : tcb ≠ NULL)
    (hn : (xs ++ (a, id, tcb) :: ys).length < n) :
    ∃ h' t', remove_tcb n T tcb h = .ok (0, h') ∧ Holds h' T t' (xs ++ ys) ∧ t'.max_id = t.max_id ∧
      ∃ c, h'.tcb tcb = some c ∧ c.handle = NULL := by
  obtain ⟨c, hc, rfl⟩ := hh.handles (a, id, tcb) (by simp)
  obtain ⟨htake, hdrop⟩ := takeWhile_above hh.sorted
  obtain ⟨q, hwalk, hkeep, hrest⟩ := run_walk id hh.nodes hn
  rw [htake] at hwalk hkeep
  rw [hdrop] at hrest
  obtain ⟨rfl, hq, e, he, hmember, hl⟩ := hrest
  obtain ⟨rfl, rfl⟩ := Prod.mk.inj hmember
  rw [remove_found hh.notNull htcb hc hq he hh.table hwalk]
  have hnodes := hh.nodes
  rcases List.eq_nil_or_concat xs with rfl | ⟨ms, ⟨p, m⟩, rfl⟩
  · have hnd := linked_nodup hnodes
    rw [List.nil_append, List.map_cons, List.nodup_cons] at hnd
    refine ⟨_, { t with head := e.next, size := t.size - 1 }, unlink_first, ?_, rfl, _,
      Function.update_self _ _ _, rfl⟩
    refine Holds.rest [] hh (Function.update_self _ _ _) (linked_update hnd.1 hl) ?_
    exact fun p hp => Function.update_of_ne hp _ _
  · rw [List.concat_eq_append] at *
    obtain ⟨hp, d, hd, hm⟩ := linked_mem hkeep (by simp : (p, m) ∈ ms ++ [(p, m)])
    rw [lastAddr_concat]
    refine ⟨_, { t with head := t.head, size := t.size - 1 }, unlink_inner hp hd, ?_, rfl, _,
      Function.update_self _ _ _, rfl⟩
    have hm' : Handle.member { d with next := e.next } = m := hm
    refine Holds.rest _ hh (Function.update_self _ _ _) (linked_take_out hnodes he hm' rfl) ?_
    exact fun p hp => Function.update_of_ne hp _ _

/-- What is left in the list is what is left in the list of the rest of the model. -/
theorem unlink_asHandles (hs : (xs ++ (a, id, tcb) :: ys).Pairwise fun x y => y.2.1 < x.2.1) :
    Threads.unlink id.toNat (asHandles (xs ++ (a, id, tcb) :: ys)) = asHandles (xs ++ ys) := by
  obtain ⟨htake, hdrop⟩ := takeWhile_above hs
  have hfun : ∀ ns : List Node, (asHandles ns).takeWhile (fun ptr => ptr.id > id.toNat) =
      asHandles (ns.takeWhile (above id)) ∧ (asHandles ns).dropWhile (fun ptr => ptr.id > id.toNat) =
      asHandles (ns.dropWhile (above id)) := by
    intro ns
    unfold asHandles
    rw [List.takeWhile_map, List.dropWhile_map]
    exact ⟨rfl, rfl⟩
  unfold Threads.unlink
  rw [(hfun _).1, (hfun _).2, htake, hdrop]
  simp [asHandles]

end

end Cs720.Threads.Tables
