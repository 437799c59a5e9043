import Cs720.Lib.Interleave
import Cs720.Threads.ThreadTable

/-! # Runs of the table on the heap -/

namespace Cs720.Threads.Tables

open Cs720.Lib

/-- `malloc` gives `handle`, the loop of `remove_tcb` has the budget `n`, and a caller allocates,
writes or frees a TCB. -/
inductive Op where
  | put (tcb handle : Ptr)
  | remove (tcb : Ptr) (n : Nat)
  | pop
  | caller (tcb : Ptr) (c : Option Tcb)

/-- The threads in the table, and all ids that `put_tcb` has given, the last one first. -/
structure World where
  heap : Heap
  members : List (Id × Ptr)
  given : List Id

def World.enter (w : World) (h : Heap) (tcb : Ptr) : World :=
  let id := ((h.tcb tcb).map Tcb.tid).getD 0
  ⟨h, (id, tcb) :: w.members, id :: w.given⟩

def World.leave (w : World) (h : Heap) (tcb : Ptr) : World :=
  { w with heap := h, members := w.members.eraseP fun m => m.2 = tcb }

def step (T : Ptr) (op : Op) (w : World) : C World :=
  match op with
  | .put tcb handle => do
    let (r, h) ← put_tcb T tcb handle w.heap
    return if r = 0 then w.enter h tcb else { w with heap := h }
  | .remove tcb n => do
    let (r, h) ← remove_tcb n T tcb w.heap
    return if r = 0 then w.leave h tcb else { w with heap := h }
  | .pop => do
    let (tcb, h) ← pop_tcb T w.heap
    return w.leave h tcb
  | .caller tcb c => return { w with heap := w.heap.setTcb tcb c }

def World.Free (w : World) (tcb : Ptr) : Prop :=
  tcb ∉ w.members.map Prod.snd ∧ ∃ c, w.heap.tcb tcb = some c ∧ c.handle = NULL

/-- What callers and `malloc` guarantee. -/
def Allowed (op : Op) (w : World) : Prop :=
  match op with
  | .put tcb handle => (tcb = NULL ∨ w.Free tcb) ∧ (handle = NULL ∨ w.heap.handle handle = none)
  | .remove tcb n =>
    (tcb = NULL ∨ tcb ∈ w.members.map Prod.snd ∨ w.Free tcb) ∧ w.members.length < n
  | .pop => True
  | .caller tcb _ => tcb ∉ w.members.map Prod.snd

def Room (op : Op) (w : World) : Prop :=
  match op with
  | .put _ _ => w.given.length + 1 < 2 ^ 64 ∧ w.members.length + 1 < 2 ^ 31
  | _ => True

structure TableOk (T : Ptr) (w : World) (t : Table) (ns : List Node) : Prop where
  table : w.heap.table T = some t
  nodes : Nodes w.heap t.head ns NULL
  members : ns.map Prod.snd = w.members
  decreasing : w.members.Pairwise fun x y => y.1 < x.1
  below : ∀ m ∈ w.members, m.1 < t.max_id
  given : w.given.Nodup
  size : t.size.toInt = w.members.length
  handles : ∀ x ∈ ns, ∃ c, w.heap.tcb x.2.2 = some c ∧ c.handle = x.1
  found : ∀ m ∈ w.members, ∀ n, w.members.length < n →
    get_tcb_by_id n T m.1 w.heap = .ok (m.2, w.heap)
  missing : ∀ id, (∀ m ∈ w.members, m.1 ≠ id) → ∀ n, w.members.length < n →
    get_tcb_by_id n T id w.heap = .ok (NULL, w.heap)

/-- The invariant. The ids that have been given are those below `max_id`. -/
structure Inv (T : Ptr) (w : World) (t : Table) (ns : List Node) : Prop where
  holds : Holds w.heap T t ns
  members : ns.map Prod.snd = w.members
  count : t.max_id = BitVec.ofNat 64 w.given.length
  given : w.given.Nodup
  past : ∀ id ∈ w.given, id < t.max_id
  notNull : ∀ x ∈ ns, x.2.2 ≠ NULL

section
variable {T tcb handle : Ptr} {w w' : World} {t : Table} {ns : List Node} {op : Op} {ops : List Op}
  {n : Nat} {e : Stop}

theorem Inv.length (hi : Inv T w t ns) : w.members.length = ns.length := by
  rw [← hi.members, List.length_map]

theorem Inv.tcbs (hi : Inv T w t ns) : w.members.map Prod.snd = ns.map (·.2.2) := by
  rw [← hi.members, List.map_map]
  rfl

theorem Inv.ok (hi : Inv T w t ns) (hsize : w.members.length < 2 ^ 31) : TableOk T w t ns := by
  have hget : ∀ id n, w.members.length < n → get_tcb_by_id n T id w.heap = _ := fun id n hn =>
    get_as_list hi.holds.table hi.holds.nodes (hi.length ▸ hn)
  have hsorted : Threads.Sorted (asHandles ns) := List.pairwise_map.mpr hi.holds.sorted
  refine ⟨hi.holds.table, hi.holds.nodes, hi.members, ?_, ?_, hi.given, ?_, hi.holds.handles, ?_, ?_⟩
  · rw [← hi.members, List.pairwise_map]
    exact hi.holds.sorted
  · rw [← hi.members, List.forall_mem_map]
    exact hi.holds.below
  · rw [hi.holds.size, ← hi.length]
    rw [BitVec.toInt_eq_toNat_of_lt (by rw [BitVec.toNat_ofNat]; omega), BitVec.toNat_ofNat]
    omega
  · intro m hm n hn
    rw [hget m.1 n hn]
    rw [← hi.members] at hm
    obtain ⟨x, hx, rfl⟩ := List.mem_map.mp hm
    have hmem : (⟨x.1, x.2.2, x.2.1.toNat⟩ : Threads.Handle) ∈ asHandles ns :=
      List.mem_map_of_mem (f := fun n : Node => (⟨n.1, n.2.2, n.2.1.toNat⟩ : Threads.Handle)) hx
    rw [(Threads.search_iff hsorted).mpr ⟨hmem, rfl⟩]
    rfl
  · intro id hid n hn
    rw [hget id n hn]
    have hnone : Threads.search id.toNat (asHandles ns) = none := by
      rw [Threads.search_none hsorted]
      unfold asHandles
      rw [List.forall_mem_map]
      intro x hx heq
      refine hid x.2 ?_ (BitVec.eq_of_toNat_eq heq)
      rw [← hi.members]
      exact List.mem_map_of_mem hx
    rw [hnone]
    rfl

theorem Inv.leave {h : Heap} {a : Ptr} {id : Id} (xs : List Node) {ys : List Node} {t' : Table}
    (hi : Inv T w t (xs ++ (a, id, tcb) :: ys)) (hh : Holds h T t' (xs ++ ys))
    (hmax : t'.max_id = t.max_id) : Inv T (w.leave h tcb) t' (xs ++ ys) := by
  have hnd := hi.holds.nodup
  rw [List.map_append, List.map_cons, List.nodup_append] at hnd
  have hxs : ∀ m ∈ xs.map Prod.snd, ¬ decide (m.2 = tcb) = true := by
    rw [List.forall_mem_map]
    intro x hx heq
    have hmem : x.2.2 ∈ xs.map (·.2.2) := List.mem_map_of_mem hx
    exact hnd.2.2 _ hmem _ List.mem_cons_self (of_decide_eq_true heq)
  have hmembers : (xs ++ ys).map Prod.snd = w.members.eraseP fun m => m.2 = tcb := by
    rw [← hi.members, List.map_append, List.map_append, List.map_cons,
      List.eraseP_append_right _ hxs, List.eraseP_cons_of_pos (by simp)]
  refine ⟨hh, hmembers, hmax.trans hi.count, hi.given, ?_, fun x hx => hi.notNull x ?_⟩
  · rw [hmax]
    exact hi.past
  · rw [List.mem_append] at hx ⊢
    exact hx.imp_right (List.mem_cons_of_mem _)

theorem length_leave (h : Heap) : (w.leave h tcb).members.length ≤ w.members.length :=
  List.length_eraseP_le

def Op.adds : Op → Nat
  | .put _ _ => 1
  | _ => 0

/-- The operation ends with the invariant, or for lack of memory. -/
def Serves (T : Ptr) (op : Op) (w : World) : Prop :=
  step T op w = .error (.exit (-1)) ∨ ∃ w' t ns, step T op w = .ok w' ∧ Inv T w' t ns ∧
    w'.members.length ≤ w.members.length + op.adds

theorem Inv.put (hi : Inv T w t ns) (hnull : tcb ≠ NULL) (hhandle : handle ≠ NULL)
    (hfresh : w.heap.handle handle = none) (hfree : w.Free tcb) (hroom : w.given.length + 1 < 2 ^ 64) :
    ∃ w' t', step T (.put tcb handle) w = .ok w' ∧ Inv T w' t' ((handle, t.max_id, tcb) :: ns) ∧
      w'.members.map Prod.snd = tcb :: w.members.map Prod.snd ∧
      w'.given.length = w.given.length + 1 ∧ (∀ p, p ≠ tcb → w'.heap.tcb p = w.heap.tcb p) ∧
      ∀ p, p ≠ handle → w'.heap.handle p = w.heap.handle p := by
  obtain ⟨hnew, c, hc, hnone⟩ := hfree
  rw [hi.tcbs] at hnew
  have hmax : t.max_id.toNat = w.given.length := by
    rw [hi.count, BitVec.toNat_ofNat]
    omega
  obtain ⟨h', hrun, hh, htid, htcbs, hhandles⟩ :=
    hi.holds.put hnull hhandle hfresh hc hnone hnew (by omega)
  have henter : w.enter h' tcb = ⟨h', (t.max_id, tcb) :: w.members, t.max_id :: w.given⟩ := by
    unfold World.enter
    rw [htid]
    rfl
  have hstep : step T (.put tcb handle) w = .ok (w.enter h' tcb) := by
    unfold Tables.step
    dsimp only
    rw [hrun, ok_bind]
    rfl
  rw [henter] at hstep
  refine ⟨_, ⟨handle, t.max_id + 1, t.size + 1⟩, hstep, ⟨hh, ?_, ?_, ?_, ?_, ?_⟩, rfl, rfl, htcbs,
    hhandles⟩
  · rw [List.map_cons, hi.members]
  · rw [hi.count, List.length_cons, BitVec.ofNat_add]
    rfl
  · exact List.nodup_cons.mpr ⟨fun hmem => BitVec.lt_irrefl _ (hi.past _ hmem), hi.given⟩
  · rw [List.forall_mem_cons]
    refine ⟨by bv_omega, fun id hid => ?_⟩
    have hlt := hi.past id hid
    bv_omega
  · rw [List.forall_mem_cons]
    exact ⟨hnull, hi.notNull⟩

theorem serves_put (hi : Inv T w t ns) (ha : Allowed (.put tcb handle) w)
    (hroom : w.given.length + 1 < 2 ^ 64) : Serves T (.put tcb handle) w := by
  obtain ⟨htcb, hhandle⟩ := ha
  by_cases hnull : tcb = NULL
  · have hrun : put_tcb T tcb handle w.heap = .ok (-1, w.heap) := by
      unfold put_tcb
      rw [run_ite, if_pos (Or.inr hnull)]
      rfl
    refine Or.inr ⟨w, t, ns, ?_, hi, Nat.le_succ _⟩
    unfold Tables.step
    dsimp only
    rw [hrun, ok_bind]
    rfl
  by_cases hmalloc : handle = NULL
  · refine Or.inl ?_
    have hrun : put_tcb T tcb handle w.heap = .error (.exit (-1)) := by
      unfold put_tcb
      rw [run_ite, if_neg (by simp [hi.holds.notNull, hnull]), run_ite, if_pos hmalloc]
      rfl
    unfold Tables.step
    dsimp only
    rw [hrun, error_bind]
  obtain ⟨w', t', hstep, hi', hmembers, -⟩ :=
    hi.put hnull hmalloc (hhandle.resolve_left hmalloc) (htcb.resolve_left hnull) hroom
  refine Or.inr ⟨w', t', _, hstep, hi', ?_⟩
  rw [← List.length_map (f := Prod.snd), hmembers, List.length_cons, List.length_map]
  exact Nat.le_refl _

theorem serves_pop (hi : Inv T w t ns) : Serves T .pop w := by
  right
  cases ns with
  | nil =>
    have hmembers : w.members = [] := hi.members.symm
    have hleave : w.leave w.heap NULL = w := by
      unfold World.leave
      rw [hmembers, List.eraseP_nil, ← hmembers]
    refine ⟨w, t, [], ?_, hi, Nat.le_refl _⟩
    unfold Tables.step
    dsimp only
    rw [pop_empty hi.holds, ok_bind]
    exact congrArg Except.ok hleave
  | cons x ns =>
    obtain ⟨a, id, tcb⟩ := x
    obtain ⟨h', t', hrun, hh, hmax, -⟩ := hi.holds.pop
    refine ⟨w.leave h' tcb, t', ns, ?_, Inv.leave [] hi hh hmax, length_leave h'⟩
    unfold Tables.step
    dsimp only
    rw [hrun, ok_bind]
    rfl

theorem serves_remove (hi : Inv T w t ns) (ha : Allowed (.remove tcb n) w) :
    Serves T (.remove tcb n) w := by
  right
  obtain ⟨htcb, hn⟩ := ha
  have hno : remove_tcb n T tcb w.heap = .ok (-1, w.heap) → step T (.remove tcb n) w = .ok w := by
    intro hrun
    unfold Tables.step
    dsimp only
    rw [hrun, ok_bind]
    rfl
  by_cases hnull : tcb = NULL
  · refine ⟨w, t, ns, hno ?_, hi, Nat.le_refl _⟩
    unfold remove_tcb
    rw [run_ite, if_pos (Or.inr hnull)]
    rfl
  rcases htcb.resolve_left hnull with hmem | ⟨-, c, hc, hnone⟩
  · rw [hi.tcbs] at hmem
    obtain ⟨⟨a, id, _⟩, hx, rfl⟩ := List.mem_map.mp hmem
    obtain ⟨xs, ys, rfl⟩ := List.append_of_mem hx
    rw [hi.length] at hn
    obtain ⟨h', t', hrun, hh, hmax, -⟩ := hi.holds.remove hnull hn
    refine ⟨w.leave h' _, t', xs ++ ys, ?_, Inv.leave xs hi hh hmax, length_leave h'⟩
    unfold Tables.step
    dsimp only
    rw [hrun, ok_bind]
    rfl
  · exact ⟨w, t, ns, hno (remove_no_handle hi.holds.notNull hnull hc hnone), hi, Nat.le_refl _⟩

theorem serves_caller {c : Option Tcb} (hi : Inv T w t ns) (ha : Allowed (.caller tcb c) w) :
    Serves T (.caller tcb c) w := by
  have hnot : tcb ∉ ns.map (·.2.2) := hi.tcbs ▸ ha
  exact Or.inr ⟨_, t, ns, rfl,
    ⟨hi.holds.setTcb hnot c, hi.members, hi.count, hi.given, hi.past, hi.notNull⟩, Nat.le_refl _⟩

theorem serves (hi : Inv T w t ns) (ha : Allowed op w)
    (hroom : op.adds = 1 → w.given.length + 1 < 2 ^ 64) : Serves T op w := by
  cases op with
  | put tcb handle => exact serves_put hi ha (hroom rfl)
  | remove tcb n => exact serves_remove hi ha
  | pop => exact serves_pop hi
  | caller tcb c => exact serves_caller hi ha

theorem inv_init {h : Heap} (hT : T ≠ NULL) :
    Inv T ⟨h.setTable T ⟨NULL, 0, 0⟩, [], []⟩ ⟨NULL, 0, 0⟩ [] :=
  ⟨(holds_init hT).2, rfl, rfl, .nil, by simp, by simp⟩

/-- With fewer than 2^64 calls of `put_tcb` and fewer than 2^31 threads in it at a time, the table is
right in every state of a run, unless there is no memory for a handle. -/
theorem table_ok {h₀ h : Heap} (hinit : init_table T h₀ = .ok (0, h))
    (hallowed : Along (step T) Allowed ops ⟨h, [], []⟩)
    (hroom : Along (step T) Room ops ⟨h, [], []⟩) :
    playFrom (step T) ops ⟨h, [], []⟩ = .error (.exit (-1)) ∨
      ∃ w, playFrom (step T) ops ⟨h, [], []⟩ = .ok w ∧ ∃ t ns, TableOk T w t ns := by
  have hT : T ≠ NULL := by
    rintro rfl
    cases hinit
  rw [(holds_init hT).1] at hinit
  obtain rfl : h₀.setTable T ⟨NULL, 0, 0⟩ = h := (Prod.mk.inj (Except.ok.inj hinit)).2
  have hstep : ∀ op w, (w.members.length < 2 ^ 31 ∧ ∃ t ns, Inv T w t ns) →
      (Allowed op w ∧ Room op w) → step T op w = .error (.exit (-1)) ∨
        ∃ w', step T op w = .ok w' ∧ w'.members.length < 2 ^ 31 ∧ ∃ t ns, Inv T w' t ns := by
    rintro op w ⟨hsize, t, ns, hi⟩ ⟨ha, hr⟩
    have hput : op.adds = 1 → w.given.length + 1 < 2 ^ 64 ∧ w.members.length + 1 < 2 ^ 31 := by
      intro hadds
      cases op with
      | put => exact hr
      | _ => cases hadds
    have hadds : op.adds = 1 ∨ op.adds = 0 := by
      cases op with
      | put => exact Or.inl rfl
      | _ => exact Or.inr rfl
    rcases serves hi ha fun hadds => (hput hadds).1 with he | ⟨w', t', ns', hs, hi', hlen⟩
    · exact Or.inl he
    · refine Or.inr ⟨w', hs, ?_, t', ns', hi'⟩
      rcases hadds with hadds | hadds
      · have := (hput hadds).2
        omega
      · omega
  have hstart : ([] : List (Id × Ptr)).length < 2 ^ 31 ∧
      ∃ t ns, Inv T ⟨h₀.setTable T ⟨NULL, 0, 0⟩, [], []⟩ t ns :=
    ⟨Nat.two_pow_pos 31, _, _, inv_init hT⟩
  rcases playFrom_stops hstep hstart (along_and hallowed hroom) with he | ⟨w, hw, hsize, t, ns, hi⟩
  · exact Or.inl he
  · exact Or.inr ⟨w, hw, t, ns, hi.ok hsize⟩

def freeTcbs : Heap := ⟨fun _ => none, fun _ => some ⟨0, NULL⟩, fun _ => none⟩

theorem table_ok_two : ∃ h w t ns, init_table 1 freeTcbs = .ok (0, h) ∧
    playFrom (step 1) [.put 2 3, .put 4 5, .remove 2 3, .pop] ⟨h, [], []⟩ = .ok w ∧
    w.given = [1, 0] ∧ TableOk 1 w t ns := by
  have hallowed : Along (step 1) Allowed [.put 2 3, .put 4 5, .remove 2 3, .pop]
      ⟨freeTcbs.setTable 1 ⟨NULL, 0, 0⟩, [], []⟩ := by
    refine ⟨⟨Or.inr ⟨by simp, _, rfl, rfl⟩, Or.inr rfl⟩, fun w₁ h₁ => ?_⟩
    cases h₁
    refine ⟨⟨Or.inr ⟨by decide, _, rfl, rfl⟩, Or.inr rfl⟩, fun w₂ h₂ => ?_⟩
    cases h₂
    exact ⟨⟨Or.inr (Or.inl (by decide)), by decide⟩, fun _ _ => ⟨trivial, fun _ _ => trivial⟩⟩
  have hroom : Along (step 1) Room [.put 2 3, .put 4 5, .remove 2 3, .pop]
      ⟨freeTcbs.setTable 1 ⟨NULL, 0, 0⟩, [], []⟩ := by
    refine ⟨⟨by decide, by decide⟩, fun w₁ h₁ => ?_⟩
    cases h₁
    exact ⟨⟨by decide, by decide⟩, fun _ _ => ⟨trivial, fun _ _ => ⟨trivial, fun _ _ => trivial⟩⟩⟩
  have hinit : init_table 1 freeTcbs = .ok (0, freeTcbs.setTable 1 ⟨NULL, 0, 0⟩) := rfl
  rcases table_ok hinit hallowed hroom with he | ⟨w, hw, t, ns, hok⟩
  · cases he
  · refine ⟨_, w, t, ns, rfl, hw, ?_, hok⟩
    cases hw
    rfl

/-! ## Too many threads -/

def puts : Nat → Nat → List Op
  | _, 0 => []
  | i, k + 1 => .put (2 * i + 2) (2 * i + 3) :: puts (i + 1) k

theorem puts_run (k i : Nat) (hi : Inv T w t ns)
    (hfree : ∀ j, i ≤ j → w.Free (2 * j + 2) ∧ w.heap.handle (2 * j + 3) = none)
    (hk : w.given.length + k < 2 ^ 64) :
    Along (step T) Allowed (puts i k) w ∧ ∃ w' t' ns', playFrom (step T) (puts i k) w = .ok w' ∧
      Inv T w' t' ns' ∧ w'.members.length = w.members.length + k := by
  induction k generalizing i w t ns with
  | zero => exact ⟨trivial, w, t, ns, rfl, hi, rfl⟩
  | succ k ih =>
    obtain ⟨hf, hh⟩ := hfree i (Nat.le_refl i)
    obtain ⟨w₁, t₁, hstep, hi₁, hmembers, hgiven, htcb, hhandle⟩ :=
      hi.put (Nat.succ_ne_zero _) (Nat.succ_ne_zero _) hh hf (by omega)
    have hfree₁ : ∀ j, i + 1 ≤ j → w₁.Free (2 * j + 2) ∧ w₁.heap.handle (2 * j + 3) = none := by
      intro j hj
      obtain ⟨⟨hnot, c, hc, hnone⟩, hnew⟩ := hfree j (by omega)
      have hne : 2 * j + 2 ≠ 2 * i + 2 := by omega
      have hne' : 2 * j + 3 ≠ 2 * i + 3 := by omega
      refine ⟨⟨?_, c, ?_, hnone⟩, ?_⟩
      · rw [hmembers, List.mem_cons, not_or]
        exact ⟨hne, hnot⟩
      · rw [htcb _ hne, hc]
      · rw [hhandle _ hne', hnew]
    obtain ⟨hallowed, w', t', ns', hplay, hi', hlen⟩ := ih (i + 1) hi₁ hfree₁ (by omega)
    refine ⟨⟨⟨Or.inr hf, Or.inr hh⟩, fun w₂ h₂ => ?_⟩, w', t', ns', ?_, hi', ?_⟩
    · rw [hstep] at h₂
      cases h₂
      exact hallowed
    · rw [puts, playFrom, hstep]
      exact hplay
    · have hone := congrArg List.length hmembers
      simp only [List.length_map, List.length_cons] at hone
      omega

/-- With 2^31 threads in the table its size is negative. -/
theorem table_overflows : ∃ h ops w, init_table 1 freeTcbs = .ok (0, h) ∧
    Along (step 1) Allowed ops ⟨h, [], []⟩ ∧ playFrom (step 1) ops ⟨h, [], []⟩ = .ok w ∧
    w.members.length = 2 ^ 31 ∧ ¬ ∃ t ns, TableOk 1 w t ns := by
  have hfree : ∀ j, 0 ≤ j → World.Free ⟨freeTcbs.setTable 1 ⟨NULL, 0, 0⟩, [], []⟩ (2 * j + 2) ∧
      (freeTcbs.setTable 1 ⟨NULL, 0, 0⟩).handle (2 * j + 3) = none :=
    fun j _ => ⟨⟨by simp, _, rfl, rfl⟩, rfl⟩
  obtain ⟨hallowed, w, t, ns, hplay, hi, hlen⟩ :=
    puts_run (2 ^ 31) 0 (inv_init (by decide)) hfree (by decide)
  have hlen' : w.members.length = 2 ^ 31 := by
    rw [hlen]
    exact Nat.zero_add _
  refine ⟨_, _, w, rfl, hallowed, hplay, hlen', ?_⟩
  rintro ⟨t', ns', hok⟩
  have ht := hok.table
  rw [hi.holds.table] at ht
  cases ht
  have hsize := hok.size
  rw [hi.holds.size, ← hi.length, hlen'] at hsize
  exact absurd hsize (by decide)

end

end Cs720.Threads.Tables
