import Mathlib.Data.List.Pairwise
import Cs720.Threads.Exec

/-! # The table of threads (`A3/thread_table.c`) -/

namespace Cs720.Threads

open Cs720.Lib

/-! ## The list -/

section
variable {head : List Handle} {h : Handle} {target : Nat}

def Sorted (head : List Handle) : Prop := head.Pairwise fun a b => b.id < a.id

theorem search_cons {rest : List Handle} :
    search target (h :: rest) =
      if target < h.id then search target rest else if h.id = target then some h else none := by
  unfold search
  rw [List.dropWhile_cons]
  by_cases hlt : target < h.id
  · simp [hlt]
  · by_cases heq : h.id = target <;> simp [hlt, heq]

/-- The walk finds the handle with the id, if there is one. -/
theorem search_iff (hs : Sorted head) :
    search target head = some h ↔ h ∈ head ∧ h.id = target := by
  induction head with
  | nil => simp [search]
  | cons a rest ih =>
    have hrest : ∀ b ∈ rest, b.id < a.id := (List.pairwise_cons.mp hs).1
    rw [search_cons]
    split
    · rename_i hlt
      rw [ih hs.tail, List.mem_cons]
      constructor
      · exact fun hm => ⟨Or.inr hm.1, hm.2⟩
      · rintro ⟨rfl | hm, hid⟩
        · omega
        · exact ⟨hm, hid⟩
    · split
      · rename_i heq
        rw [Option.some_inj, List.mem_cons]
        constructor
        · rintro rfl
          exact ⟨Or.inl rfl, heq⟩
        · rintro ⟨rfl | hm, hid⟩
          · rfl
          · have := hrest h hm
            omega
      · rename_i hlt hne
        simp only [reduceCtorEq, List.mem_cons, false_iff, not_and]
        rintro (rfl | hm)
        · exact hne
        · have := hrest h hm
          omega

theorem search_none (hs : Sorted head) :
    search target head = none ↔ ∀ h ∈ head, h.id ≠ target := by
  rw [Option.eq_none_iff_forall_ne_some]
  constructor
  · exact fun hn h hm hid => hn h ((search_iff hs).mpr ⟨hm, hid⟩)
  · intro hn h hsome
    rw [search_iff hs] at hsome
    exact hn h hsome.1 hsome.2

theorem unlink_cons {rest : List Handle} :
    unlink target (h :: rest) = if target < h.id then h :: unlink target rest else rest := by
  unfold unlink
  rw [List.dropWhile_cons, List.takeWhile_cons]
  by_cases hlt : target < h.id <;> simp [hlt]

theorem unlink_sublist : (unlink target head).Sublist head := by
  induction head with
  | nil => simp [unlink]
  | cons a rest ih =>
    rw [unlink_cons]
    split
    · exact ih.cons_cons a
    · exact List.sublist_cons_self a rest

theorem mem_unlink (hs : Sorted head) (hh : h ∈ head) {b : Handle} :
    b ∈ unlink h.id head ↔ b ∈ head ∧ b ≠ h := by
  induction head with
  | nil => contradiction
  | cons a rest ih =>
    have hrest : ∀ b ∈ rest, b.id < a.id := (List.pairwise_cons.mp hs).1
    rw [unlink_cons]
    rcases List.mem_cons.mp hh with rfl | hm
    · rw [if_neg (Nat.lt_irrefl _), List.mem_cons]
      constructor
      · intro hb
        refine ⟨Or.inr hb, ?_⟩
        rintro rfl
        exact absurd (hrest b hb) (Nat.lt_irrefl _)
      · rintro ⟨rfl | hb, hne⟩
        · exact absurd rfl hne
        · exact hb
    · have hlt := hrest h hm
      rw [if_pos hlt, List.mem_cons, List.mem_cons, ih hs.tail hm]
      constructor
      · rintro (rfl | hb)
        · refine ⟨Or.inl rfl, ?_⟩
          rintro rfl
          exact absurd hlt (Nat.lt_irrefl _)
        · exact ⟨Or.inr hb.1, hb.2⟩
      · rintro ⟨rfl | hb, hne⟩
        · exact Or.inl rfl
        · exact Or.inr ⟨hb, hne⟩

end

/-! ## The table and the TCBs -/

/-- The table lists the TCBs that are not freed, each under its id. -/
structure TableOk (s : State) (T : Table) : Prop where
  table : s.all_threads = some T
  sorted : Sorted T.head
  addrs : T.head.Pairwise fun a b => a.addr ≠ b.addr
  entry : ∀ {h}, h ∈ T.head → s.live h.tcb = true ∧ (s.tcb h.tcb).tid = h.id ∧
    (s.tcb h.tcb).handle = h.addr ∧ h.id < T.max_id ∧ h.addr ≠ 0
  listed : ∀ {p}, s.live p = true → ∃ h ∈ T.head, h.tcb = p
  ne_zero : ∀ {p}, s.live p = true → p ≠ 0
  stack_live : ∀ {p}, s.live p = true → (s.tcb p).stack ≠ 0 →
    s.liveStack (s.tcb p).stack = true
  owned : ∀ {p q}, s.live p = true → s.live q = true → (s.tcb p).stack ≠ 0 →
    (s.tcb p).stack = (s.tcb q).stack → p = q

section
variable {s s₁ : State} {T : Table} {p q : Ptr}

theorem table_congr (h : TableOk s T) (ht : s₁.all_threads = s.all_threads)
    (hl : s₁.live = s.live) (hs : s₁.liveStack = s.liveStack)
    (hp : ∀ q, (s₁.tcb q).tid = (s.tcb q).tid ∧ (s₁.tcb q).handle = (s.tcb q).handle ∧
      (s₁.tcb q).stack = (s.tcb q).stack) : TableOk s₁ T := by
  refine ⟨by rw [ht]; exact h.table, h.sorted, h.addrs, ?_, ?_, ?_, ?_, ?_⟩
  · intro a ha
    rw [hl, (hp _).1, (hp _).2.1]
    exact h.entry ha
  · intro q hq
    rw [hl] at hq
    exact h.listed hq
  · intro q hq
    rw [hl] at hq
    exact h.ne_zero hq
  · intro q hq
    rw [hl] at hq
    rw [hs, (hp _).2.2]
    exact h.stack_live hq
  · intro q r hq hr
    rw [hl] at hq hr
    rw [(hp _).2.2, (hp _).2.2]
    exact h.owned hq hr

theorem tid_lt (h : TableOk s T) (hp : s.live p = true) : (s.tcb p).tid < T.max_id := by
  obtain ⟨a, ha, rfl⟩ := h.listed hp
  have he := h.entry ha
  rw [he.2.1]
  exact he.2.2.2.1

theorem id_inj (h : TableOk s T) {a b : Handle} (ha : a ∈ T.head) (hb : b ∈ T.head)
    (hid : a.id = b.id) : a = b := by
  have hsa := (search_iff h.sorted).mpr ⟨ha, rfl⟩
  have hsb := (search_iff h.sorted).mpr ⟨hb, hid.symm⟩
  rw [hsa] at hsb
  exact Option.some.inj hsb

/-- Ids tell threads apart. -/
theorem tid_inj (h : TableOk s T) (hp : s.live p = true) (hq : s.live q = true)
    (hid : (s.tcb p).tid = (s.tcb q).tid) : p = q := by
  obtain ⟨a, ha, rfl⟩ := h.listed hp
  obtain ⟨b, hb, rfl⟩ := h.listed hq
  rw [(h.entry ha).2.1, (h.entry hb).2.1] at hid
  rw [id_inj h ha hb hid]

theorem tcb_inj (h : TableOk s T) {a b : Handle} (ha : a ∈ T.head) (hb : b ∈ T.head)
    (hab : a.tcb = b.tcb) : a = b := by
  apply id_inj h ha hb
  rw [← (h.entry ha).2.1, ← (h.entry hb).2.1, hab]

/-- The handle of a TCB. -/
theorem find_handle (h : TableOk s T) {a : Handle} (ha : a ∈ T.head) :
    T.head.find? (fun ptr => ptr.addr = a.addr) = some a := by
  have hpair := h.addrs
  revert ha hpair
  generalize T.head = l
  intro ha hpair
  induction l with
  | nil => contradiction
  | cons b rest ih =>
    rw [List.pairwise_cons] at hpair
    rcases List.mem_cons.mp ha with rfl | hm
    · simp
    · rw [List.find?_cons_of_neg (by simpa using hpair.1 a hm)]
      exact ih hm hpair.2

/-! ## `get_tcb_by_id` -/

/-- What `get_tcb_by_id` finds is the thread with the id. -/
theorem run_get_tcb (h : TableOk s T) (hp : s.live p = true) :
    get_tcb_by_id (s.tcb p).tid s = .ok (p, s) := by
  obtain ⟨a, ha, rfl⟩ := h.listed hp
  have hsearch := (search_iff h.sorted).mpr ⟨ha, (h.entry ha).2.1.symm⟩
  simp [get_tcb_by_id, h.table, hsearch]

theorem run_get_none (h : TableOk s T) {n : Nat} (hn : ∀ p, s.live p = true → (s.tcb p).tid ≠ n) :
    get_tcb_by_id n s = .ok (0, s) := by
  have hsearch : search n T.head = none := by
    rw [search_none h.sorted]
    intro a ha
    rw [← (h.entry ha).2.1]
    exact hn _ (h.entry ha).1
  simp [get_tcb_by_id, h.table, hsearch]

/-! ## A thread goes -/

def withHandle (t : Ptr → Tcb) (p a : Ptr) : Ptr → Tcb :=
  Function.update t p { t p with handle := a }

@[simp] theorem withHandle_handle (t : Ptr → Tcb) (p a q : Ptr) :
    (withHandle t p a q).handle = if q = p then a else (t q).handle := by
  simp only [withHandle, Function.update_apply]
  split <;> rfl

@[simp] theorem withHandle_same (t : Ptr → Tcb) (p a q : Ptr) :
    (withHandle t p a q).tid = (t q).tid ∧ (withHandle t p a q).status = (t q).status ∧
    (withHandle t p a q).observer = (t q).observer ∧
    (withHandle t p a q).stack = (t q).stack := by
  by_cases h : q = p
  · simp [withHandle, h]
  · simp [withHandle, Function.update_of_ne h]

/-- Does `destroy_thread` free the stack? -/
def State.frees (s : State) (p : Ptr) : Prop := (s.tcb p).tid ≠ 0 ∧ (s.tcb p).stack ≠ 0

instance (s : State) (p : Ptr) : Decidable (s.frees p) := by
  unfold State.frees
  infer_instance

/-- The thread `p` is freed, and the table has the list `head`. -/
@[simps -fullyApplied]
def State.drop (s : State) (T : Table) (head : List Handle) (p : Ptr) : State :=
  { s with
    all_threads := some ⟨head, T.max_id, T.size - 1⟩
    live := Function.update s.live p false
    tcb := withHandle s.tcb p 0
    liveStack :=
      if s.frees p then Function.update s.liveStack (s.tcb p).stack false else s.liveStack }

theorem table_drop (h : TableOk s T) {a : Handle} (ha : a ∈ T.head) {head : List Handle}
    (hsub : head.Sublist T.head) (hmem : ∀ {b}, b ∈ head ↔ b ∈ T.head ∧ b ≠ a) :
    TableOk (s.drop T head a.tcb) ⟨head, T.max_id, T.size - 1⟩ := by
  have hother : ∀ {q}, (s.drop T head a.tcb).live q = true → q ≠ a.tcb ∧ s.live q = true := by
    intro q hq
    by_cases hqa : q = a.tcb
    · subst hqa
      simp at hq
    · exact ⟨hqa, by simpa [hqa] using hq⟩
  have hlive := (h.entry ha).1
  refine ⟨rfl, h.sorted.sublist hsub, h.addrs.sublist hsub, ?_, ?_, ?_, ?_, ?_⟩
  · intro b hb
    obtain ⟨hbT, hba⟩ := hmem.mp hb
    have hne : b.tcb ≠ a.tcb := fun heq => hba (tcb_inj h hbT ha heq)
    simpa [hne] using h.entry hbT
  · intro q hq
    obtain ⟨hqa, hq⟩ := hother hq
    obtain ⟨b, hb, rfl⟩ := h.listed hq
    exact ⟨b, hmem.mpr ⟨hb, fun heq => hqa (heq ▸ rfl)⟩, rfl⟩
  · exact fun hq => h.ne_zero (hother hq).2
  · intro q hq hstack
    obtain ⟨hqa, hq⟩ := hother hq
    simp only [State.drop_tcb, withHandle_same] at hstack ⊢
    have hs := h.stack_live hq hstack
    rw [State.drop_liveStack]
    split
    · rw [Function.update_of_ne fun heq => hqa (h.owned hq hlive hstack heq)]
      exact hs
    · exact hs
  · intro q r hq hr hstack heq
    simp only [State.drop_tcb, withHandle_same] at hstack heq
    exact h.owned (hother hq).2 (hother hr).2 hstack heq

/-- `destroy_thread` of a thread in the table. -/
theorem run_destroy (h : TableOk s T) (hp : s.live p = true) :
    ∃ head, destroy_thread p s = .ok ((), s.drop T head p) ∧
      TableOk (s.drop T head p) ⟨head, T.max_id, T.size - 1⟩ := by
  obtain ⟨a, ha, rfl⟩ := h.listed hp
  have he := h.entry ha
  have hne := h.ne_zero hp
  have hfind := find_handle h ha
  have hsearch := (search_iff h.sorted).mpr ⟨ha, rfl⟩
  refine ⟨unlink a.id T.head, ?_, table_drop h ha unlink_sublist (mem_unlink h.sorted ha)⟩
  have hremove : remove_tcb a.tcb s = .ok (0, { s with
      all_threads := some ⟨unlink a.id T.head, T.max_id, T.size - 1⟩
      tcb := withHandle s.tcb a.tcb 0 }) := by
    simp [remove_tcb, h.table, run_load hp, he.2.2.1, he.2.2.2.2, hfind, hsearch, run_store hp,
      State.setTcb, withHandle]
  have hstack := h.stack_live hp
  by_cases hf : s.frees a.tcb
  · have hfree := hf
    unfold State.frees at hfree
    simp [destroy_thread, hne, hremove, load, hp, hfree, freeStack, freeTcb, hstack hfree.2,
      State.drop, hf]
  · have hkeep := hf
    unfold State.frees at hkeep
    simp [destroy_thread, hne, hremove, load, hp, hkeep, freeTcb, State.drop, hf]

/-- A round of the loop in `thread_cleanup`. -/
theorem run_pop_destroy {a : Handle} {rest : List Handle} {m : Nat} {n : Int}
    (h : TableOk s ⟨a :: rest, m, n⟩) :
    (do
      let to_delete ← pop_tcb
      destroy_thread to_delete) s = .ok ((), s.drop ⟨a :: rest, m, n⟩ rest a.tcb) ∧
      TableOk (s.drop ⟨a :: rest, m, n⟩ rest a.tcb) ⟨rest, m, n - 1⟩ := by
  have ha : a ∈ a :: rest := List.mem_cons_self
  have hp := (h.entry ha).1
  have hne := h.ne_zero hp
  have hnot : a ∉ rest := by
    intro hm
    exact absurd ((List.pairwise_cons.mp h.sorted).1 a hm) (Nat.lt_irrefl _)
  refine ⟨?_, table_drop h ha (List.sublist_cons_self a rest) ?_⟩
  · have hpop : pop_tcb s = .ok (a.tcb, { s with
        all_threads := some ⟨rest, m, n - 1⟩
        tcb := withHandle s.tcb a.tcb 0 }) := by
      simp [pop_tcb, h.table, run_store hp, State.setTcb, withHandle]
    have hstack := h.stack_live hp
    by_cases hf : s.frees a.tcb
    · have hfree := hf
      unfold State.frees at hfree
      simp [hpop, destroy_thread, remove_tcb, hne, load, hp, hfree, freeStack, freeTcb,
        hstack hfree.2, State.drop, hf]
    · have hkeep := hf
      unfold State.frees at hkeep
      simp [hpop, destroy_thread, remove_tcb, hne, load, hp, hkeep, freeTcb, State.drop, hf]
  · intro b
    rw [List.mem_cons]
    constructor
    · intro hb
      refine ⟨Or.inr hb, ?_⟩
      rintro rfl
      exact hnot hb
    · rintro ⟨rfl | hb, hne⟩
      · exact absurd rfl hne
      · exact hb

/-! ## A thread comes -/

/-- The blocks that `thread_create` gets are not in use. -/
def Spare (s : State) (b : Blocks) : Prop :=
  ∀ p ∈ [b.thread.addr, b.stack, b.handle], p ≠ 0 ∧ ¬ s.used p

theorem spare_of_unused {b : Blocks} (hb : Unused s b) : Spare s b := by
  intro p hp
  apply hb.2
  simp only [Blocks.addrs, List.mem_cons] at hp ⊢
  tauto

section
variable {b : Blocks} (hb : Spare s b)
include hb

theorem thread_spare : b.thread.addr ≠ 0 ∧ s.live b.thread.addr ≠ true := by
  have h := hb b.thread.addr (by simp)
  exact ⟨h.1, fun hl => h.2 (Or.inl hl)⟩

theorem stack_spare : b.stack ≠ 0 ∧ s.liveStack b.stack ≠ true := by
  have h := hb b.stack (by simp)
  exact ⟨h.1, fun hl => h.2 (Or.inr (Or.inl hl))⟩

theorem handle_spare (hT : s.all_threads = some T) :
    b.handle ≠ 0 ∧ ∀ a ∈ T.head, a.addr ≠ b.handle := by
  have h := hb b.handle (by simp)
  exact ⟨h.1, fun a ha heq => h.2 (Or.inr (Or.inr ⟨a, by simpa [hT] using ha, heq⟩))⟩

end

/-- The state after `init`. -/
@[simps -fullyApplied]
def State.started (b : Blocks) (s : State) : State :=
  { s with
    ready := true
    all_threads := some ⟨[⟨b.parentHandle, b.parent.addr, 0⟩], 1, 1⟩
    ready_list := some []
    mutexes := some []
    conds := some []
    parent_id := 0
    current_thread := b.parent.addr
    live := Function.update s.live b.parent.addr true
    tcb := Function.update s.tcb b.parent.addr
      { b.parent.bytes with status := .WORKING, stack := 0, tid := 0, handle := b.parentHandle }
    pending := Function.update s.pending b.parent.addr none
    log := [] }

theorem run_init {b : Blocks} (hj : b.parent.bytes.handle = 0) :
    init b s = .ok ((), s.started b) := by
  simp [init, mallocTcb, store, load, State.setTcb, put_tcb, pushReady, queue_push, queue_pop,
    hj, State.started]

theorem live_started {b : Blocks} (hl : ∀ p, s.live p = false)
    (hp : (s.started b).live p = true) : p = b.parent.addr := by
  by_contra hne
  simp [hne, hl p] at hp

/-- `init` has not taken them. -/
theorem spare_started {b : Blocks} (hb : Unused s b) : Spare (s.started b) b := by
  intro p hp
  obtain ⟨hp0, hpu⟩ := spare_of_unused hb p hp
  refine ⟨hp0, ?_⟩
  have hnodup := hb.1
  simp only [Blocks.addrs, List.nodup_cons, List.mem_cons, not_or] at hnodup
  have hne : p ≠ b.parent.addr ∧ b.parentHandle ≠ p := by
    simp only [List.mem_cons, List.not_mem_nil, or_false] at hp
    rcases hp with rfl | rfl | rfl
    · exact ⟨Ne.symm hnodup.1.2.1, hnodup.2.1.1⟩
    · exact ⟨Ne.symm hnodup.1.2.2.1, hnodup.2.1.2.1⟩
    · exact ⟨Ne.symm hnodup.1.2.2.2.1, hnodup.2.1.2.2.1⟩
  rintro (hl | hs | ⟨a, ha, rfl⟩)
  · rw [State.started_live, Function.update_of_ne hne.1] at hl
    exact hpu (Or.inl hl)
  · exact hpu (Or.inr (Or.inl hs))
  · simp only [State.started_all_threads, Option.map_some, Option.getD_some,
      List.mem_singleton] at ha
    subst ha
    exact hne.2 rfl

theorem table_started {b : Blocks} (hb : Unused s b) (hl : ∀ p, s.live p = false) :
    TableOk (s.started b) ⟨[⟨b.parentHandle, b.parent.addr, 0⟩], 1, 1⟩ := by
  have honly {p : Ptr} : (s.started b).live p = true → p = b.parent.addr := live_started hl
  refine ⟨rfl, List.pairwise_singleton _ _, List.pairwise_singleton _ _, ?_, ?_, ?_, ?_, ?_⟩
  · intro a ha
    rw [List.mem_singleton] at ha
    subst ha
    simp [(hb.2 b.parentHandle (by simp [Blocks.addrs])).1]
  · exact fun hp => ⟨_, List.mem_singleton_self _, (honly hp).symm⟩
  · intro p hp
    rw [honly hp]
    exact (hb.2 b.parent.addr (by simp [Blocks.addrs])).1
  · intro p hp hstack
    rw [honly hp] at hstack
    simp at hstack
  · intro p q hp hq _ _
    rw [honly hp, honly hq]

/-- The state after `thread_create`. -/
@[simps -fullyApplied]
def State.created (b : Blocks) (info : BitVec 64) (s : State) (T : Table) : State :=
  { s with
    all_threads := some ⟨⟨b.handle, b.thread.addr, T.max_id⟩ :: T.head, T.max_id + 1, T.size + 1⟩
    ready_list := some (s.ready_list.getD [] ++ [b.thread.addr])
    live := Function.update s.live b.thread.addr true
    tcb := Function.update s.tcb b.thread.addr
      { b.thread.bytes with
        regs := firstRegs b.stack info
        status := .WORKING
        stack := b.stack
        tid := T.max_id
        handle := b.handle }
    liveStack := Function.update s.liveStack b.stack true
    pending := Function.update s.pending b.thread.addr none }

theorem run_create {b : Blocks} (hj : b.thread.bytes.handle = 0) (hr : s.ready = true)
    (hT : s.all_threads = some T) {rl : List Ptr} (hrl : s.ready_list = some rl)
    (work info : BitVec 64) :
    thread_create b work info s = .ok (T.max_id, s.created b info T) := by
  simp [thread_create, run_ensure hr, mallocTcb, mallocStack, store, load, State.setTcb,
    put_tcb, pushReady, queue_push, hj, hT, hrl, State.created]

theorem table_created {b : Blocks} {info : BitVec 64} (h : TableOk s T) (hb : Spare s b) :
    TableOk (s.created b info T)
      ⟨⟨b.handle, b.thread.addr, T.max_id⟩ :: T.head, T.max_id + 1, T.size + 1⟩ := by
  have hold : ∀ {p}, (s.created b info T).live p = true → p ≠ b.thread.addr →
      s.live p = true := by
    intro p hp hne
    simpa [hne] using hp
  have hne : ∀ {p}, s.live p = true → p ≠ b.thread.addr := by
    rintro p hp rfl
    exact (thread_spare hb).2 hp
  have hstack : ∀ {p}, s.live p = true → (s.tcb p).stack ≠ b.stack := by
    intro p hp heq
    have hlive := h.stack_live hp (heq ▸ (stack_spare hb).1)
    exact (stack_spare hb).2 (heq ▸ hlive)
  obtain ⟨hh, haddr⟩ := handle_spare hb h.table
  refine ⟨rfl, ?_, ?_, ?_, ?_, ?_, ?_, ?_⟩
  · exact List.pairwise_cons.mpr ⟨fun a ha => (h.entry ha).2.2.2.1, h.sorted⟩
  · exact List.pairwise_cons.mpr ⟨fun a ha => (haddr a ha).symm, h.addrs⟩
  · intro a ha
    rcases List.mem_cons.mp ha with rfl | ha
    · simp [hh]
    · have he := h.entry ha
      have := hne he.1
      have hlt : a.id < T.max_id + 1 := Nat.lt_succ_of_lt he.2.2.2.1
      simp [this, he.1, he.2.1, he.2.2.1, he.2.2.2.2, hlt]
  · intro p hp
    by_cases hpb : p = b.thread.addr
    · exact ⟨_, List.mem_cons_self, hpb.symm⟩
    · obtain ⟨a, ha, rfl⟩ := h.listed (hold hp hpb)
      exact ⟨a, List.mem_cons_of_mem _ ha, rfl⟩
  · intro p hp
    by_cases hpb : p = b.thread.addr
    · rw [hpb]
      exact (thread_spare hb).1
    · exact h.ne_zero (hold hp hpb)
  · intro p hp hs
    by_cases hpb : p = b.thread.addr
    · subst hpb
      simp
    · have hlive := hold hp hpb
      simp only [State.created_tcb, Function.update_of_ne hpb] at hs ⊢
      rw [State.created_liveStack, Function.update_of_ne (hstack hlive)]
      exact h.stack_live hlive hs
  · intro p q hp hq hs heq
    by_cases hpb : p = b.thread.addr <;> by_cases hqb : q = b.thread.addr
    · rw [hpb, hqb]
    · subst hpb
      simp only [State.created_tcb, Function.update_self, Function.update_of_ne hqb] at heq
      exact absurd heq.symm (hstack (hold hq hqb))
    · subst hqb
      simp only [State.created_tcb, Function.update_self, Function.update_of_ne hpb] at heq
      exact absurd heq (hstack (hold hp hpb))
    · simp only [State.created_tcb, Function.update_of_ne hpb, Function.update_of_ne hqb] at hs heq
      exact h.owned (hold hp hpb) (hold hq hqb) hs heq

end

end Cs720.Threads
