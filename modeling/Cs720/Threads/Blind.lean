import Cs720.Lib.Twin
import Cs720.Threads.Schedule

/-! # The code does not see what has not been written

The field `rip` is never read, and the registers of the thread that runs are written before they are
read. Nothing else can differ.
-/

namespace Cs720.Threads

open Cs720.Lib

/-- The states differ in what has not been written. -/
structure Like (s t : State) : Prop where
  rest : t = { s with tcb := t.tcb }
  tcb : ∀ p, ∃ r g, t.tcb p = { s.tcb p with rip := r, regs := g }
  regs : ∀ p, s.live p = true → p ≠ s.current_thread → (t.tcb p).regs = (s.tcb p).regs

/-- What is in use is in the table, in any run. -/
def Settled (s : State) : Prop :=
  (s.ready = true ∧ ∃ T, TableOk s T) ∨ (s.ready = false ∧ ∀ p, s.live p = false)

/-- During a call. The blocks of the call are not in use. -/
structure Housed (b : Blocks) (s : State) : Prop where
  settled : Settled s
  spare : Spare s b
  unused : s.ready = false → Unused s b

/-- `I` is about the table and what is in use. -/
class Insensitive (I : State → Prop) : Prop where
  congr : ∀ {s s₁ : State}, I s → s₁.ready = s.ready → s₁.all_threads = s.all_threads →
    s₁.live = s.live → s₁.liveStack = s.liveStack →
    (∀ p, (s₁.tcb p).tid = (s.tcb p).tid ∧ (s₁.tcb p).handle = (s.tcb p).handle ∧
      (s₁.tcb p).stack = (s.tcb p).stack) → I s₁

/-- From states that differ in what has not been written, and that meet `I`, the programs end in the
same way. -/
def Blind {α : Type} (I : State → Prop) (x y : M α) : Prop := Twin (fun s t => Like s t ∧ I s) x y

section
variable {α β : Type} {I : State → Prop} {s t s₁ : State} {n : Nat} {p : Ptr} {b : Blocks}

theorem like_refl : Like s s := ⟨rfl, fun _ => ⟨_, _, rfl⟩, fun _ _ _ => rfl⟩

theorem used_congr (ht : s₁.all_threads = s.all_threads) (hl : s₁.live = s.live)
    (hs : s₁.liveStack = s.liveStack) : s₁.used p ↔ s.used p := by
  unfold State.used
  rw [ht, hl, hs]

instance : Insensitive fun _ => True := ⟨fun _ _ _ _ _ _ => trivial⟩

instance : Insensitive Settled := by
  refine ⟨fun h hr ht hl hs hp => ?_⟩
  rcases h with ⟨hready, T, hT⟩ | ⟨hready, hlive⟩
  · exact Or.inl ⟨hr.trans hready, T, table_congr hT ht hl hs hp⟩
  · exact Or.inr ⟨hr.trans hready, hl ▸ hlive⟩

instance : Insensitive (Housed b) := by
  refine ⟨fun h hr ht hl hs hp => ⟨Insensitive.congr h.settled hr ht hl hs hp, ?_, ?_⟩⟩
  · exact fun q hq => (h.spare q hq).imp_right (mt (used_congr ht hl hs).mp)
  · intro hready
    have hun := h.unused (hr ▸ hready)
    exact ⟨hun.1, fun q hq => (hun.2 q hq).imp_right (mt (used_congr ht hl hs).mp)⟩

/-! ## Rules -/

theorem blind_pure (a : α) : Blind I (pure a : M α) (pure a) := twin_pure a

theorem blind_stop (e : Stop) : Blind I (stop e : M α) (stop e) := fun _ _ _ => alike_error e

theorem blind_bind {x y : M α} {f g : α → M β} (hx : Blind I x y) (hf : ∀ a, Blind I (f a) (g a)) :
    Blind I (x >>= f) (y >>= g) := twin_bind hx hf

theorem blind_ite {c : Prop} [Decidable c] {x y x' y' : M α} (hx : Blind I x x')
    (hy : Blind I y y') : Blind I (if c then x else y) (if c then x' else y') := twin_ite hx hy

theorem blind_deref (p : Option α) : Blind I (deref p) (deref p) := by
  cases p with
  | none => exact blind_stop _
  | some a => exact blind_pure a

/-- Reads of the state that are not of TCBs. -/
theorem blind_get {f g : State → M α} (hg : ∀ s u, g { s with tcb := u } = g s)
    (h : ∀ s, Blind I (f s) (g s)) : Blind I (get >>= f) (get >>= g) := by
  rintro s t ⟨hst, hI⟩
  rw [run_bind, run_bind, run_get, run_get, ok_bind, ok_bind]
  have hgt : g t = g s := by rw [hst.rest, hg]
  rw [hgt]
  exact h s s t ⟨hst, hI⟩

/-- Reads of what has been written in a TCB. -/
theorem blind_load {f g : Tcb → M α} (hg : ∀ a r x, g { a with rip := r, regs := x } = g a)
    (h : ∀ a, Blind I (f a) (g a)) : Blind I (load p >>= f) (load p >>= g) := by
  rintro s t ⟨hst, hI⟩
  have hlive : t.live p = s.live p := by rw [hst.rest]
  obtain ⟨r, x, hp⟩ := hst.tcb p
  rcases hl : s.live p with _ | _
  · exact Or.inr ⟨.fault, by simp [load, hl], by simp [load, hlive, hl]⟩
  · rw [run_bind, run_bind, run_load hl, run_load (hlive.trans hl), ok_bind, ok_bind]
    have hgt : g (t.tcb p) = g (s.tcb p) := by rw [hp, hg]
    simp only [hgt]
    exact h _ s t ⟨hst, hI⟩

/-- Writes of other things than TCBs. -/
theorem blind_modify {g : State → State}
    (hg : ∀ s u, g { s with tcb := u } = { g s with tcb := u } ∧ (g s).tcb = s.tcb ∧
      (g s).live = s.live ∧ (g s).current_thread = s.current_thread)
    (hI : ∀ s, I s → I (g s)) : Blind I (modify g : M Unit) (modify g) := by
  rintro s t ⟨hst, hs⟩
  refine Or.inl ⟨(), g s, g t, rfl, rfl, ⟨?_, ?_, ?_⟩, hI s hs⟩
  · have ht := (hg t t.tcb).2.1
    rw [ht, ← (hg s t.tcb).1, ← hst.rest]
  · rw [(hg t t.tcb).2.1, (hg s s.tcb).2.1]
    exact hst.tcb
  · rw [(hg t t.tcb).2.1, (hg s s.tcb).2.1, (hg s s.tcb).2.2.1, (hg s s.tcb).2.2.2]
    exact hst.regs

/-- Writes of fields of TCBs other than the registers. -/
theorem blind_store {f : Tcb → Tcb}
    (hf : ∀ a r x, f { a with rip := r, regs := x } = { f a with rip := r, regs := x } ∧
      (f a).regs = a.regs)
    (hI : ∀ s, I s → I (s.setTcb p f)) : Blind I (store p f) (store p f) := by
  rintro s t ⟨hst, hs⟩
  have hlive : t.live p = s.live p := by rw [hst.rest]
  rcases hl : s.live p with _ | _
  · exact Or.inr ⟨.fault, by simp [store, hl], by simp [store, hlive, hl]⟩
  · refine Or.inl ⟨(), _, _, run_store hl, run_store (hlive.trans hl), ⟨?_, ?_, ?_⟩, hI s hs⟩
    · unfold State.setTcb
      rw [hst.rest]
    · intro q
      obtain ⟨r, x, hq⟩ := hst.tcb q
      refine ⟨r, x, ?_⟩
      by_cases hqp : q = p
      · subst hqp
        simp only [State.setTcb, Function.update_self, hq, (hf _ r x).1]
      · simp only [State.setTcb, Function.update_of_ne hqp, hq]
    · intro q hq hc
      have hregs := hst.regs q hq hc
      by_cases hqp : q = p
      · subst hqp
        simp only [State.setTcb, Function.update_self, (hf _ 0 noRegs).2, hregs]
      · simpa only [State.setTcb, Function.update_of_ne hqp] using hregs

theorem run_freeTcb (h : s.live p = true) :
    freeTcb p s = .ok ((), { s with live := Function.update s.live p false }) := by
  unfold freeTcb
  rw [if_pos h]

theorem run_freeStack (h : s.liveStack p = true) :
    freeStack p s = .ok ((), { s with liveStack := Function.update s.liveStack p false }) := by
  unfold freeStack
  rw [if_pos h]

theorem blind_freeTcb : Blind (fun _ => True) (freeTcb p) (freeTcb p) := by
  rintro s t ⟨hst, -⟩
  have hlive : t.live p = s.live p := by rw [hst.rest]
  rcases hl : s.live p with _ | _
  · exact Or.inr ⟨.fault, by simp [freeTcb, hl], by simp [freeTcb, hlive, hl]⟩
  · refine Or.inl ⟨(), _, _, run_freeTcb hl, run_freeTcb (hlive.trans hl), ⟨?_, hst.tcb, ?_⟩, trivial⟩
    · rw [hst.rest]
    · intro q hq hc
      refine hst.regs q ?_ hc
      by_cases hqp : q = p
      · rw [hqp]
        exact hl
      · simpa [Function.update_of_ne hqp] using hq

theorem blind_freeStack : Blind (fun _ => True) (freeStack p) (freeStack p) := by
  rintro s t ⟨hst, -⟩
  have hlive : t.liveStack p = s.liveStack p := by rw [hst.rest]
  rcases hl : s.liveStack p with _ | _
  · exact Or.inr ⟨.fault, by simp [freeStack, hl], by simp [freeStack, hlive, hl]⟩
  · refine Or.inl ⟨(), _, _, run_freeStack hl, run_freeStack (hlive.trans hl),
      ⟨?_, hst.tcb, hst.regs⟩, trivial⟩
    rw [hst.rest]

/-! ## The code -/

theorem blind_push (Q : Option (List α)) (x : α) : Blind I (queue_push Q x) (queue_push Q x) :=
  blind_bind (blind_deref Q) fun _ => blind_pure _

theorem blind_pop (Q : Option (List α)) : Blind I (queue_pop Q) (queue_pop Q) := by
  apply blind_bind (blind_deref Q)
  intro queue
  cases queue with
  | nil => exact blind_pure _
  | cons data rest => exact blind_pure _

theorem blind_tcb_by_id (target : Nat) : Blind I (get_tcb_by_id target) (get_tcb_by_id target) := by
  apply blind_get fun _ _ => rfl
  intro s
  apply blind_bind (blind_deref _)
  intro table
  cases search target table.head with
  | none => exact blind_pure _
  | some ptr => exact blind_pure _

theorem look_like (h : Like s t) (q : Ptr) {f g : Tcb → C β}
    (hg : ∀ a r x, g { a with rip := r, regs := x } = g a) (hfg : ∀ a, g a = f a) :
    (look t q >>= g) = (look s q >>= f) := by
  have hlive : t.live q = s.live q := by rw [h.rest]
  obtain ⟨r, x, hq⟩ := h.tcb q
  unfold look
  rw [hlive]
  split
  · rw [ok_bind, ok_bind, hq, hg, hfg]
  · rfl

theorem detectStep_like (h : Like s t) (x : Ptr × Ptr) : detectStep t x = detectStep s x := by
  obtain ⟨slow, fast⟩ := x
  unfold detectStep
  apply if_congr Iff.rfl rfl
  apply look_like h fast fun _ _ _ => rfl
  intro f
  apply if_congr Iff.rfl rfl
  apply look_like h slow fun _ _ _ => rfl
  intro a
  apply look_like h f.observer fun _ _ _ => rfl
  intro o
  apply if_congr Iff.rfl _ rfl
  apply look_like h a.observer fun _ _ _ => rfl
  intro a'
  apply look_like h o.observer fun _ _ _ => rfl
  intro b'
  rfl

theorem blind_detect : Blind I (detect_deadlock n) (detect_deadlock n) := by
  rintro s t ⟨hst, hI⟩
  have hc : t.current_thread = s.current_thread := by rw [hst.rest]
  have hstep : detectStep t = detectStep s := funext (detectStep_like hst)
  unfold detect_deadlock
  rw [hstep, hc]
  rcases loop (detectStep s) n (s.current_thread, s.current_thread) with e | r
  · exact alike_error e
  · exact Or.inl ⟨r, s, t, rfl, rfl, hst, hI⟩

variable [Insensitive I]

/-- Writes that are neither of TCBs nor of the table. -/
theorem blind_set {g : State → State}
    (hg : ∀ s u, g { s with tcb := u } = { g s with tcb := u } ∧ (g s).tcb = s.tcb ∧
      (g s).live = s.live ∧ (g s).current_thread = s.current_thread)
    (hs : ∀ s, (g s).ready = s.ready ∧ (g s).all_threads = s.all_threads ∧
      (g s).liveStack = s.liveStack) : Blind I (modify g : M Unit) (modify g) := by
  refine blind_modify hg fun s hI => ?_
  refine Insensitive.congr hI (hs s).1 (hs s).2.1 (hg s s.tcb).2.2.1 (hs s).2.2 fun p => ?_
  rw [(hg s s.tcb).2.1]
  exact ⟨rfl, rfl, rfl⟩

theorem blind_record (e : Nat → Event) : Blind I (record p e) (record p e) := by
  rintro s t ⟨hst, hI⟩
  obtain ⟨r, x, hp⟩ := hst.tcb p
  have htid : (t.tcb p).tid = (s.tcb p).tid := by rw [hp]
  have hrun : ∀ u : State, record p e u = .ok ((), u.note (e (u.tcb p).tid)) := fun _ => rfl
  rw [hrun, hrun, htid]
  refine Or.inl ⟨(), _, _, rfl, rfl, ⟨?_, hst.tcb, hst.regs⟩, ?_⟩
  · rw [hst.rest]
    rfl
  · exact Insensitive.congr hI rfl rfl rfl rfl fun _ => ⟨rfl, rfl, rfl⟩

theorem blind_setMutex (m : Ptr) (f : Mutex → Mutex) : Blind I (setMutex m f) (setMutex m f) :=
  blind_set (fun _ _ => ⟨rfl, rfl, rfl, rfl⟩) fun _ => ⟨rfl, rfl, rfl⟩

theorem blind_setCond (d : Ptr) (q : List CondInfo) : Blind I (setCond d q) (setCond d q) :=
  blind_set (fun _ _ => ⟨rfl, rfl, rfl, rfl⟩) fun _ => ⟨rfl, rfl, rfl⟩

theorem blind_pushReady : Blind I (pushReady p) (pushReady p) := by
  apply blind_get fun _ _ => rfl
  intro s
  apply blind_bind (blind_push _ _)
  intro queue
  exact blind_set (fun _ _ => ⟨rfl, rfl, rfl, rfl⟩) fun _ => ⟨rfl, rfl, rfl⟩

/-- Writes of the fields of a TCB that do not say where it is. -/
theorem blind_write {f : Tcb → Tcb}
    (hf : ∀ a r x, f { a with rip := r, regs := x } = { f a with rip := r, regs := x } ∧
      (f a).regs = a.regs)
    (hs : ∀ a, (f a).tid = a.tid ∧ (f a).handle = a.handle ∧ (f a).stack = a.stack) :
    Blind I (store p f) (store p f) := by
  refine blind_store hf fun s hI => Insensitive.congr hI rfl rfl rfl rfl fun q => ?_
  by_cases hqp : q = p
  · rw [hqp]
    simpa [State.setTcb] using hs (s.tcb p)
  · simp [State.setTcb, Function.update_of_ne hqp]

theorem blind_status (x : Status) :
    Blind I (store p fun t => { t with status := x }) (store p fun t => { t with status := x }) :=
  blind_write (fun _ _ _ => ⟨rfl, rfl⟩) fun _ => ⟨rfl, rfl, rfl⟩

theorem blind_observer (x : Ptr) :
    Blind I (store p fun t => { t with observer := x }) (store p fun t => { t with observer := x }) :=
  blind_write (fun _ _ _ => ⟨rfl, rfl⟩) fun _ => ⟨rfl, rfl, rfl⟩

end

/-! ### `init` -/

section
variable {b b' : Blocks} {s t : State}

/-- The same addresses, and NULL in the two fields that are not set. -/
structure Same (b b' : Blocks) : Prop where
  addrs : b.addrs = b'.addrs
  zeroed : Zeroed b ∧ Zeroed b'

theorem same_addrs (h : Same b b') : b'.parent.addr = b.parent.addr ∧
    b'.parentHandle = b.parentHandle ∧ b'.thread.addr = b.thread.addr ∧ b'.stack = b.stack ∧
    b'.handle = b.handle := by
  have haddrs := h.addrs
  simp only [Blocks.addrs, List.cons.injEq, and_true] at haddrs
  obtain ⟨h1, h2, h3, h4, h5⟩ := haddrs
  exact ⟨h1.symm, h2.symm, h3.symm, h4.symm, h5.symm⟩

theorem like_started (hb : Same b b') (h : Like s t) (hl : ∀ p, s.live p = false) :
    Like (s.started b) (t.started b') := by
  obtain ⟨hp, hph, -⟩ := same_addrs hb
  refine ⟨?_, ?_, ?_⟩
  · rw [h.rest]
    unfold State.started
    rw [hp, hph]
  · intro p
    simp only [State.started_tcb, hp]
    by_cases hpb : p = b.parent.addr
    · subst hpb
      refine ⟨b'.parent.bytes.rip, b'.parent.bytes.regs, ?_⟩
      simp [hph, hb.zeroed.1.1.2, hb.zeroed.2.1.2]
    · simpa [Function.update_of_ne hpb] using h.tcb p
  · intro p hlive hc
    exact absurd (live_started hl hlive) hc

theorem housed_started (h : Housed b s) (hr : s.ready = false) (hl : ∀ p, s.live p = false) :
    Housed b (s.started b) :=
  ⟨Or.inl ⟨rfl, _, table_started (h.unused hr) hl⟩, spare_started (h.unused hr),
    fun hr => by contradiction⟩

theorem blind_ensure (hb : Same b b') : Blind (Housed b) (ensure b) (ensure b') := by
  rintro s t ⟨hst, hI⟩
  have hready : t.ready = s.ready := by rw [hst.rest]
  rcases hI.settled with ⟨hr, -⟩ | ⟨hr, hl⟩
  · exact Or.inl ⟨(), s, t, run_ensure hr, run_ensure (hready.trans hr), hst, hI⟩
  · refine Or.inl ⟨(), s.started b, t.started b', ?_, ?_, like_started hb hst hl,
      housed_started hI hr hl⟩
    · simp [ensure, hr, run_init hb.zeroed.1.1.1]
    · simp [ensure, hready, hr, run_init hb.zeroed.2.1.1]

end

section
variable {I : State → Prop} [Insensitive I] {b b' : Blocks} {s : State} {T : Table} {n : Nat}
  {id : BitVec 64} {m d p : Ptr}

theorem blind_self (hb : Same b b') : Blind (Housed b) (thread_self b) (thread_self b') := by
  apply blind_bind (blind_ensure hb)
  intro _
  apply blind_get fun _ _ => rfl
  intro s
  apply blind_load fun _ _ _ => rfl
  intro t
  exact blind_pure _

theorem blind_join (hb : Same b b') :
    Blind (Housed b) (thread_join b n id) (thread_join b' n id) := by
  apply blind_bind (blind_ensure hb)
  intro _
  apply blind_get fun _ _ => rfl
  intro s
  apply blind_load fun _ _ _ => rfl
  intro t
  apply blind_ite (blind_pure _)
  apply blind_bind (blind_tcb_by_id _)
  intro target
  apply blind_ite (blind_pure _)
  apply blind_load fun _ _ _ => rfl
  intro t
  apply blind_ite (blind_stop _)
  apply blind_ite (blind_pure _)
  apply blind_ite (blind_pure _)
  apply blind_bind (blind_status _)
  intro _
  apply blind_bind (blind_observer _)
  intro _
  apply blind_bind blind_detect
  intro r
  apply blind_ite
  · apply blind_bind (blind_status _)
    intro _
    apply blind_bind (blind_observer _)
    intro _
    exact blind_pure _
  · exact blind_pure _

theorem blind_mutexInit (hb : Same b b') :
    Blind (Housed b) (thread_mutex_init b m) (thread_mutex_init b' m) := by
  apply blind_bind (blind_ensure hb)
  intro _
  apply blind_ite (blind_pure _)
  apply blind_bind (blind_setMutex _ _)
  intro _
  apply blind_get fun _ _ => rfl
  intro s
  apply blind_bind (blind_push _ _)
  intro queue
  apply blind_bind
  · exact blind_set (fun _ _ => ⟨rfl, rfl, rfl, rfl⟩) fun _ => ⟨rfl, rfl, rfl⟩
  · exact fun _ => blind_pure _

theorem blind_lock (hb : Same b b') :
    Blind (Housed b) (thread_mutex_lock b m) (thread_mutex_lock b' m) := by
  apply blind_ite (blind_pure _)
  apply blind_get fun _ _ => rfl
  intro s
  apply blind_ite
  · apply blind_bind (blind_setMutex _ _)
    intro _
    apply blind_bind (blind_self hb)
    intro self
    apply blind_bind (blind_setMutex _ _)
    intro _
    exact blind_pure _
  · apply blind_get fun _ _ => rfl
    intro s
    apply blind_bind (blind_self hb)
    intro self
    apply blind_ite (blind_pure _)
    apply blind_get fun _ _ => rfl
    intro s
    apply blind_bind (blind_status _)
    intro _
    apply blind_get fun _ _ => rfl
    intro s
    apply blind_bind (blind_push _ _)
    intro queue
    apply blind_bind (blind_setMutex _ _)
    intro _
    apply blind_bind (blind_record _)
    intro _
    exact blind_pure _

theorem blind_unlock (hb : Same b b') :
    Blind (Housed b) (thread_mutex_unlock b m) (thread_mutex_unlock b' m) := by
  apply blind_ite (blind_pure _)
  apply blind_get fun _ _ => rfl
  intro s
  apply blind_ite (blind_pure _)
  apply blind_get fun _ _ => rfl
  intro s
  apply blind_bind (blind_self hb)
  intro self
  apply blind_ite (blind_pure _)
  apply blind_get fun _ _ => rfl
  intro s
  apply blind_bind (blind_pop _)
  rintro ⟨next, queue⟩
  apply blind_bind (blind_setMutex _ _)
  intro _
  cases next with
  | none =>
    apply blind_bind (blind_setMutex _ _)
    intro _
    exact blind_pure _
  | some next =>
    apply blind_bind (blind_status _)
    intro _
    apply blind_load fun _ _ _ => rfl
    intro t
    apply blind_bind (blind_setMutex _ _)
    intro _
    apply blind_bind blind_pushReady
    intro _
    apply blind_bind (blind_record _)
    intro _
    exact blind_pure _

theorem blind_condInit (hb : Same b b') :
    Blind (Housed b) (thread_cond_init b d) (thread_cond_init b' d) := by
  apply blind_bind (blind_ensure hb)
  intro _
  apply blind_ite (blind_pure _)
  apply blind_bind (blind_setCond _ _)
  intro _
  apply blind_get fun _ _ => rfl
  intro s
  apply blind_bind (blind_push _ _)
  intro queue
  apply blind_bind
  · exact blind_set (fun _ _ => ⟨rfl, rfl, rfl, rfl⟩) fun _ => ⟨rfl, rfl, rfl⟩
  · exact fun _ => blind_pure _

theorem blind_wait (hb : Same b b') :
    Blind (Housed b) (thread_cond_wait b d m) (thread_cond_wait b' d m) := by
  apply blind_ite (blind_pure _)
  apply blind_get fun _ _ => rfl
  intro s
  apply blind_ite (blind_pure _)
  apply blind_get fun _ _ => rfl
  intro s
  apply blind_load fun _ _ _ => rfl
  intro t
  apply blind_get fun _ _ => rfl
  intro s
  apply blind_ite (blind_pure _)
  apply blind_bind (blind_unlock hb)
  intro released
  apply blind_ite (blind_pure _)
  apply blind_bind (blind_status _)
  intro _
  apply blind_get fun _ _ => rfl
  intro s
  apply blind_bind (blind_push _ _)
  intro queue
  apply blind_bind (blind_setCond _ _)
  intro _
  apply blind_bind (blind_record _)
  intro _
  exact blind_pure _

theorem blind_signal : Blind I (thread_cond_signal d) (thread_cond_signal d) := by
  apply blind_ite (blind_pure _)
  apply blind_get fun _ _ => rfl
  intro s
  apply blind_bind (blind_pop _)
  rintro ⟨info, queue⟩
  apply blind_bind (blind_setCond _ _)
  intro _
  cases info with
  | none => exact blind_pure _
  | some info =>
    apply blind_bind (blind_record _)
    intro _
    apply blind_get fun _ _ => rfl
    intro s
    apply blind_ite
    · apply blind_bind (blind_setMutex _ _)
      intro _
      apply blind_load fun _ _ _ => rfl
      intro t
      apply blind_bind (blind_setMutex _ _)
      intro _
      apply blind_bind (blind_status _)
      intro _
      apply blind_bind blind_pushReady
      intro _
      exact blind_pure _
    · apply blind_get fun _ _ => rfl
      intro s
      apply blind_bind (blind_push _ _)
      intro queue
      apply blind_bind (blind_setMutex _ _)
      intro _
      apply blind_bind (blind_record _)
      intro _
      exact blind_pure _

theorem blind_handle (x : Ptr) :
    Blind (fun _ => True) (store p fun t => { t with handle := x })
      (store p fun t => { t with handle := x }) :=
  blind_store (fun _ _ _ => ⟨rfl, rfl⟩) fun _ => id

/-! ### Destruction -/

theorem blind_remove : Blind (fun _ => True) (remove_tcb p) (remove_tcb p) := by
  apply blind_get fun _ _ => rfl
  intro s
  apply blind_bind (blind_deref _)
  intro table
  apply blind_load fun _ _ _ => rfl
  intro t
  apply blind_ite (blind_pure _)
  apply blind_bind (blind_deref _)
  intro handle
  cases search handle.id table.head with
  | none => exact blind_pure _
  | some ptr =>
    apply blind_bind (blind_handle _)
    intro _
    apply blind_bind
    · exact blind_modify (fun _ _ => ⟨rfl, rfl, rfl, rfl⟩) fun _ => id
    · exact fun _ => blind_pure _

theorem blind_popTcb : Blind (fun _ => True) pop_tcb pop_tcb := by
  apply blind_get fun _ _ => rfl
  intro s
  apply blind_bind (blind_deref _)
  intro table
  cases table.head with
  | nil => exact blind_pure _
  | cons ret rest =>
    apply blind_bind (blind_handle _)
    intro _
    apply blind_bind
    · exact blind_modify (fun _ _ => ⟨rfl, rfl, rfl, rfl⟩) fun _ => id
    · exact fun _ => blind_pure _

theorem blind_destroy : Blind (fun _ => True) (destroy_thread p) (destroy_thread p) := by
  apply blind_ite (blind_pure _)
  apply blind_bind blind_remove
  intro _
  apply blind_load fun _ _ _ => rfl
  intro t
  apply blind_ite
  · apply blind_bind blind_freeStack
    exact fun _ => blind_freeTcb
  · exact blind_freeTcb

theorem blind_destroyAll (l : List Handle) :
    Blind (fun _ => True) (destroyAll l) (destroyAll l) := by
  induction l with
  | nil => exact blind_pure _
  | cons a rest ih =>
    apply blind_bind blind_popTcb
    intro to_delete
    apply blind_bind blind_destroy
    exact fun _ => ih

theorem blind_destroyMutexes (l : List Ptr) : Blind I (destroyMutexes l) (destroyMutexes l) := by
  induction l with
  | nil => exact blind_pure _
  | cons m rest ih =>
    apply blind_get fun _ _ => rfl
    intro s
    apply blind_bind (blind_deref _)
    intro _
    apply blind_bind (blind_setMutex _ _)
    exact fun _ => ih

theorem blind_destroyConds (l : List Ptr) : Blind I (destroyConds l) (destroyConds l) := by
  induction l with
  | nil => exact blind_pure _
  | cons d rest ih =>
    apply blind_get fun _ _ => rfl
    intro s
    apply blind_bind (blind_deref _)
    intro _
    apply blind_bind
    · exact blind_set (fun _ _ => ⟨rfl, rfl, rfl, rfl⟩) fun _ => ⟨rfl, rfl, rfl⟩
    · exact fun _ => ih

theorem blind_cleanup : Blind (fun _ => True) thread_cleanup thread_cleanup := by
  apply blind_get fun _ _ => rfl
  intro s
  apply blind_ite (blind_pure _)
  apply blind_get fun _ _ => rfl
  intro s
  apply blind_load fun _ _ _ => rfl
  intro t
  apply blind_ite (blind_pure _)
  apply blind_get fun _ _ => rfl
  intro s
  apply blind_bind (blind_deref _)
  intro table
  apply blind_bind (blind_destroyAll _)
  intro _
  apply blind_get fun _ _ => rfl
  intro s
  apply blind_bind (blind_deref _)
  intro ms
  apply blind_bind (blind_destroyMutexes _)
  intro _
  apply blind_get fun _ _ => rfl
  intro s
  apply blind_bind (blind_deref _)
  intro cs
  apply blind_bind (blind_destroyConds _)
  intro _
  exact blind_modify (fun _ _ => ⟨rfl, rfl, rfl, rfl⟩) fun _ => id

theorem used_drop {head : List Handle} {k : Nat} {z : Int} (h : TableOk s T)
    (hd : TableOk (s.drop T head p) ⟨head, k, z⟩) {q : Ptr} (hq : (s.drop T head p).used q) :
    s.used q := by
  have hlive : ∀ {r}, (s.drop T head p).live r = true → s.live r = true ∧ r ≠ p := by
    intro r hr
    by_cases hrp : r = p
    · simp [hrp] at hr
    · exact ⟨by simpa [hrp] using hr, hrp⟩
  rcases hq with hl | hs | ⟨a, ha, rfl⟩
  · exact Or.inl (hlive hl).1
  · right
    left
    rw [State.drop_liveStack] at hs
    split at hs
    · by_cases hqs : q = (s.tcb p).stack
      · simp [hqs] at hs
      · rwa [Function.update_of_ne hqs] at hs
    · exact hs
  · obtain ⟨hl, -, hhandle, -⟩ := hd.entry ha
    obtain ⟨hl, hap⟩ := hlive hl
    obtain ⟨c, hc, hca⟩ := h.listed hl
    refine Or.inr (Or.inr ⟨c, by simpa [h.table] using hc, ?_⟩)
    rw [← (h.entry hc).2.2.1, hca, ← hhandle]
    simp [hap]

/-- After the destruction the blocks in use are still in the table. -/
theorem housed_destroy {s₁ : State} {u : Unit} (h : Housed b s)
    (hrun : destroy_thread p s = .ok (u, s₁)) : Housed b s₁ := by
  by_cases hp : p = 0
  · simp only [destroy_thread, hp, if_true, run_pure, Except.ok.injEq, Prod.mk.injEq] at hrun
    exact hrun.2 ▸ h
  rcases hl : s.live p with _ | _
  · have hfault : destroy_thread p s = .error .fault := by
      rcases ht : s.all_threads with _ | T <;> simp [destroy_thread, hp, remove_tcb, ht, load, hl]
    rw [hfault] at hrun
    contradiction
  · rcases h.settled with ⟨hr, T, hT⟩ | ⟨-, hnone⟩
    · obtain ⟨head, hdestroy, htab⟩ := run_destroy hT hl
      rw [hdestroy, Except.ok.injEq, Prod.mk.injEq] at hrun
      obtain rfl := hrun.2
      refine ⟨Or.inl ⟨hr, _, htab⟩, ?_, fun hr' => absurd (hr.symm.trans hr') (by simp)⟩
      intro q hq
      exact (h.spare q hq).imp_right (mt (used_drop hT htab))
    · rw [hnone] at hl
      contradiction

theorem blind_defer (k : Ptr) :
    Blind (Housed b) (do
      destroy_thread (← get).next_to_destroy
      modify fun s => { s with next_to_destroy := k }
      pure (Outcome.yield none)) (do
      destroy_thread (← get).next_to_destroy
      modify fun s => { s with next_to_destroy := k }
      pure (Outcome.yield none)) := by
  apply blind_get fun _ _ => rfl
  intro s
  have htwin : Twin Like (destroy_thread s.next_to_destroy) (destroy_thread s.next_to_destroy) :=
    fun s t h => alike_mono (blind_destroy s t ⟨h, trivial⟩) fun _ _ h => h.1
  apply blind_bind (twin_and htwin fun _ _ _ => housed_destroy)
  intro _
  apply blind_bind
  · exact blind_set (fun _ _ => ⟨rfl, rfl, rfl, rfl⟩) fun _ => ⟨rfl, rfl, rfl⟩
  · exact fun _ => blind_pure _

theorem blind_terminate : Blind (Housed b) thread_terminate thread_terminate := by
  apply blind_get fun _ _ => rfl
  intro s
  apply blind_bind (blind_status _)
  intro _
  apply blind_bind (blind_record _)
  intro _
  apply blind_load fun _ _ _ => rfl
  intro t
  apply blind_ite
  · apply blind_bind (blind_status _)
    intro _
    apply blind_bind blind_pushReady
    intro _
    apply blind_bind (blind_observer _)
    exact fun _ => blind_defer _
  · exact blind_defer _

end

end Cs720.Threads
