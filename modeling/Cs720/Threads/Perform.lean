import Cs720.Threads.Calls

/-! # The calls do what is said -/

namespace Cs720.Threads

open Cs720.Lib

section
variable {b : Blocks} {n : Nat} {s : State} {T : Table} {loc : Ptr → Option (Place Wait)}
variable {m d p : Ptr}

/-- The call ends, and does what is said. -/
def Acts (b : Blocks) (n : Nat) (s : State) (T : Table) (c : Call) : Prop :=
  ∃ o s₁, perform b n c s = .ok (o, s₁) ∧ Does b s T c o s₁

theorem acts_quiet {c : Call} {v : Int} (hq : Quiet s c v)
    (h : perform b n c s = .ok (.ret v, s)) : Acts b n s T c :=
  ⟨_, _, h, .quiet c v hq⟩

theorem run_self (h : Inv s T loc) :
    thread_self b s = .ok ((s.tcb s.current_thread).tid, s) := by
  simp [thread_self, run_ensure h.ready, run_load (current_live h)]

theorem acts_self (h : Inv s T loc) : Acts b n s T .self := by
  refine acts_quiet (v := (s.tcb s.current_thread).tid) rfl ?_
  simp [perform, run_self h]

theorem ready_some (h : Inv s T loc) : ∃ rl, s.ready_list = some rl :=
  Option.ne_none_iff_exists'.mp h.ready_list

theorem acts_create (h : Inv s T loc) (hj : Zeroed b) (work info : BitVec 64) :
    Acts b n s T (.create work info) := by
  obtain ⟨rl, hrl⟩ := ready_some h
  refine ⟨_, _, ?_, .create work info⟩
  simp [perform, run_create hj.2.1 h.ready h.table.table hrl]

theorem acts_yield (h : Inv s T loc) : Acts b n s T .yield :=
  ⟨_, _, by simp [perform, run_ensure h.ready], .yield⟩

theorem acts_mutexInit (h : Inv s T loc) (m : Ptr) : Acts b n s T (.mutexInit m) := by
  by_cases hm : m = 0
  · refine acts_quiet (v := 0) ⟨hm, rfl⟩ ?_
    simp [perform, thread_mutex_init, run_ensure h.ready, hm]
  · obtain ⟨ms, hms, -⟩ := h.mutexes
    refine ⟨_, _, ?_, .mutexInit m hm⟩
    simp [perform, thread_mutex_init, run_ensure h.ready, hm, setMutex, State.setMutex, queue_push, hms,
      State.newMutex, State.putMutex]

theorem acts_condInit (h : Inv s T loc) (d : Ptr) : Acts b n s T (.condInit d) := by
  by_cases hd : d = 0
  · refine acts_quiet (v := 0) ⟨hd, rfl⟩ ?_
    simp [perform, thread_cond_init, run_ensure h.ready, hd]
  · obtain ⟨cs, hcs, -⟩ := h.conds
    refine ⟨_, _, ?_, .condInit d hd⟩
    simp [perform, thread_cond_init, run_ensure h.ready, hd, setCond, queue_push, hcs,
      State.newCond, State.putCond]

theorem waiters_some (hq : (s.mutex m).q ≠ none) : (s.mutex m).q = some (s.mutex m).waiters := by
  unfold Mutex.waiters
  rcases hr : (s.mutex m).q with _ | l
  · exact absurd hr hq
  · rfl

theorem self_eq (h : Inv s T loc) : s.self = (s.tcb s.current_thread).tid := by
  simp [State.self, h.ready]

theorem acts_lock (h : Inv s T loc) (hs : Safe s (.lock m)) : Acts b n s T (.lock m) := by
  by_cases hm : m = 0
  · refine acts_quiet (v := 0) ⟨Or.inl hm, rfl⟩ ?_
    simp [perform, thread_mutex_lock, hm]
  rcases hl : (s.mutex m).locked with _ | _
  · refine ⟨_, _, ?_, .acquire m hm hl⟩
    simp [perform, thread_mutex_lock, hm, hl, setMutex, State.setMutex, thread_self, ensure, h.ready,
      run_load, current_live h, State.acquire, State.putMutex]
  · by_cases ho : (s.mutex m).owner = (s.tcb s.current_thread).tid
    · refine acts_quiet (v := 0) ⟨Or.inr ⟨hl, ho⟩, rfl⟩ ?_
      simp [perform, thread_mutex_lock, hm, hl, run_self h, ho]
    · have hq : (s.mutex m).q ≠ none := by simpa [Safe, hm, hl, self_eq h, ho] using hs
      refine ⟨_, _, ?_, .enqueue m hl (fun hown => ho hown.2) hq⟩
      simp [perform, thread_mutex_lock, hm, hl, run_self h, ho, run_store, current_live h,
        State.setTcb, queue_push, waiters_some hq, setMutex, State.setMutex, record, State.enqueue,
        State.setStatus, State.putMutex, State.note, withStatus]

variable (b) in
/-- `thread_mutex_unlock` by the owner. -/
theorem run_unlock (h : Inv s T loc) (hm : m ≠ 0) (hq : (s.mutex m).q ≠ none)
    (ho : Owns s m s.current_thread) :
    ∃ s₁, thread_mutex_unlock b m s = .ok (1, s₁) ∧ Unlocks s m s₁ := by
  obtain ⟨rl, hrl⟩ := ready_some h
  have hws := waiters_some hq
  rcases hw : (s.mutex m).waiters with _ | ⟨x, xs⟩
  · rw [hw] at hws
    refine ⟨_, ?_, .release hws⟩
    simp [thread_mutex_unlock, hm, ho.1, ho.2, run_self h, queue_pop, hws, setMutex, State.setMutex,
      State.release, State.putMutex]
  · have hx := (mutex_waiting h (m := m) (p := x) (by rw [hw]; simp)).1
    rw [hw] at hws
    refine ⟨_, ?_, .hand x xs hws⟩
    simp [thread_mutex_unlock, hm, ho.1, ho.2, run_self h, queue_pop, hws, setMutex, State.setMutex,
      store, load, hx, State.setTcb, pushReady, queue_push, hrl, record, State.hand,
      State.putMutex, State.setStatus, State.enready, State.note, withStatus]

theorem run_unlock_other (h : Inv s T loc) (ho : ¬ Owns s m s.current_thread) :
    thread_mutex_unlock b m s = .ok (0, s) := by
  unfold Owns at ho
  by_cases hm : m = 0
  · simp [thread_mutex_unlock, hm]
  rcases hl : (s.mutex m).locked with _ | _
  · simp [thread_mutex_unlock, hm, hl]
  · simp only [hl, true_and] at ho
    simp [thread_mutex_unlock, hm, hl, run_self h, ho]

theorem acts_unlock (h : Inv s T loc) (hs : Safe s (.unlock m)) :
    Acts b n s T (.unlock m) := by
  by_cases hm : m = 0
  · refine acts_quiet (v := 0) ⟨Or.inl hm, rfl⟩ ?_
    simp [perform, thread_mutex_unlock, hm]
  by_cases ho : Owns s m s.current_thread
  · have hq : (s.mutex m).q ≠ none := by simpa [Safe, hm, self_eq h, ho.1, ho.2] using hs
    obtain ⟨s₁, hrun, hu⟩ := run_unlock b h hm hq ho
    refine ⟨_, _, ?_, .unlock m s₁ ho hu⟩
    simp [perform, hrun]
  · refine acts_quiet (v := 0) ⟨Or.inr ho, rfl⟩ ?_
    simp [perform, run_unlock_other h ho]

theorem unlocks_same {s₁ : State} (hu : Unlocks s m s₁) :
    s₁.live = s.live ∧ s₁.current_thread = s.current_thread ∧ s₁.cond = s.cond ∧
    s₁.ready = s.ready ∧ s₁.pending = s.pending := by
  cases hu <;> simp

theorem acts_wait (h : Inv s T loc) (hs : Safe s (.wait d m)) : Acts b n s T (.wait d m) := by
  by_cases hz : d = 0 ∨ m = 0
  · refine acts_quiet (v := 0) ⟨?_, rfl⟩ ?_
    · rcases hz with hd | hm
      · exact Or.inl hd
      · exact Or.inr (Or.inl hm)
    · simp [perform, thread_cond_wait, hz]
  obtain ⟨hd, hm⟩ := not_or.mp hz
  by_cases ho : Owns s m s.current_thread
  · obtain ⟨hq, hd'⟩ : (s.mutex m).q ≠ none ∧ s.cond d ≠ none := by
      simpa [Safe, hd, hm, self_eq h, ho.1, ho.2, h.ready] using hs
    obtain ⟨s₁, hrun, hu⟩ := run_unlock b h hm hq ho
    obtain ⟨hlive, hcur, hcond, -⟩ := unlocks_same hu
    obtain ⟨l, hl⟩ := Option.ne_none_iff_exists'.mp hd'
    refine ⟨_, _, ?_, .wait d m s₁ ho hu hd'⟩
    simp [perform, thread_cond_wait, hd, hm, ho.1, ho.2, run_load, current_live h, hrun, store, hlive,
      State.setTcb, hcond, hl, queue_push, setCond, record, State.await, State.setStatus,
      State.putCond, State.note, withStatus]
  · refine acts_quiet (v := 0) ⟨Or.inr (Or.inr ho), rfl⟩ ?_
    unfold Owns at ho
    rcases hl : (s.mutex m).locked with _ | _
    · simp [perform, thread_cond_wait, hd, hm, hl]
    · simp only [hl, true_and] at ho
      simp [perform, thread_cond_wait, hd, hm, hl, ho, run_load, current_live h]

theorem acts_signal (h : Inv s T loc) (hs : Safe s (.signal d)) : Acts b n s T (.signal d) := by
  by_cases hd : d = 0
  · refine acts_quiet (v := 0) (Or.inl ⟨hd, rfl⟩) ?_
    simp [perform, thread_cond_signal, hd]
  obtain ⟨l, hl⟩ := Option.ne_none_iff_exists'.mp (hs.resolve_left hd)
  cases l with
  | nil =>
    refine acts_quiet (v := 1) (Or.inr ⟨hd, hl, rfl⟩) ?_
    have hsame : Function.update s.cond d (some []) = s.cond := by
      rw [← hl]
      exact Function.update_eq_self d s.cond
    simp [perform, thread_cond_signal, hd, hl, queue_pop, setCond, hsame]
  | cons i rest =>
    have hi : i ∈ (s.cond d).getD [] := by simp [hl]
    obtain ⟨rl, hrl⟩ := ready_some h
    have hx := (cond_waiting h hi).1
    have hq := waiters_some (h.infos hi)
    rcases hk : (s.mutex i.mutex).locked with _ | _
    · refine ⟨_, _, ?_, .signalFree d i rest hl hk⟩
      simp [perform, thread_cond_signal, hd, hl, queue_pop, setCond, record, hk, setMutex,
        State.setMutex, load, store, hx, State.setTcb, pushReady, queue_push, hrl,
        State.unwait, State.acquire, State.putCond, State.putMutex, State.note, State.setStatus,
        State.enready, withStatus]
    · refine ⟨_, _, ?_, .signalHeld d i rest hl hk⟩
      simp [perform, thread_cond_signal, hd, hl, queue_pop, setCond, record, hk, setMutex,
        State.setMutex, queue_push, hq, State.unwait, State.enqueue, State.putCond, State.putMutex,
        State.note]

/-! ## `thread_join` -/

theorem toNat_of_toInt {id : BitVec 64} {k : Nat} (h : (k : Int) = id.toInt) : id.toNat = k := by
  rw [BitVec.toInt_eq_toNat_cond] at h
  split at h <;> omega

theorem run_join_self (h : Inv s T loc) {id : BitVec 64}
    (hid : ((s.tcb s.current_thread).tid : Int) = id.toInt) :
    thread_join b n id s = .ok (.ret (-1), s) := by
  simp [thread_join, run_ensure h.ready, run_load (current_live h), hid]

theorem run_join_absent (h : Inv s T loc) {id : BitVec 64}
    (hid : ∀ p, s.live p = true → (s.tcb p).tid ≠ id.toNat) :
    thread_join b n id s = .ok (.ret (-3), s) := by
  have hself : ((s.tcb s.current_thread).tid : Int) ≠ id.toInt :=
    fun heq => hid _ (current_live h) (toNat_of_toInt heq).symm
  simp [thread_join, run_ensure h.ready, run_load (current_live h), hself, run_get_none h.table hid]

variable (b) in
/-- The id is in the table, but not as a `long`. -/
theorem run_join_fatal (h : Inv s T loc) {id : BitVec 64} {t : Ptr} (ht : s.live t = true)
    (hid : (s.tcb t).tid = id.toNat) (hne : ((s.tcb t).tid : Int) ≠ id.toInt) :
    ∀ o, thread_join b n id s ≠ .ok o ∧ thread_join b n id s ≠ .error .fault := by
  have hself : ((s.tcb s.current_thread).tid : Int) ≠ id.toInt := by
    intro heq
    have hsame := tid_inj h.table ht (current_live h)
      (by rw [hid, toNat_of_toInt heq])
    exact hne (hsame ▸ heq)
  have hget := run_get_tcb h.table ht
  rw [hid] at hget
  simp [thread_join, run_ensure h.ready, run_load (current_live h), hself, hget,
    h.table.ne_zero ht, run_load ht, hne]

theorem observe_table (h : Inv s T loc) (t p : Ptr) : TableOk (s.observe t p) T :=
  table_congr h.table rfl rfl rfl (by simp)

theorem observer_sound (h : Inv s T loc) (hp : s.live p = true) : Sound s (s.tcb p).observer := by
  by_cases ho : (s.tcb p).observer = 0
  · exact Or.inl ho
  · exact Or.inr (observer_waiting h hp ho).1

theorem observe_sound (h : Inv s T loc) (t : Ptr)
    (hp : (s.observe t s.current_thread).live p = true) :
    Sound (s.observe t s.current_thread)
      ((s.observe t s.current_thread).tcb p).observer := by
  rw [State.observe_live] at hp
  simp only [Sound, State.observe_tcb, State.observe_live, withObserver_observer]
  by_cases hpt : p = t
  · rw [if_pos hpt]
    exact Or.inr (current_live h)
  · rw [if_neg hpt, (withStatus_same _ _ _ _).2.1]
    exact observer_sound h hp

/-- The two fields are as they were before the call. -/
theorem observe_undone {t : Ptr} (hw : (s.tcb s.current_thread).status = .WORKING)
    (ho : (s.tcb t).observer = 0) :
    ((s.observe t s.current_thread).setStatus s.current_thread .WORKING).setObserver t 0 = s := by
  have htcb : withObserver (withStatus (withObserver (withStatus s.tcb s.current_thread .WAITING) t
      s.current_thread) s.current_thread .WORKING) t 0 = s.tcb := by
    funext p
    simp only [withObserver, withStatus, Function.update_apply]
    by_cases hpt : p = t <;> by_cases hpc : p = s.current_thread <;> by_cases htc : t = s.current_thread
    all_goals simp_all
    all_goals simp [← hw, ← ho]
  simp [State.observe, State.setStatus, State.setObserver, htcb]

/-- The call finds its target `t`. -/
structure Finds (s : State) (id : BitVec 64) (t : Ptr) : Prop where
  live : s.live t = true
  tid : ((s.tcb t).tid : Int) = id.toInt
  other : t ≠ s.current_thread

theorem finds_self (h : Inv s T loc) {id : BitVec 64} {t : Ptr} (hf : Finds s id t) :
    ((s.tcb s.current_thread).tid : Int) ≠ id.toInt := by
  intro heq
  rw [← hf.tid] at heq
  exact hf.other (tid_inj h.table hf.live (current_live h) (Int.ofNat_inj.mp heq.symm))

theorem finds_get (h : Inv s T loc) {id : BitVec 64} {t : Ptr} (hf : Finds s id t) :
    get_tcb_by_id id.toNat s = .ok (t, s) := by
  rw [toNat_of_toInt hf.tid]
  exact run_get_tcb h.table hf.live

theorem run_join_done (h : Inv s T loc) {id : BitVec 64} {t : Ptr} (hf : Finds s id t)
    (hd : (s.tcb t).status = .DONE) : thread_join b n id s = .ok (.yield (some 0), s) := by
  simp [thread_join, run_ensure h.ready, run_load (current_live h), finds_self h hf, finds_get h hf,
    h.table.ne_zero hf.live, run_load hf.live, hf.tid, hd]

theorem run_join_taken (h : Inv s T loc) {id : BitVec 64} {t : Ptr} (hf : Finds s id t)
    (hd : (s.tcb t).status ≠ .DONE) (ho : (s.tcb t).observer ≠ 0) :
    thread_join b n id s = .ok (.ret (-2), s) := by
  simp [thread_join, run_ensure h.ready, run_load (current_live h), finds_self h hf, finds_get h hf,
    h.table.ne_zero hf.live, run_load hf.live, hf.tid, hd, ho]

variable (b) in
/-- With no other observer, the chain of observers decides. -/
theorem run_join_chain (h : Inv s T loc) (hw : (s.tcb s.current_thread).status = .WORKING)
    {id : BitVec 64} {t : Ptr} (hf : Finds s id t) (hd : (s.tcb t).status ≠ .DONE)
    (ho : (s.tcb t).observer = 0) :
    (Endless (s.observe t s.current_thread).link s.current_thread ∧
      thread_join b n id s = .ok (.ret (-1), s)) ∨
    (¬ Endless (s.observe t s.current_thread).link s.current_thread ∧
      thread_join b n id s = .ok (.yield (some 0), s.observe t s.current_thread)) ∨
    (n ≤ T.head.length ∧ thread_join b n id s = .error .budget) := by
  have hcur := current_live h
  have hjoin : thread_join b n id s = (do
      if ← detect_deadlock n then do
        store s.current_thread fun t => { t with status := .WORKING }
        store t fun t => { t with observer := 0 }
        pure (.ret (-1))
      else pure (.yield (some 0)) : M Outcome) (s.observe t s.current_thread) := by
    simp [thread_join, run_ensure h.ready, run_load hcur, finds_self h hf, finds_get h hf,
      h.table.ne_zero hf.live, run_load hf.live, hf.tid, hd, ho, store, hcur, hf.live,
      State.setTcb, State.observe, State.setStatus, State.setObserver, withStatus, withObserver]
  have hundone := observe_undone hw ho
  rcases run_detect (observe_table h t s.current_thread) (observe_sound h t) hcur n with
    ⟨r, hr, hiff⟩ | ⟨hn, hr⟩
  · cases r with
    | true =>
      refine Or.inl ⟨hiff.mp rfl, ?_⟩
      rw [hjoin]
      have hback : (s.observe t s.current_thread).setTcb s.current_thread
          (fun t => { t with status := .WORKING }) =
          (s.observe t s.current_thread).setStatus s.current_thread .WORKING := rfl
      have hback' : ((s.observe t s.current_thread).setStatus s.current_thread .WORKING).setTcb t
          (fun t => { t with observer := 0 }) = s := hundone
      simp [hr, store, hcur, hf.live, hback, hback']
    | false =>
      refine Or.inr (Or.inl ⟨fun he => by simpa using hiff.mpr he, ?_⟩)
      rw [hjoin]
      simp [hr]
  · refine Or.inr (Or.inr ⟨hn, ?_⟩)
    rw [hjoin]
    simp [hr]

theorem acts_negative {id : BitVec 64} {v : Int} (hv : v < 0)
    (h : thread_join b n id s = .ok (.ret v, s)) : Acts b n s T (.join id) :=
  acts_quiet (c := .join id) hv h

variable (b) in
theorem acts_join (h : Inv s T loc) (hw : (s.tcb s.current_thread).status = .WORKING)
    (id : BitVec 64) :
    Acts b n s T (.join id) ∨ ∃ e, perform b n (.join id) s = .error e ∧ e ≠ .fault := by
  have hperf : perform b n (.join id) s = thread_join b n id s := rfl
  by_cases hself : ((s.tcb s.current_thread).tid : Int) = id.toInt
  · left
    exact acts_negative (v := -1) (by decide) (run_join_self h hself)
  by_cases hid : ∃ t, s.live t = true ∧ (s.tcb t).tid = id.toNat
  · obtain ⟨t, ht, hid⟩ := hid
    by_cases hsame : ((s.tcb t).tid : Int) = id.toInt
    · have hf : Finds s id t := ⟨ht, hsame, fun heq => hself (heq ▸ hsame)⟩
      by_cases hd : (s.tcb t).status = .DONE
      · exact Or.inl ⟨_, _, run_join_done h hf hd, .joinDone id t ht hsame hd⟩
      by_cases ho : (s.tcb t).observer = 0
      · rcases run_join_chain b (n := n) h hw hf hd ho with ⟨-, hr⟩ | ⟨he, hr⟩ | ⟨-, hr⟩
        · exact Or.inl (acts_negative (v := -1) (by decide) hr)
        · exact Or.inl ⟨_, _, hr, .join id t ht hsame hd ho hf.other he⟩
        · exact Or.inr ⟨_, hr, by simp⟩
      · exact Or.inl (acts_negative (v := -2) (by decide) (run_join_taken h hf hd ho))
    · have hfatal := run_join_fatal b (n := n) h ht hid hsame
      rcases hr : thread_join b n id s with e | o
      · refine Or.inr ⟨e, hr, ?_⟩
        rintro rfl
        exact (hfatal (.ret 0, s)).2 hr
      · exact absurd hr (hfatal o).1
  · left
    push Not at hid
    exact acts_negative (v := -3) (by decide) (run_join_absent h hid)

/-! ## `thread_terminate` -/

theorem retired_table (h : Inv s T loc) (p : Ptr) : TableOk (s.retired p) T :=
  table_congr h.table rfl rfl rfl (by simp)

theorem tell_table {s₁ : State} (h : TableOk s₁ T) (p : Ptr) : TableOk (s₁.tell p) T :=
  table_congr h rfl rfl rfl (by simp)

variable (b) in
/-- What `thread_terminate` does before it destroys a thread. -/
theorem run_terminate (h : Inv s T loc) :
    ∃ s₁, Told s s₁ ∧ TableOk s₁ T ∧
      perform b n .terminate s = (do
        destroy_thread s.next_to_destroy
        modify fun s₂ => s₂.setNext s.current_thread
        pure (.yield none) : M Outcome) s₁ := by
  have hcur := current_live h
  by_cases ho : (s.tcb s.current_thread).observer = 0
  · refine ⟨_, Or.inl ⟨rfl, ho⟩, retired_table h _, ?_⟩
    simp [perform, thread_terminate, store, load, hcur, State.setTcb, record, ho, State.retired,
      State.setStatus, State.note, withStatus, State.setNext]
  · obtain ⟨rl, hrl⟩ := ready_some h
    refine ⟨_, Or.inr ⟨rfl, ho⟩, tell_table (retired_table h _) _, ?_⟩
    have hobs := (observer_waiting h hcur ho).1
    simp [perform, thread_terminate, store, load, hcur, State.setTcb, record, ho, hobs, pushReady,
      queue_push, hrl, State.retired, State.tell, State.setStatus, State.setObserver, State.enready,
      State.note, withStatus, withObserver, State.setNext]

theorem told_live {s₁ : State} (ht : Told s s₁) : s₁.live = s.live := by
  rcases ht with ⟨rfl, -⟩ | ⟨rfl, -⟩ <;> simp

variable (b n) in
/-- `thread_terminate` when the thread that is next to destroy has a TCB. -/
theorem run_terminate_next (h : Inv s T loc) (hlive : s.live s.next_to_destroy = true) :
    ∃ s₁ head, Told s s₁ ∧
      TableOk (s₁.drop T head s.next_to_destroy) ⟨head, T.max_id, T.size - 1⟩ ∧
      perform b n .terminate s = .ok (.yield none,
        (s₁.drop T head s.next_to_destroy).setNext s.current_thread) := by
  obtain ⟨s₁, hs₁, htab, hrun⟩ := run_terminate b (n := n) h
  have hlive₁ : s₁.live s.next_to_destroy = true := by
    rw [told_live hs₁]
    exact hlive
  obtain ⟨head, hdestroy, hdrop⟩ := run_destroy htab hlive₁
  refine ⟨s₁, head, hs₁, hdrop, ?_⟩
  rw [hrun]
  simp [hdestroy]

theorem acts_terminate (h : Inv s T loc) (hs : Safe s .terminate) : Acts b n s T .terminate := by
  rcases hs with h0 | ⟨hlive, hdone⟩
  · obtain ⟨s₁, hs₁, htab, hrun⟩ := run_terminate b (n := n) h
    refine ⟨_, _, ?_, .terminate s₁ s₁ hs₁ (Or.inl ⟨rfl, h0⟩)⟩
    rw [hrun]
    simp [destroy_thread, h0]
  · obtain ⟨s₁, head, hs₁, hdrop, hrun⟩ := run_terminate_next b n h hlive
    exact ⟨_, _, hrun, .terminate s₁ _ hs₁ (Or.inr ⟨⟨head, rfl, hdrop⟩, hlive, hdone⟩)⟩

/-- The deferred destruction uses a TCB that has been freed. -/
theorem terminate_dangling (h : Inv s T loc) (h0 : s.next_to_destroy ≠ 0)
    (hn : s.live s.next_to_destroy ≠ true) : perform b n .terminate s = .error .fault := by
  obtain ⟨s₁, hs₁, htab, hrun⟩ := run_terminate b (n := n) h
  have hn₁ : s₁.live s.next_to_destroy = false := by
    rw [told_live hs₁]
    simpa using hn
  rw [hrun]
  simp [destroy_thread, h0, remove_tcb, htab.table, load, hn₁]

/-! ## `thread_cleanup` -/

/-- What the destruction of threads and of queues leaves alone. -/
structure Kept (s s₁ : State) : Prop where
  mutexes : s₁.mutexes = s.mutexes
  conds : s₁.conds = s.conds

theorem run_destroyAll {l : List Handle} {k : Nat} {z : Int} (h : TableOk s ⟨l, k, z⟩) :
    ∃ s₁, destroyAll l s = .ok ((), s₁) ∧ Kept s s₁ ∧ (∀ p, s₁.live p = false) ∧
      s₁.mutex = s.mutex ∧ s₁.cond = s.cond := by
  induction l generalizing s z with
  | nil =>
    refine ⟨s, rfl, ⟨rfl, rfl⟩, fun p => ?_, rfl, rfl⟩
    rcases hp : s.live p with _ | _
    · rfl
    · obtain ⟨a, ha, -⟩ := h.listed hp
      contradiction
  | cons a rest ih =>
    obtain ⟨hrun, htab⟩ := run_pop_destroy h
    obtain ⟨s₁, hrest, hkept, hlive, hm, hc⟩ := ih htab
    refine ⟨s₁, ?_, ⟨hkept.mutexes, hkept.conds⟩, hlive, hm, hc⟩
    rw [run_bind] at hrun
    obtain ⟨⟨q, s₂⟩, hpop, hdestroy⟩ := bind_ok.mp hrun
    simp only at hdestroy
    simp [destroyAll, hpop, hdestroy, hrest]

theorem run_destroyMutexes {ms : List Ptr} (hnodup : ms.Nodup)
    (hq : ∀ m ∈ ms, (s.mutex m).q ≠ none) :
    ∃ s₁, destroyMutexes ms s = .ok ((), s₁) ∧ Kept s s₁ ∧ s₁.live = s.live ∧ s₁.cond = s.cond ∧
      ∀ m, (m ∈ ms → (s₁.mutex m).q = none) ∧ (m ∉ ms → s₁.mutex m = s.mutex m) := by
  induction ms generalizing s with
  | nil => exact ⟨s, rfl, ⟨rfl, rfl⟩, rfl, rfl, by simp⟩
  | cons m rest ih =>
    have hws := waiters_some (hq m (by simp))
    have hout := (List.nodup_cons.mp hnodup).1
    have hq' : ∀ k ∈ rest, ((s.putMutex m { s.mutex m with q := none }).mutex k).q ≠ none := by
      intro k hk
      have hkm : k ≠ m := fun heq => hout (heq ▸ hk)
      simpa [Function.update_of_ne hkm] using hq k (by simp [hk])
    obtain ⟨s₁, hrun, hkept, hlive, hcond, hmutex⟩ := ih (List.nodup_cons.mp hnodup).2 hq'
    refine ⟨s₁, ?_, ⟨hkept.mutexes, hkept.conds⟩, hlive, hcond, fun k => ⟨?_, ?_⟩⟩
    · have hrun' : destroyMutexes rest (s.setMutex m fun m => { m with q := none }) =
          .ok ((), s₁) := hrun
      simp [destroyMutexes, hws, setMutex, hrun']
    · intro hk
      by_cases hkm : k = m
      · rw [hkm, (hmutex m).2 hout]
        simp
      · exact (hmutex k).1 ((List.mem_cons.mp hk).resolve_left hkm)
    · intro hk
      rw [List.mem_cons, not_or] at hk
      rw [(hmutex k).2 hk.2]
      simp [Function.update_of_ne hk.1]

theorem run_destroyConds {cs : List Ptr} (hnodup : cs.Nodup) (hq : ∀ d ∈ cs, s.cond d ≠ none) :
    ∃ s₁, destroyConds cs s = .ok ((), s₁) ∧ Kept s s₁ ∧ s₁.live = s.live ∧ s₁.mutex = s.mutex ∧
      ∀ d, (d ∈ cs → s₁.cond d = none) ∧ (d ∉ cs → s₁.cond d = s.cond d) := by
  induction cs generalizing s with
  | nil => exact ⟨s, rfl, ⟨rfl, rfl⟩, rfl, rfl, by simp⟩
  | cons d rest ih =>
    obtain ⟨l, hl⟩ := Option.ne_none_iff_exists'.mp (hq d (by simp))
    have hout := (List.nodup_cons.mp hnodup).1
    have hq' : ∀ k ∈ rest,
        ({ s with cond := Function.update s.cond d none } : State).cond k ≠ none := by
      intro k hk
      have hkd : k ≠ d := fun heq => hout (heq ▸ hk)
      simpa [Function.update_of_ne hkd] using hq k (by simp [hk])
    obtain ⟨s₁, hrun, hkept, hlive, hmutex, hcond⟩ := ih (List.nodup_cons.mp hnodup).2 hq'
    refine ⟨s₁, by simp [destroyConds, hl, hrun], ⟨hkept.mutexes, hkept.conds⟩, hlive, hmutex,
      fun k => ⟨?_, ?_⟩⟩
    · intro hk
      by_cases hkd : k = d
      · rw [hkd, (hcond d).2 hout]
        simp
      · exact (hcond k).1 ((List.mem_cons.mp hk).resolve_left hkd)
    · intro hk
      rw [List.mem_cons, not_or] at hk
      rw [(hcond k).2 hk.2]
      simp [Function.update_of_ne hk.1]

/-- `thread_cleanup` by the first thread leaves the library as it is before `init`. -/
theorem run_cleanup (h : Inv s T loc) (hc : (s.tcb s.current_thread).tid = 0) :
    ∃ s₁, thread_cleanup s = .ok ((), s₁) ∧ Off s₁ := by
  have hcur := current_live h
  obtain ⟨ms, hms, hmsn, hmsi⟩ := h.mutexes
  obtain ⟨cs, hcs, hcsn, hcsi⟩ := h.conds
  obtain ⟨s₁, hrun₁, hkept₁, hlive₁, hm₁, hc₁⟩ := run_destroyAll h.table
  obtain ⟨s₂, hrun₂, hkept₂, hlive₂, hc₂, hm₂⟩ := run_destroyMutexes (s := s₁) hmsn (by
    intro m hm
    rw [hm₁]
    exact (hmsi m).mp hm)
  obtain ⟨s₃, hrun₃, hkept₃, hlive₃, hm₃, hc₃⟩ := run_destroyConds (s := s₂) hcsn (by
    intro d hd
    rw [hc₂, hc₁]
    exact (hcsi d).mp hd)
  refine ⟨{ s₃ with
    all_threads := none, ready_list := none, mutexes := none, conds := none, ready := false }, ?_,
    rfl, ?_, ?_, ?_⟩
  · simp [thread_cleanup, h.ready, run_load hcur, hc, h.table.table, hrun₁, hkept₁.mutexes, hms, hrun₂,
      hkept₂.conds, hkept₁.conds, hcs, hrun₃]
  · intro p
    change s₃.live p = false
    rw [hlive₃, hlive₂]
    exact hlive₁ p
  · intro m
    change (s₃.mutex m).q = none
    rw [hm₃]
    by_cases hm : m ∈ ms
    · exact (hm₂ m).1 hm
    · rw [(hm₂ m).2 hm, hm₁]
      exact not_not.mp fun hne => hm ((hmsi m).mpr hne)
  · intro d
    change s₃.cond d = none
    by_cases hd : d ∈ cs
    · exact (hc₃ d).1 hd
    · rw [(hc₃ d).2 hd, hc₂, hc₁]
      exact not_not.mp fun hne => hd ((hcsi d).mpr hne)

theorem acts_cleanup (h : Inv s T loc) : Acts b n s T .cleanup := by
  by_cases hc : (s.tcb s.current_thread).tid = 0
  · obtain ⟨s₁, hrun, hoff⟩ := run_cleanup h hc
    exact ⟨_, _, by simp [perform, hrun], .cleanup s₁ hoff⟩
  · refine acts_quiet (v := 0) rfl ?_
    simp [perform, thread_cleanup, h.ready, run_load (current_live h), hc]

/-! ## Any call -/

/-- A safe call does what is said, or it stops, but not because it uses freed memory. -/
theorem acts (h : Inv s T loc) (hw : (s.tcb s.current_thread).status = .WORKING) (hj : Zeroed b)
    {c : Call} (hs : Safe s c) :
    Acts b n s T c ∨ ∃ e, perform b n c s = .error e ∧ e ≠ .fault := by
  cases c with
  | self => exact Or.inl (acts_self h)
  | create work info => exact Or.inl (acts_create h hj work info)
  | yield => exact Or.inl (acts_yield h)
  | join id => exact acts_join b h hw id
  | mutexInit m => exact Or.inl (acts_mutexInit h m)
  | lock m => exact Or.inl (acts_lock h hs)
  | unlock m => exact Or.inl (acts_unlock h hs)
  | condInit d => exact Or.inl (acts_condInit h d)
  | wait d m => exact Or.inl (acts_wait h hs)
  | signal d => exact Or.inl (acts_signal h hs)
  | cleanup => exact Or.inl (acts_cleanup h)
  | terminate => exact Or.inl (acts_terminate h hs)

/-- A call that is not safe uses a queue that is not there, if it does not end a thread. -/
theorem unsafe_fault (h : Inv s T loc) {c : Call} (hc : c ≠ .terminate) (hs : ¬ Safe s c) :
    perform b n c s = .error .fault := by
  have hcur := current_live h
  cases c with
  | lock m =>
    simp only [Safe, not_or, not_not, Bool.not_eq_false, self_eq h] at hs
    obtain ⟨hm, hq, hl, ho⟩ := hs
    simp [perform, thread_mutex_lock, hm, hl, run_self h, ho, run_store, hcur, State.setTcb,
      queue_push, hq, deref, stop]
  | unlock m =>
    simp only [Safe, not_or, not_not, Bool.not_eq_false, self_eq h] at hs
    obtain ⟨hm, hq, hl, ho⟩ := hs
    simp [perform, thread_mutex_unlock, hm, hl, run_self h, ho, queue_pop, hq, deref, stop]
  | wait d m =>
    simp only [Safe, not_or, not_and, not_not, Bool.not_eq_false, self_eq h] at hs
    obtain ⟨hd, hm, hl, hr⟩ := hs
    obtain ⟨ho, hq⟩ := hr h.ready
    by_cases hqm : (s.mutex m).q = none
    · simp [perform, thread_cond_wait, hd, hm, hl, ho, run_load hcur, thread_mutex_unlock, run_self h,
        queue_pop, hqm, deref, stop]
    · obtain ⟨s₁, hrun, hu⟩ := run_unlock b h hm hqm ⟨hl, ho⟩
      obtain ⟨hlive, -, hcond, -⟩ := unlocks_same hu
      simp [perform, thread_cond_wait, hd, hm, hl, ho, run_load hcur, hrun, store, hlive, hcur,
        State.setTcb, hcond, hq hqm, queue_push, deref, stop]
  | signal d =>
    simp only [Safe, not_or, not_not] at hs
    simp [perform, thread_cond_signal, hs.1, hs.2, queue_pop, deref, stop]
  | terminate => contradiction
  | _ => exact absurd trivial hs

end

end Cs720.Threads
