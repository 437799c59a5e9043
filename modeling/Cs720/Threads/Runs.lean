import Cs720.Threads.Preserve

/-! # Runs of the library -/

namespace Cs720.Threads

open Cs720.Lib

/-! ## Between two calls -/

/-- The current thread can make a call. -/
structure Calm (s : State) (T : Table) (loc : Ptr → Option (Place Wait)) : Prop
    extends Inv s T loc where
  works : (s.tcb s.current_thread).status = .WORKING
  returned : s.pending s.current_thread = none

/-- The state with the outcome of the call noted, before the context switch. -/
def State.after (s : State) (c : Call) : Outcome → State
  | .ret v => s.note (.returned (s.tcb s.current_thread).tid c v)
  | .yield v => s.pend s.current_thread (v.map fun v => (c, v))

/-- The current thread returns from the call in which it was switched out, if any. -/
def State.resumed (s : State) : State :=
  match s.pending s.current_thread with
  | none => s
  | some (c, v) =>
    (s.pend s.current_thread none).note (.returned (s.tcb s.current_thread).tid c v)

/-- What the status of the caller is when the call comes to `o`. -/
def Leaves (x : Status) : Outcome → Prop
  | .ret _ => x = .WORKING
  | .yield (some _) => x ≠ .DONE
  | .yield none => x = .DONE

section
variable {b : Blocks} {n : Nat} {s s₁ s₂ : State} {T : Table}
variable {loc : Ptr → Option (Place Wait)} {c : Call} {o : Outcome} {x : Ptr} {xs : List Ptr}

/-! ## A call -/

theorem does_inv (h : Calm s T loc) (hb : Spare s b) (hj : Zeroed b) (ha : Allowed s c)
    (hd : Does b s T c o s₁) (hr : s₁.ready = true) :
    (∃ U l, Inv s₁ U l) ∧ s₁.current_thread = s.current_thread ∧
      s₁.pending s.current_thread = none ∧ Leaves (s₁.tcb s.current_thread).status o := by
  have hw := h.works
  have hnd : (s.tcb s.current_thread).status ≠ .DONE := by simp [hw]
  cases hd with
  | quiet c v => exact ⟨⟨T, loc, h.toInv⟩, rfl, h.returned, hw⟩
  | create work info =>
    have hne : s.current_thread ≠ b.thread.addr := by
      intro heq
      exact (thread_spare hb).2 (heq ▸ current_live h.toInv)
    refine ⟨inv_created h.toInv hb hj.2 info, rfl, ?_, ?_⟩
    · simpa [Function.update_of_ne hne] using h.returned
    · simp [Leaves, Function.update_of_ne hne, hw]
  | yield => exact ⟨⟨T, loc, h.toInv⟩, rfl, h.returned, hnd⟩
  | joinDone id t => exact ⟨⟨T, loc, h.toInv⟩, rfl, h.returned, hnd⟩
  | join id t ht _ hdone ho htc =>
    exact ⟨⟨T, inv_observe h.toInv hw ht hdone ho⟩, rfl, h.returned, by simp [Leaves]⟩
  | mutexInit m hm => exact ⟨⟨T, loc, inv_newMutex h.toInv ha⟩, rfl, h.returned, hw⟩
  | acquire m hm hl =>
    refine ⟨⟨T, loc, inv_congr h.toInv rfl rfl rfl rfl rfl rfl rfl rfl rfl rfl ?_ rfl rfl⟩, rfl,
      h.returned, hw⟩
    intro k
    by_cases hk : k = m <;> simp [hk]
  | enqueue m hl ho hq => exact ⟨⟨T, inv_enqueue h.toInv hw hq⟩, rfl, h.returned, by simp [Leaves]⟩
  | unlock m s₁ ho hu =>
    obtain ⟨⟨l, hl⟩, hst, -⟩ := inv_unlocks h.toInv hw hu
    obtain ⟨-, hcur, -, -, hpend⟩ := unlocks_same hu
    exact ⟨⟨T, l, hl⟩, hcur, hpend ▸ h.returned, hst⟩
  | condInit d hd => exact ⟨⟨T, loc, inv_newCond h.toInv ha⟩, rfl, h.returned, hw⟩
  | wait d m s₁ ho hu hd =>
    obtain ⟨⟨l, hl⟩, hst, hq⟩ := inv_unlocks h.toInv hw hu
    obtain ⟨-, hcur, hcond, -, hpend⟩ := unlocks_same hu
    rw [← hcur] at hst
    have hwait := inv_await hl hst (d := d) (by rw [hcond]; exact hd) hq
    rw [hcur] at hwait
    exact ⟨⟨T, hwait⟩, hcur, hpend ▸ h.returned, by simp [Leaves]⟩
  | signalFree d i rest hd hl =>
    have hx := (cond_waiting h.toInv (d := d) (i := i) (by simp [hd])).2
    refine ⟨⟨T, inv_signalFree h.toInv hw hd⟩, by simp, by simpa using h.returned, ?_⟩
    simp [Leaves, (ne_current hw hx).symm, hw]
  | signalHeld d i rest hd hl =>
    exact ⟨⟨T, inv_signalHeld h.toInv hd⟩, by simp, by simpa using h.returned, by simpa [Leaves]⟩
  | cleanup s₁ hoff =>
    rw [hoff.ready] at hr
    contradiction
  | terminate s₁ s₂ ht hdes =>
    obtain ⟨hinv, hst, he⟩ := terminate_spec h.toInv hw h.returned ht hdes
    refine ⟨hinv, hst.current, hst.pending ▸ h.returned, ?_⟩
    rw [he.status, if_pos rfl]
    rfl

/-- Only `thread_cleanup` makes the library not ready. -/
theorem does_ready (h : Calm s T loc) (hd : Does b s T c o s₁) :
    s₁.ready = true ∨ c = .cleanup ∧ o = .ret 0 ∧ Off s₁ := by
  cases hd with
  | cleanup s₁ hoff => exact Or.inr ⟨rfl, rfl, hoff⟩
  | unlock m s₁ ho hu => exact Or.inl ((unlocks_same hu).2.2.2.1.trans h.ready)
  | wait d m s₁ ho hu hd => exact Or.inl ((unlocks_same hu).2.2.2.1.trans h.ready)
  | terminate s₁ s₂ ht hdes =>
    exact Or.inl ((terminate_spec h.toInv h.works h.returned ht hdes).2.1.ready.trans h.ready)
  | _ => exact Or.inl (by simp [h.ready])

theorem inv_note (h : Inv s T loc) (e : Event) : Inv (s.note e) T loc :=
  inv_congr h rfl rfl rfl rfl rfl rfl rfl rfl rfl rfl (fun _ => rfl) rfl rfl

theorem inv_pend (h : Inv s T loc) {v : Option (Call × Int)}
    (hv : v ≠ none → (s.tcb s.current_thread).status ≠ .DONE) :
    Inv (s.pend s.current_thread v) T loc := by
  refine ⟨lists_congr h.toLists h.ready_list rfl rfl (fun _ => Iff.rfl) (fun _ => Iff.rfl)
    (fun hi => h.infos hi), ⟨?_, h.observer_done, h.next_of_done⟩, h.ready,
    table_congr h.table rfl rfl rfl (by simp), h.sched⟩
  intro p hp hdone
  by_cases hpc : p = s.current_thread
  · subst hpc
    rw [State.pend_pending, Function.update_self]
    exact not_not.mp fun hne => hv hne hdone
  · rw [State.pend_pending, Function.update_of_ne hpc]
    exact h.pending_done hp hdone

theorem after_inv (h : Inv s T loc) (hl : Leaves (s.tcb s.current_thread).status o) :
    Inv (s.after c o) T loc := by
  cases o with
  | ret v => exact inv_note h _
  | yield v =>
    refine inv_pend h ?_
    cases v with
    | none => simp
    | some v => exact fun _ => hl

/-! ## The context switch -/

variable (b) in
/-- `thread_yield` pops the front of the ready list, which can work. It exits when there is none,
and the caller cannot work. -/
theorem run_yield (h : Inv s T loc) :
    (s.ready_list = some [] ∧ (s.tcb s.current_thread).status = .WORKING ∧
      thread_yield b s = .ok ((), s)) ∨
    (s.ready_list = some [] ∧ (s.tcb s.current_thread).status ≠ .WORKING ∧
      thread_yield b s = .error (.exit (-1))) ∨
    ∃ x xs, s.ready_list = some (x :: xs) ∧
      thread_yield b s = .ok ((), s.dispatch x (s.behind xs)) := by
  have hcur := current_live h
  obtain ⟨rl, hrl⟩ := ready_some h
  cases rl with
  | nil =>
    have hsame : { s with ready_list := some [] } = s := by rw [← hrl]
    by_cases hw : (s.tcb s.current_thread).status = .WORKING
    · refine Or.inl ⟨hrl, hw, ?_⟩
      simp [thread_yield, run_ensure h.ready, hrl, yieldFrom, hsame, run_load hcur, hw]
    · refine Or.inr (Or.inl ⟨hrl, hw, ?_⟩)
      simp [thread_yield, run_ensure h.ready, hrl, yieldFrom, hsame, run_load hcur, hw]
  | cons x xs =>
    have hx := ready_working h (p := x) (by simp [hrl])
    have hne : x ≠ s.current_thread := by
      rintro rfl
      exact Scheduler.current_notMem_ready h.sched (by simp [State.queue, hrl])
    refine Or.inr (Or.inr ⟨x, xs, hrl, ?_⟩)
    by_cases hw : (s.tcb s.current_thread).status = .WORKING
    · simp [thread_yield, run_ensure h.ready, hrl, yieldFrom, load, store, hcur, hx.1, hx.2, hw,
        pushReady, queue_push, asm_yield, State.setTcb, State.dispatch, State.behind, withRegs, hne]
    · simp [thread_yield, run_ensure h.ready, hrl, yieldFrom, load, store, hcur, hx.1, hx.2, hw,
        asm_yield, State.setTcb, State.dispatch, State.behind, withRegs, hne]

theorem inv_dispatch (h : Inv s T loc) (hrl : s.ready_list = some (x :: xs)) :
    (∃ l, Inv (s.dispatch x (s.behind xs)) T l) ∧ (s.tcb x).status = .WORKING := by
  have hq : s.view.queue .ready = x :: xs := by simp [State.queue, hrl]
  obtain ⟨l, hok⟩ := Scheduler.switch_ok h.sched hq
  rw [← view_dispatch] at hok
  refine ⟨⟨l, ?_, ?_, h.ready, ?_, hok⟩, (ready_working h (by simp [hrl])).2⟩
  · apply lists_congr h.toLists
    · simp
    · simp
    · simp
    · simp
    · simp
    · exact fun hi => h.infos hi
  · apply finished_congr h.toFinished <;> simp
  · apply table_congr h.table <;> simp

theorem run_resume (s : State) : resume s = .ok ((), s.resumed) := by
  unfold resume State.resumed
  rcases hp : s.pending s.current_thread with _ | ⟨c, v⟩
  · simp [hp]
  · simp [hp, record, State.note, State.pend]

theorem resumed_calm (h : Inv s T loc) (hw : (s.tcb s.current_thread).status = .WORKING) :
    Calm s.resumed T loc := by
  unfold State.resumed
  rcases hp : s.pending s.current_thread with _ | ⟨c, v⟩
  · exact ⟨h, hw, hp⟩
  · exact ⟨inv_note (inv_pend h (by simp)) _, hw, by simp⟩

/-- Where the outcome of a call leads. -/
inductive Finishes (s : State) (c : Call) : Outcome → State → Prop where
  | ret (v : Int) : Finishes s c (.ret v) (s.after c (.ret v))
  | stay (v : Option Int) : s.ready_list = some [] →
      (s.tcb s.current_thread).status = .WORKING →
      Finishes s c (.yield v) (s.after c (.yield v)).resumed
  | switch (v : Option Int) (x : Ptr) (xs : List Ptr) : s.ready_list = some (x :: xs) →
      Finishes s c (.yield v) ((s.after c (.yield v)).dispatch x (s.behind xs)).resumed

variable (b) in
theorem run_finish (h : Inv s T loc) (hl : Leaves (s.tcb s.current_thread).status o) :
    (∃ s₁, finish b c o s = .ok ((), s₁) ∧ Finishes s c o s₁) ∨
      finish b c o s = .error (.exit (-1)) := by
  cases o with
  | ret v => exact Or.inl ⟨_, rfl, .ret v⟩
  | yield v =>
    have hrun : finish b c (.yield v) s = (do
        thread_yield b
        resume : M Unit) (s.after c (.yield v)) := by
      simp [finish, State.after, State.pend]
    rw [hrun]
    rcases run_yield b (after_inv (c := c) h hl) with ⟨hr, hw, hy⟩ | ⟨-, -, hy⟩ | ⟨x, xs, hr, hy⟩
    · exact Or.inl ⟨_, by simp [hy, run_resume], .stay v hr hw⟩
    · exact Or.inr (by simp [hy])
    · exact Or.inl ⟨_, by simp [hy, run_resume]; rfl, .switch v x xs hr⟩

theorem finishes_calm (h : Inv s T loc) (hl : Leaves (s.tcb s.current_thread).status o)
    (hp : ∀ v, o = .ret v → s.pending s.current_thread = none) (hf : Finishes s c o s₁) :
    ∃ l, Calm s₁ T l := by
  have hinv := after_inv (c := c) h hl
  cases hf with
  | ret v => exact ⟨loc, hinv, hl, hp v rfl⟩
  | stay v hr hw => exact ⟨loc, resumed_calm hinv hw⟩
  | switch v x xs hr =>
    obtain ⟨⟨l, hd⟩, hx⟩ := inv_dispatch hinv hr
    exact ⟨l, resumed_calm hd (by simpa [State.after] using hx)⟩

/-! ## The first call -/

/-- The first thread is in no call. -/
theorem pending_started (h : Off s) {p : Ptr} (hp : (s.started b).live p = true) :
    (s.started b).pending p = none := by
  rw [State.started_pending, live_started h.live hp, Function.update_self]

theorem started_calm (h : Off s) (hb : Unused s b) (hj : Zeroed b) :
    ∃ T loc, Calm (s.started b) T loc := by
  have honly {p : Ptr} : (s.started b).live p = true → p = b.parent.addr := live_started h.live
  have hworks : ∀ {p}, (s.started b).live p = true → ((s.started b).tcb p).status = .WORKING := by
    intro p hp
    simp [honly hp]
  have hempty : ∀ w, (s.started b).queue w = [] := by
    intro w
    rcases w with _ | k | k | k
    · simp [State.queue]
    · simp [State.queue, Mutex.waiters, h.mutex]
    · simp [State.queue, h.cond]
    · by_cases hk : k = b.parent.addr <;> simp [State.queue, hk, h.live, hj.1.2]
  have hsched : (s.started b).view.Ok fun _ => none := by
    refine ⟨⟨?_, ?_⟩, by simp, by simp, by simp, ?_⟩
    · intro p w
      simp [hempty]
    · intro w
      simp [hempty]
    · intro p hp
      rw [honly hp]
      simp [Scheduler.Placed, Status.mode]
  refine ⟨_, _, ⟨⟨by simp, ⟨[], rfl, List.nodup_nil, by simp [h.mutex]⟩,
    ⟨[], rfl, List.nodup_nil, by simp [h.cond]⟩, by simp [h.cond]⟩, ⟨?_, ?_, ?_⟩, rfl,
    table_started hb h.live, hsched⟩, hworks (by simp), pending_started h (by simp)⟩
  · exact fun hp _ => pending_started h hp
  · intro p hp hdone
    rw [hworks hp] at hdone
    contradiction
  · intro p hp hdone
    rw [hworks hp] at hdone
    contradiction

theorem ensure_off (h : s.ready = false) (hj : Zeroed b) :
    ensure b s = .ok ((), s.started b) := by
  simp [ensure, h, run_init hj.1.1]

/-- A call before `init` calls it, or has nothing to do. -/
theorem perform_off (h : Off s) (hj : Zeroed b) (ha : Allowed s c) (hs : Safe s c) :
    perform b n c s = perform b n c (s.started b) ∧ Allowed (s.started b) c ∧
        Safe (s.started b) c ∨
      perform b n c s = .ok (.ret 0, s) := by
  have hoff := ensure_off h.ready hj
  have hon : ensure b (s.started b) = .ok ((), s.started b) := run_ensure rfl
  have hself : s.self = (s.started b).self := by simp [State.self, h.ready]
  cases c with
  | self => exact Or.inl ⟨by simp only [perform, thread_self, run_bind, hoff, hon], trivial, trivial⟩
  | create work info =>
    exact Or.inl ⟨by simp only [perform, thread_create, run_bind, hoff, hon], trivial, trivial⟩
  | yield => exact Or.inl ⟨by simp only [perform, run_bind, hoff, hon], trivial, trivial⟩
  | join id =>
    exact Or.inl ⟨by simp only [perform, thread_join, run_bind, hoff, hon], trivial, trivial⟩
  | mutexInit m =>
    exact Or.inl ⟨by simp only [perform, thread_mutex_init, run_bind, hoff, hon], ha, trivial⟩
  | condInit d =>
    exact Or.inl ⟨by simp only [perform, thread_cond_init, run_bind, hoff, hon], ha, trivial⟩
  | lock m =>
    have hs' : Safe (s.started b) (.lock m) := by
      unfold Safe
      rw [← hself]
      exact hs
    by_cases hm : m = 0
    · exact Or.inr (by simp [perform, thread_mutex_lock, hm])
    refine Or.inl ⟨?_, trivial, hs'⟩
    rcases hl : (s.mutex m).locked with _ | _
    · -- The mutex is marked before `init` is called, which does not touch it.
      have hset : ensure b (s.setMutex m fun m => { m with locked := true }) =
          .ok ((), (s.started b).setMutex m fun m => { m with locked := true }) :=
        ensure_off h.ready hj
      have hset' : ensure b ((s.started b).setMutex m fun m => { m with locked := true }) =
          .ok ((), (s.started b).setMutex m fun m => { m with locked := true }) := run_ensure rfl
      simp [perform, thread_mutex_lock, hm, hl, setMutex, thread_self, hset, hset']
    · simp [perform, thread_mutex_lock, hm, hl, thread_self, hoff, hon]
  | unlock m =>
    have hs' : Safe (s.started b) (.unlock m) := by
      unfold Safe
      rw [← hself]
      exact hs
    by_cases hm : m = 0
    · exact Or.inr (by simp [perform, thread_mutex_unlock, hm])
    rcases hl : (s.mutex m).locked with _ | _
    · exact Or.inr (by simp [perform, thread_mutex_unlock, hl])
    · refine Or.inl ⟨?_, trivial, hs'⟩
      simp [perform, thread_mutex_unlock, hm, hl, thread_self, hoff, hon]
  | wait d m =>
    right
    rcases hs with hd | hm | hl | ⟨hr, -⟩
    · simp [perform, thread_cond_wait, hd]
    · simp [perform, thread_cond_wait, hm]
    · simp [perform, thread_cond_wait, hl]
    · rw [h.ready] at hr
      contradiction
  | signal d =>
    have hd : d = 0 := hs.resolve_right fun hq => hq (h.cond d)
    exact Or.inr (by simp [perform, thread_cond_signal, hd])
  | cleanup => exact Or.inr (by simp [perform, thread_cleanup, h.ready])
  | terminate =>
    rw [Allowed, h.ready] at ha
    exact absurd ha.1 (by simp)

theorem off_terminate (h : Off s) : ¬ Allowed s .terminate := by
  rw [Allowed, h.ready]
  simp

/-- A call before `init` that is not safe uses a queue, or the TCB of the caller, which are not
there. -/
theorem unsafe_off (h : Off s) (hb : Unused s b) (hj : Zeroed b) (ha : Allowed s c)
    (hs : ¬ Safe s c) : perform b n c s = .error .fault := by
  obtain ⟨T, loc, hcalm⟩ := started_calm h hb hj
  have hoff := ensure_off h.ready hj
  have hon : ensure b (s.started b) = .ok ((), s.started b) := run_ensure rfl
  have hself : s.self = (s.started b).self := by simp [State.self, h.ready]
  cases c with
  | lock m =>
    have hs' : ¬ Safe (s.started b) (.lock m) := by
      unfold Safe
      rw [← hself]
      exact hs
    rw [← unsafe_fault (b := b) (n := n) hcalm.toInv (by simp) hs']
    simp only [Safe, not_or, Bool.not_eq_false] at hs
    simp [perform, thread_mutex_lock, hs.1, hs.2.2.1, thread_self, hoff, hon]
  | unlock m =>
    have hs' : ¬ Safe (s.started b) (.unlock m) := by
      unfold Safe
      rw [← hself]
      exact hs
    rw [← unsafe_fault (b := b) (n := n) hcalm.toInv (by simp) hs']
    simp only [Safe, not_or, Bool.not_eq_false] at hs
    simp [perform, thread_mutex_unlock, hs.1, hs.2.2.1, thread_self, hoff, hon]
  | wait d m =>
    simp only [Safe, not_or, Bool.not_eq_false] at hs
    obtain ⟨hd, hm, hl, -⟩ := hs
    simp [perform, thread_cond_wait, hd, hm, hl, load, h.live]
  | signal d =>
    simp only [Safe, not_or, not_not] at hs
    simp [perform, thread_cond_signal, hs.1, hs.2, queue_pop, deref, stop]
  | terminate => exact absurd ha (off_terminate h)
  | _ => exact absurd trivial hs

theorem safe_of_ok (h : Inv s T loc) (hc : c = .terminate → Safe s c) {r : Outcome × State}
    (hrun : perform b n c s = .ok r) : Safe s c := by
  by_contra hn
  rw [unsafe_fault h (mt hc hn) hn] at hrun
  contradiction

theorem safe_of_off (h : Off s) (hb : Unused s b) (hj : Zeroed b) (ha : Allowed s c)
    {r : Outcome × State} (hrun : perform b n c s = .ok r) : Safe s c := by
  by_contra hn
  rw [unsafe_off h hb hj ha hn] at hrun
  contradiction

end

/-! ## Runs -/

/-- The state in which a program starts. -/
structure Boot (s : State) : Prop where
  ready : s.ready = false
  live : ∀ p, s.live p = false
  mutex : ∀ m, (s.mutex m).q = none
  cond : ∀ d, s.cond d = none
  next_to_destroy : s.next_to_destroy = 0

/-- The states that a run reaches whose steps all meet `P`. Each step is a call by the thread that
runs, with the blocks that `malloc` gives in it. -/
inductive Reachable (P : State → Blocks → Call → Prop) : State → Prop where
  | boot {s : State} : Boot s → Reachable P s
  | step {s s₁ : State} {b : Blocks} {n : Nat} {cpu : Regs} {c : Call} : Reachable P s →
      Unused s b → Allowed s c → P s b c → step b n cpu c s = .ok ((), s₁) → Reachable P s₁

/-- Any call that is allowed. -/
def Unchecked (_ : State) (_ : Blocks) (_ : Call) : Prop := True

/-- No field of a new TCB is read before it is written, and a thread that ends destroys none but one
that has ended. -/
def Tidy (s : State) (b : Blocks) (c : Call) : Prop := Zeroed b ∧ (c = .terminate → Safe s c)

/-- With every mutex and condition initialised before it is used. -/
def Proper (s : State) (b : Blocks) (c : Call) : Prop := Tidy s b c ∧ Initialised s c

/-! ## Runs that are computed -/

instance (s : State) (p : Ptr) : Decidable (s.used p) :=
  inferInstanceAs (Decidable (s.live p = true ∨ s.liveStack p = true ∨
    ∃ h ∈ (s.all_threads.map Table.head).getD [], h.addr = p))

instance (s : State) (b : Blocks) : Decidable (Unused s b) :=
  inferInstanceAs (Decidable (b.addrs.Nodup ∧ ∀ p ∈ b.addrs, p ≠ 0 ∧ ¬ s.used p))

instance (s : State) (c : Call) : Decidable (Allowed s c) :=
  match c with
  | .mutexInit m => inferInstanceAs (Decidable ((s.mutex m).q = none))
  | .condInit d => inferInstanceAs (Decidable (s.cond d = none))
  | .terminate =>
    inferInstanceAs (Decidable (s.ready = true ∧ (s.tcb s.current_thread).tid ≠ 0))
  | .self | .create _ _ | .yield | .join _ | .lock _ | .unlock _ | .wait _ _ | .signal _
  | .cleanup => isTrue trivial

instance (s : State) (c : Call) : Decidable (Initialised s c) :=
  match c with
  | .lock m | .unlock m => inferInstanceAs (Decidable (m = 0 ∨ (s.mutex m).q ≠ none))
  | .wait d m =>
    inferInstanceAs (Decidable ((d = 0 ∨ s.cond d ≠ none) ∧ (m = 0 ∨ (s.mutex m).q ≠ none)))
  | .signal d => inferInstanceAs (Decidable (d = 0 ∨ s.cond d ≠ none))
  | .self | .create _ _ | .yield | .join _ | .mutexInit _ | .condInit _ | .cleanup
  | .terminate => isTrue trivial

instance (s : State) (c : Call) : Decidable (Safe s c) :=
  match c with
  | .lock m => inferInstanceAs (Decidable (m = 0 ∨ (s.mutex m).q ≠ none ∨
      (s.mutex m).locked = false ∨ (s.mutex m).owner = s.self))
  | .unlock m => inferInstanceAs (Decidable (m = 0 ∨ (s.mutex m).q ≠ none ∨
      (s.mutex m).locked = false ∨ (s.mutex m).owner ≠ s.self))
  | .wait d m => inferInstanceAs (Decidable (d = 0 ∨ m = 0 ∨ (s.mutex m).locked = false ∨
      s.ready = true ∧ ((s.mutex m).owner ≠ s.self ∨ (s.mutex m).q ≠ none ∧ s.cond d ≠ none)))
  | .signal d => inferInstanceAs (Decidable (d = 0 ∨ s.cond d ≠ none))
  | .terminate => inferInstanceAs (Decidable (s.next_to_destroy = 0 ∨
      s.live s.next_to_destroy = true ∧ (s.tcb s.next_to_destroy).status = .DONE))
  | .self | .create _ _ | .yield | .join _ | .mutexInit _ | .condInit _ | .cleanup => isTrue trivial

instance (b : Blocks) : Decidable (Zeroed b) :=
  inferInstanceAs (Decidable ((b.parent.bytes.handle = 0 ∧ b.parent.bytes.observer = 0) ∧
    b.thread.bytes.handle = 0 ∧ b.thread.bytes.observer = 0))

instance (s : State) (b : Blocks) (c : Call) : Decidable (Tidy s b c) :=
  inferInstanceAs (Decidable (Zeroed b ∧ (c = .terminate → Safe s c)))

instance (s : State) (b : Blocks) (c : Call) : Decidable (Proper s b c) :=
  inferInstanceAs (Decidable (Tidy s b c ∧ Initialised s c))

instance (s : State) (b : Blocks) (c : Call) : Decidable (Unchecked s b c) := isTrue trivial

/-- The run with the calls `cs`. -/
def play (P : State → Blocks → Call → Prop) [∀ s b c, Decidable (P s b c)] (n : Nat) (cpu : Regs) :
    List (Blocks × Call) → State → C State
  | [], s => .ok s
  | (b, c) :: cs, s =>
    if Unused s b ∧ Allowed s c ∧ P s b c then
      step b n cpu c s >>= fun r => play P n cpu cs r.2
    else .error .fault

theorem play_reachable {P : State → Blocks → Call → Prop} [∀ s b c, Decidable (P s b c)] {n : Nat}
    {cpu : Regs} {cs : List (Blocks × Call)} {s s₁ : State} (h : Reachable P s)
    (hp : play P n cpu cs s = .ok s₁) : Reachable P s₁ := by
  induction cs generalizing s with
  | nil =>
    cases hp
    exact h
  | cons x cs ih =>
    rw [play] at hp
    split at hp
    · rename_i ha
      obtain ⟨⟨u, s₂⟩, hs, hrest⟩ := bind_ok.mp hp
      exact ih (.step h ha.1 ha.2.1 ha.2.2 hs) hrest
    · contradiction

/-! ## What every run keeps -/

/-- What the steps of a run must meet for the states to be good. -/
structure Rules (P : State → Blocks → Call → Prop) : Prop where
  zeroed : ∀ {s b c}, P s b c → Zeroed b
  safe : ∀ {s b}, P s b .terminate → Safe s .terminate
  cpu : ∀ {s : State} {b c r}, P s b c → P { s with cpu := r } b c
  start : ∀ {s b c}, Off s → c ≠ .terminate → P s b c → P (s.started b) b c

/-- What the parts of a step keep. -/
structure Steps (P : State → Blocks → Call → Prop) (G : State → Prop) : Prop where
  cpu : ∀ {s : State} {r : Regs}, G s → G { s with cpu := r }
  call : ∀ {s T loc b c o s₁}, Calm s T loc → Spare s b → Allowed s c → P s b c → G s →
    Does b s T c o s₁ → s₁.ready = true → G (s₁.after c o)
  switch : ∀ {s T loc x xs}, Inv s T loc → s.ready_list = some (x :: xs) → G s →
    G (s.dispatch x (s.behind xs))
  resume : ∀ {s T loc c v}, Inv s T loc → (s.tcb s.current_thread).status = .WORKING →
    s.pending s.current_thread = some (c, v) → G s →
    G ((s.pend s.current_thread none).note
      (.returned (s.tcb s.current_thread).tid c v))

/-- What every part of a run keeps. -/
structure Stable (P : State → Blocks → Call → Prop) (G : State → Prop) : Prop
    extends Steps P G where
  start : ∀ {s b}, Off s → Unused s b → Zeroed b → G (s.started b)

section
variable {P : State → Blocks → Call → Prop} {b : Blocks} {n : Nat} {s s₁ : State} {c : Call}
  {cpu : Regs} {G : State → Prop}

theorem off_of_boot (h : Boot s) : Off s := ⟨h.ready, h.live, h.mutex, h.cond⟩

theorem allowed_cpu (ha : Allowed s c) : Allowed { s with cpu := cpu } c := by
  cases c <;> exact ha

theorem off_cpu (h : Off s) : Off { s with cpu := cpu } := ⟨h.ready, h.live, h.mutex, h.cond⟩

theorem off_note (h : Off s) (e : Event) : Off (s.note e) := ⟨h.ready, h.live, h.mutex, h.cond⟩

theorem calm_cpu {T : Table} {loc : Ptr → Option (Place Wait)} (h : Calm s T loc) :
    Calm { s with cpu := cpu } T loc :=
  ⟨inv_congr h.toInv rfl rfl rfl rfl rfl rfl rfl rfl rfl rfl (fun _ => rfl) rfl rfl, h.works,
    h.returned⟩

theorem tidy_rules : Rules Tidy := by
  refine ⟨And.left, fun h => h.2 rfl, ?_, fun _ hc h => ⟨h.1, fun heq => absurd heq hc⟩⟩
  intro s b c r h
  refine ⟨h.1, ?_⟩
  rintro rfl
  exact h.2 rfl

theorem proper_rules : Rules Proper := by
  refine ⟨fun h => h.1.1, fun h => h.1.2 rfl, ?_, ?_⟩
  · intro s b c r h
    refine ⟨tidy_rules.cpu h.1, ?_⟩
    cases c <;> exact h.2
  · intro s b c hoff hc h
    refine ⟨tidy_rules.start hoff hc h.1, ?_⟩
    cases c <;> exact h.2

theorem run_step : step b n cpu c s = (do
    let outcome ← perform b n c
    finish b c outcome : M Unit) { s with cpu := cpu } := rfl

theorem resumed_keeps (hG : Steps P G) {T : Table} {loc : Ptr → Option (Place Wait)}
    (h : Inv s T loc) (hw : (s.tcb s.current_thread).status = .WORKING) (hg : G s) :
    G s.resumed := by
  unfold State.resumed
  rcases hp : s.pending s.current_thread with _ | ⟨c, v⟩
  · exact hg
  · exact hG.resume h hw hp hg

/-- A step from a state in which a call can be made. -/
theorem calm_step (hP : Rules P) (hG : Steps P G) {T : Table} {loc : Ptr → Option (Place Wait)}
    (h : Calm s T loc) (hg : G s) (hb : Spare s b) (ha : Allowed s c) (hp : P s b c)
    (hs : (do
      let outcome ← perform b n c
      finish b c outcome : M Unit) s = .ok ((), s₁)) :
    c = .cleanup ∧ Off s₁ ∨ (∃ U l, Calm s₁ U l) ∧ G s₁ := by
  have hj := hP.zeroed hp
  obtain ⟨r, hok, -⟩ := bind_ok.mp hs
  have hsafe : Safe s c := safe_of_ok h.toInv (fun heq => heq ▸ hP.safe (heq ▸ hp)) hok
  rcases acts (n := n) h.toInv h.works hj hsafe with ⟨o, s₂, hrun, hd⟩ | ⟨e, he, -⟩
  · rw [run_bind, hrun, ok_bind] at hs
    rcases does_ready h hd with hr | ⟨rfl, rfl, hoff⟩
    · right
      obtain ⟨⟨U, l, hinv⟩, hcur, hpend, hl⟩ := does_inv h hb hj ha hd hr
      rw [← hcur] at hl hpend
      have hafter := hG.call h hb ha hp hg hd hr
      rcases run_finish b (c := c) hinv hl with ⟨s₃, hfin, hf⟩ | hfin
      · rw [hfin, Except.ok.injEq, Prod.mk.injEq] at hs
        obtain rfl := hs.2
        refine ⟨?_, ?_⟩
        · obtain ⟨l', hcalm⟩ := finishes_calm hinv hl (fun _ _ => hpend) hf
          exact ⟨U, l', hcalm⟩
        · cases hf with
          | ret v => exact hafter
          | stay v hrl hw => exact resumed_keeps hG (after_inv hinv hl) hw hafter
          | switch v x xs hrl =>
            have hi := after_inv (c := c) hinv hl
            obtain ⟨⟨l', hdis⟩, hx⟩ := inv_dispatch hi hrl
            exact resumed_keeps hG hdis (by simpa [State.after] using hx) (hG.switch hi hrl hafter)
      · rw [hfin] at hs
        contradiction
    · left
      cases hs
      exact ⟨rfl, off_note hoff _⟩
  · rw [run_bind, he, error_bind] at hs
    contradiction

/-- A step before `init` is one after it, or does nothing. -/
theorem step_off (h : Off s) (hb : Unused s b) (hj : Zeroed b) (ha : Allowed s c)
    (hs : (do
      let outcome ← perform b n c
      finish b c outcome : M Unit) s = .ok ((), s₁)) :
    ((do
      let outcome ← perform b n c
      finish b c outcome : M Unit) (s.started b) = .ok ((), s₁) ∧
        Allowed (s.started b) c ∧ c ≠ .terminate) ∨
      Off s₁ ∧ s₁.next_to_destroy = s.next_to_destroy := by
  obtain ⟨r, hok, -⟩ := bind_ok.mp hs
  rcases perform_off (n := n) h hj ha (safe_of_off h hb hj ha hok) with ⟨hrun, hallow, -⟩ | hrun
  · left
    rw [run_bind, hrun, ← run_bind] at hs
    refine ⟨hs, hallow, ?_⟩
    rintro rfl
    exact off_terminate h ha
  · right
    rw [run_bind, hrun] at hs
    cases hs
    exact ⟨off_note h _, rfl⟩

/-- Between two calls the library is not in use, or a call can be made. What every part of a run
keeps then holds. -/
theorem reach (hP : Rules P) (hG : Stable P G) (h : Reachable P s) :
    Off s ∨ (∃ T loc, Calm s T loc) ∧ G s := by
  induction h with
  | boot hb => exact Or.inl (off_of_boot hb)
  | @step s s₁ b n cpu c _ hb ha hp hs ih =>
    rw [run_step] at hs
    have hb' : Unused { s with cpu := cpu } b := hb
    have ha' : Allowed { s with cpu := cpu } c := allowed_cpu ha
    have hp' : P { s with cpu := cpu } b c := hP.cpu hp
    have hj := hP.zeroed hp
    rcases ih with hoff | ⟨⟨T, loc, hcalm⟩, hg⟩
    · have hoff' : Off { s with cpu := cpu } := off_cpu hoff
      rcases step_off hoff' hb' hj ha' hs with ⟨hrun, hallow, hc⟩ | hoff₁
      · obtain ⟨T, loc, hcalm⟩ := started_calm hoff' hb' hj
        rcases calm_step hP hG.toSteps hcalm (hG.start hoff' hb' hj) (spare_started hb') hallow
          (hP.start hoff' hc hp') hrun with h | h
        · exact Or.inl h.2
        · exact Or.inr h
      · exact Or.inl hoff₁.1
    · rcases calm_step hP hG.toSteps (calm_cpu hcalm) (hG.cpu hg) (spare_of_unused hb') ha' hp' hs
        with h | h
      · exact Or.inl h.2
      · exact Or.inr h

end

end Cs720.Threads
