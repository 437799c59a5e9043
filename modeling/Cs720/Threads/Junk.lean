import Cs720.Threads.Blind

/-! # Two runs with different bytes from `malloc` -/

namespace Cs720.Threads

open Cs720.Lib

/-! ## A step -/

/-- Between two calls. -/
def Kin (s t : State) : Prop := Like s t ∧ Settled s

section
variable {b b' : Blocks} {n : Nat} {s t s₁ : State} {T : Table} {c : Call} {o : Outcome}
  {old next : Ptr} {rest : List Ptr}

theorem kin_of_housed {α : Type} {x y : C (α × State)}
    (h : Alike (fun s t => Like s t ∧ Housed b s) x y) : Alike Kin x y :=
  alike_mono h fun _ _ h => ⟨h.1, h.2.settled⟩

theorem like_created (hb : Same b b') (h : Like s t) (info : BitVec 64) :
    Like (s.created b info T) (t.created b' info T) := by
  obtain ⟨-, -, ha, hs, hh⟩ := same_addrs hb
  refine ⟨?_, ?_, ?_⟩
  · rw [h.rest]
    unfold State.created
    rw [ha, hs, hh]
  · intro p
    simp only [State.created_tcb, ha]
    by_cases hp : p = b.thread.addr
    · subst hp
      refine ⟨b'.thread.bytes.rip, firstRegs b.stack info, ?_⟩
      simp [hs, hh, hb.zeroed.1.2.2, hb.zeroed.2.2.2]
    · simpa [Function.update_of_ne hp] using h.tcb p
  · intro p hp hc
    simp only [State.created_tcb, State.created_live, ha] at hp ⊢
    by_cases hpb : p = b.thread.addr
    · subst hpb
      simp [hs]
    · rw [Function.update_of_ne hpb] at hp ⊢
      rw [Function.update_of_ne hpb]
      exact h.regs p hp hc

/-- `thread_create` when the library is in use. -/
theorem alike_create_ready (hb : Same b b') (h : Like s t) (hI : Housed b s) (hr : s.ready = true)
    (work info : BitVec 64) :
    Alike Kin (thread_create b work info s) (thread_create b' work info t) := by
  have hr' : t.ready = true := by rw [h.rest]; exact hr
  have hrl' : t.ready_list = s.ready_list := by rw [h.rest]
  obtain ⟨T, hT⟩ : ∃ T, TableOk s T := by
    rcases hI.settled with ⟨-, hT⟩ | ⟨hoff, -⟩
    · exact hT
    · exact absurd (hr.symm.trans hoff) (by simp)
  have hT' : t.all_threads = some T := by rw [h.rest]; exact hT.table
  have hz := hb.zeroed
  rcases hrl : s.ready_list with _ | rl
  · rw [hrl] at hrl'
    refine Or.inr ⟨.fault, ?_, ?_⟩
    · simp [thread_create, run_ensure hr, mallocTcb, mallocStack, store, load, State.setTcb,
        put_tcb, pushReady, queue_push, hz.1.2.1, hT.table, hrl]
    · simp [thread_create, run_ensure hr', mallocTcb, mallocStack, store, load, State.setTcb,
        put_tcb, pushReady, queue_push, hz.2.2.1, hT', hrl']
  · refine Or.inl ⟨T.max_id, s.created b info T, t.created b' info T, ?_, ?_,
      like_created hb h info, Or.inl ⟨hr, _, table_created hT hI.spare⟩⟩
    · exact run_create hz.1.2.1 hr hT.table hrl work info
    · exact run_create hz.2.2.1 hr' hT' (hrl'.trans hrl) work info

theorem alike_create (hb : Same b b') (h : Like s t) (hI : Housed b s) (work info : BitVec 64) :
    Alike Kin (thread_create b work info s) (thread_create b' work info t) := by
  rcases hI.settled with ⟨hr, -⟩ | ⟨hr, hl⟩
  · exact alike_create_ready hb h hI hr work info
  · have hr' : t.ready = false := by rw [h.rest]; exact hr
    have hrun : ∀ {c : Blocks} {u : State}, u.ready = false → c.parent.bytes.handle = 0 →
        thread_create c work info u = thread_create c work info (u.started c) := by
      intro c u hu hc
      have hoff : ensure c u = .ok ((), u.started c) := by simp [ensure, hu, run_init hc]
      have hon : ensure c (u.started c) = .ok ((), u.started c) := run_ensure rfl
      simp only [thread_create, run_bind, hoff, hon]
    rw [hrun hr hb.zeroed.1.1.1, hrun hr' hb.zeroed.2.1.1]
    exact alike_create_ready hb (like_started hb h hl) (housed_started hI hr hl) rfl work info

/-! ### `thread_cleanup` -/

theorem destroyMutexes_live {l : List Ptr} {u : Unit} (h : destroyMutexes l s = .ok (u, s₁)) :
    s₁.live = s.live := by
  induction l generalizing s with
  | nil =>
    cases h
    rfl
  | cons m rest ih =>
    rcases hq : (s.mutex m).q with _ | q
    · simp [destroyMutexes, hq] at h
    · have hrest : destroyMutexes rest (s.setMutex m fun m => { m with q := none }) = .ok (u, s₁) := by
        simpa [destroyMutexes, hq, setMutex] using h
      exact ih (s := s.setMutex m fun m => { m with q := none }) hrest

theorem destroyConds_live {l : List Ptr} {u : Unit} (h : destroyConds l s = .ok (u, s₁)) :
    s₁.live = s.live := by
  induction l generalizing s with
  | nil =>
    cases h
    rfl
  | cons d rest ih =>
    rcases hq : s.cond d with _ | q
    · simp [destroyConds, hq] at h
    · have hrest : destroyConds rest { s with cond := Function.update s.cond d none } =
          .ok (u, s₁) := by
        simpa [destroyConds, hq] using h
      exact ih (s := { s with cond := Function.update s.cond d none }) hrest

/-- `thread_cleanup` frees every TCB. -/
theorem settled_cleanup {u : Unit} (h : Settled s) (hrun : thread_cleanup s = .ok (u, s₁)) :
    Settled s₁ := by
  rcases h with ⟨hr, T, hT⟩ | ⟨hr, hl⟩
  · rcases hl : s.live s.current_thread with _ | _
    · simp [thread_cleanup, hr, load, hl] at hrun
    by_cases hid : (s.tcb s.current_thread).tid = 0
    · obtain ⟨s₂, hall, -, hnone, -⟩ := run_destroyAll hT
      right
      rcases hms : s₂.mutexes with _ | ms
      · simp [thread_cleanup, hr, run_load hl, hid, hT.table, hall, hms] at hrun
      rcases hm : destroyMutexes ms s₂ with e | ⟨u, s₃⟩
      · simp [thread_cleanup, hr, run_load hl, hid, hT.table, hall, hms, hm] at hrun
      rcases hcs : s₃.conds with _ | cs
      · simp [thread_cleanup, hr, run_load hl, hid, hT.table, hall, hms, hm, hcs] at hrun
      rcases hc : destroyConds cs s₃ with e | ⟨u, s₄⟩
      · simp [thread_cleanup, hr, run_load hl, hid, hT.table, hall, hms, hm, hcs, hc] at hrun
      simp [thread_cleanup, hr, run_load hl, hid, hT.table, hall, hms, hm, hcs, hc] at hrun
      subst hrun
      exact ⟨rfl, by rw [destroyConds_live hc, destroyMutexes_live hm]; exact hnone⟩
    · simp [thread_cleanup, hr, run_load hl, hid] at hrun
      exact Or.inl ⟨hrun ▸ hr, T, hrun ▸ hT⟩
  · simp [thread_cleanup, hr] at hrun
    exact Or.inr ⟨hrun ▸ hr, hrun ▸ hl⟩

theorem twin_cleanup : Twin Kin thread_cleanup thread_cleanup := by
  have htwin : Twin Like thread_cleanup thread_cleanup :=
    fun s t h => alike_mono (blind_cleanup s t ⟨h, trivial⟩) fun _ _ h => h.1
  exact twin_and htwin fun _ _ _ => settled_cleanup

/-! ### The context switch -/

/-- The switch from `old` to `next`, which may be the same. -/
def State.switched (s : State) (old next : Ptr) (rest : List Ptr) : State :=
  { s with
    current_thread := next
    ready_list := some (if (s.tcb old).status = .WORKING then rest ++ [old] else rest)
    tcb := withRegs s.tcb old (savedRegs s.cpu old next)
    cpu := (withRegs s.tcb old (savedRegs s.cpu old next) next).regs }

theorem run_yieldFrom :
    yieldFrom old (next :: rest) s =
      if s.live next = false then .error .fault
      else if (s.tcb next).status ≠ .WORKING then yieldFrom old rest { s with ready_list := some rest }
      else if s.live old = false then .error .fault
      else .ok ((), s.switched old next rest) := by
  rcases hn : s.live next with _ | _
  · simp [yieldFrom, load, hn]
  by_cases hw : (s.tcb next).status = .WORKING
  · rcases ho : s.live old with _ | _
    · simp [yieldFrom, load, hn, hw, ho]
    · by_cases hs : (s.tcb old).status = .WORKING <;>
        simp [yieldFrom, load, store, hn, hw, ho, hs, pushReady, queue_push, asm_yield, State.setTcb,
          State.switched, withRegs]
  · simp [yieldFrom, load, hn, hw]

theorem like_tcb (h : Like s t) (p : Ptr) : (t.tcb p).status = (s.tcb p).status ∧
    (t.tcb p).tid = (s.tcb p).tid := by
  obtain ⟨r, g, hp⟩ := h.tcb p
  rw [hp]
  exact ⟨rfl, rfl⟩

theorem like_switched (h : Like s t) (hn : s.live next = true) :
    Like (s.switched s.current_thread next rest) (t.switched s.current_thread next rest) := by
  have hcpu : t.cpu = s.cpu := by rw [h.rest]
  have hregs : ∀ p, s.live p = true →
      (withRegs t.tcb s.current_thread (savedRegs s.cpu s.current_thread next) p).regs =
        (withRegs s.tcb s.current_thread (savedRegs s.cpu s.current_thread next) p).regs := by
    intro p hp
    by_cases hpc : p = s.current_thread
    · simp [withRegs, hpc]
    · simpa [withRegs, hpc] using h.regs p hp hpc
  refine ⟨?_, ?_, ?_⟩
  · unfold State.switched
    rw [hcpu, hregs next hn, (like_tcb h _).1, h.rest]
  · intro p
    obtain ⟨r, g, hp⟩ := h.tcb p
    by_cases hpc : p = s.current_thread
    · subst hpc
      refine ⟨r, savedRegs s.cpu s.current_thread next, ?_⟩
      simp [State.switched, withRegs, hcpu, hp]
    · refine ⟨r, g, ?_⟩
      simp [State.switched, withRegs, hpc, hp]
  · intro p hp _
    simp only [State.switched, hcpu]
    exact hregs p hp

theorem alike_yieldFrom (h : Like s t) (hI : Housed b s) (l : List Ptr) :
    Alike (fun s t => Like s t ∧ Housed b s) (yieldFrom s.current_thread l s)
      (yieldFrom s.current_thread l t) := by
  induction l generalizing s t with
  | nil =>
    have hnil : Blind (Housed b) (yieldFrom s.current_thread []) (yieldFrom s.current_thread []) := by
      apply blind_bind
      · exact blind_set (fun _ _ => ⟨rfl, rfl, rfl, rfl⟩) fun _ => ⟨rfl, rfl, rfl⟩
      intro _
      apply blind_load fun _ _ _ => rfl
      intro a
      exact blind_ite (blind_stop _) (blind_pure _)
    exact hnil s t ⟨h, hI⟩
  | cons next rest ih =>
    have hlive : ∀ p, t.live p = s.live p := fun p => by rw [h.rest]
    rw [run_yieldFrom, run_yieldFrom, hlive next, hlive s.current_thread, (like_tcb h next).1]
    split
    · exact alike_error _
    rename_i hn
    split
    · refine ih (s := { s with ready_list := some rest }) (t := { t with ready_list := some rest })
        ⟨?_, h.tcb, h.regs⟩ (Insensitive.congr hI rfl rfl rfl rfl fun _ => ⟨rfl, rfl, rfl⟩)
      rw [h.rest]
    split
    · exact alike_error _
    refine Or.inl ⟨(), _, _, rfl, rfl, like_switched h (by simpa using hn), ?_⟩
    refine Insensitive.congr hI rfl rfl rfl rfl fun p => ?_
    simp [State.switched]

theorem blind_yield (hb : Same b b') : Blind (Housed b) (thread_yield b) (thread_yield b') := by
  apply blind_bind (blind_ensure hb)
  intro _
  apply blind_get fun _ _ => rfl
  intro s
  apply blind_bind (blind_deref _)
  rintro queue s t ⟨hst, hI⟩
  have hc : t.current_thread = s.current_thread := by rw [hst.rest]
  rw [run_bind, run_bind, run_get, run_get, ok_bind, ok_bind, hc]
  exact alike_yieldFrom hst hI queue

theorem blind_resume : Blind (Housed b) resume resume := by
  apply blind_get fun _ _ => rfl
  intro s
  apply blind_get fun _ _ => rfl
  intro u
  cases u.pending s.current_thread with
  | none => exact blind_pure _
  | some r =>
    apply blind_bind
    · exact blind_set (fun _ _ => ⟨rfl, rfl, rfl, rfl⟩) fun _ => ⟨rfl, rfl, rfl⟩
    · exact fun _ => blind_record _

theorem blind_ret {I : State → Prop} [Insensitive I] (v : Int) :
    Blind I (finish b c (.ret v)) (finish b' c (.ret v)) := by
  apply blind_get fun _ _ => rfl
  exact fun _ => blind_record _

theorem blind_finish (hb : Same b b') : Blind (Housed b) (finish b c o) (finish b' c o) := by
  cases o with
  | ret v => exact blind_ret v
  | yield v =>
    apply blind_bind
    · exact blind_set (fun _ _ => ⟨rfl, rfl, rfl, rfl⟩) fun _ => ⟨rfl, rfl, rfl⟩
    intro _
    apply blind_bind (blind_yield hb)
    exact fun _ => blind_resume

/-! ### A step -/

theorem blind_perform (hb : Same b b') (hc : ∀ work info, c ≠ .create work info)
    (hclean : c ≠ .cleanup) : Blind (Housed b) (perform b n c) (perform b' n c) := by
  cases c with
  | create work info => exact absurd rfl (hc work info)
  | cleanup => exact absurd rfl hclean
  | self => exact blind_bind (blind_self hb) fun _ => blind_pure _
  | yield => exact blind_bind (blind_ensure hb) fun _ => blind_pure _
  | join id => exact blind_join hb
  | mutexInit m => exact blind_bind (blind_mutexInit hb) fun _ => blind_pure _
  | lock m => exact blind_lock hb
  | unlock m => exact blind_bind (blind_unlock hb) fun _ => blind_pure _
  | condInit d => exact blind_bind (blind_condInit hb) fun _ => blind_pure _
  | wait d m => exact blind_wait hb
  | signal d => exact blind_bind blind_signal fun _ => blind_pure _
  | terminate => exact blind_terminate

theorem housed_of_settled (h : Settled s) (hb : Unused s b) : Housed b s :=
  ⟨h, spare_of_unused hb, fun _ => hb⟩

theorem alike_step (hb : Same b b') (h : Kin s t) (hu : Unused s b) (n : Nat) (cpu : Regs)
    (c : Call) : Alike Kin (step b n cpu c s) (step b' n cpu c t) := by
  have hcpu : Like { s with cpu := cpu } { t with cpu := cpu } := by
    refine ⟨?_, h.1.tcb, h.1.regs⟩
    rw [h.1.rest]
  have hI : Housed b { s with cpu := cpu } :=
    Insensitive.congr (housed_of_settled h.2 hu) rfl rfl rfl rfl fun _ => ⟨rfl, rfl, rfl⟩
  have hret : ∀ v s t, Kin s t → Alike Kin (finish b c (.ret v) s) (finish b' c (.ret v) t) :=
    fun v s t h => blind_ret (I := Settled) v s t h
  rw [run_step, run_step]
  by_cases hc : ∃ work info, c = .create work info
  · obtain ⟨work, info, rfl⟩ := hc
    have hrun : ∀ (b : Blocks) (u : State), (do
        let outcome ← perform b n (.create work info)
        finish b (.create work info) outcome : M Unit) u =
          (thread_create b work info >>= fun v => finish b (.create work info) (.ret v)) u := by
      intro b u
      simp only [perform, run_bind]
      rcases thread_create b work info u with e | r <;> rfl
    rw [hrun, hrun]
    exact alike_bind (alike_create hb hcpu hI work info) fun v => hret v
  · push Not at hc
    by_cases hclean : c = .cleanup
    · subst hclean
      have hrun : ∀ (b : Blocks) (u : State), (do
          let outcome ← perform b n .cleanup
          finish b .cleanup outcome : M Unit) u =
            (thread_cleanup >>= fun _ => finish b .cleanup (.ret 0)) u := by
        intro b u
        simp only [perform, run_bind]
        rcases thread_cleanup u with e | r <;> rfl
      rw [hrun, hrun]
      exact alike_bind (twin_cleanup _ _ ⟨hcpu, hI.settled⟩) fun _ => hret 0
    · exact kin_of_housed (alike_bind (blind_perform hb hc hclean _ _ ⟨hcpu, hI⟩)
        fun o s t h => blind_finish hb s t h)

end

/-! ## Runs -/

/-- The run with the calls of the list. `malloc` gives the blocks that stand there, which must not be
in use. -/
def follow (n : Nat) : List (Blocks × Regs × Call) → State → C State
  | [], s => .ok s
  | (b, cpu, c) :: cs, s =>
    if Unused s b then step b n cpu c s >>= fun r => follow n cs r.2 else .error .fault

theorem settled_boot {s : State} (h : Boot s) : Settled s := Or.inr ⟨h.ready, h.live⟩

/-- Two runs with the same calls and the same addresses from `malloc` end in the same way, whatever
the bytes in the blocks are, as long as the handle and the observer are NULL: the results, the
schedule, what is freed and what is loaded into the registers are the same. -/
theorem junk_irrelevant {cs cs' : List (Blocks × Regs × Call)}
    (h : List.Forall₂ (fun x y => Same x.1 y.1 ∧ x.2 = y.2) cs cs') {s : State} (hb : Boot s)
    (n : Nat) :
    (∃ s₁ t₁, follow n cs s = .ok s₁ ∧ follow n cs' s = .ok t₁ ∧ Like s₁ t₁) ∨
      ∃ e, follow n cs s = .error e ∧ follow n cs' s = .error e := by
  have hrun : ∀ s t, Kin s t →
      (∃ s₁ t₁, follow n cs s = .ok s₁ ∧ follow n cs' t = .ok t₁ ∧ Like s₁ t₁) ∨
        ∃ e, follow n cs s = .error e ∧ follow n cs' t = .error e := by
    induction h with
    | nil => exact fun s t h => Or.inl ⟨s, t, rfl, rfl, h.1⟩
    | @cons x y cs cs' hxy _ ih =>
      obtain ⟨b, cpu, c⟩ := x
      obtain ⟨b', cpu', c'⟩ := y
      obtain ⟨hsame, heq⟩ := hxy
      obtain ⟨rfl, rfl⟩ := Prod.mk.inj heq
      intro s t hst
      have hused : ∀ p, t.used p ↔ s.used p := by
        intro p
        rw [hst.1.rest]
        exact Iff.rfl
      have hun : Unused t b' ↔ Unused s b := by
        unfold Unused
        simp only [hused, hsame.addrs]
      unfold follow
      by_cases hu : Unused s b
      · rw [if_pos hu, if_pos (hun.mpr hu)]
        rcases alike_step hsame hst hu n cpu c with ⟨u, s₁, t₁, hrs, hrt, h₁⟩ | ⟨e, hrs, hrt⟩
        · rw [hrs, hrt, ok_bind, ok_bind]
          exact ih s₁ t₁ h₁
        · exact Or.inr ⟨e, by rw [hrs, error_bind], by rw [hrt, error_bind]⟩
      · rw [if_neg hu, if_neg (mt hun.mp hu)]
        exact Or.inr ⟨.fault, rfl, rfl⟩
  exact hrun s s ⟨like_refl, settled_boot hb⟩

/-- Memory that does not read as zero, but for the two fields. -/
def noise : Tcb := ⟨⟨1, 2, 3, 4, 5, 6, 7, 8, 9⟩, 10, 11, 12, .DONE, 0, 0⟩

/-- The same blocks with other bytes. -/
def Blocks.fill (b : Blocks) (x : Tcb) : Blocks :=
  { b with parent := { b.parent with bytes := x }, thread := { b.thread with bytes := x } }

def quietRun : List (Blocks × Regs × Call) :=
  (fresh [.create 0 0, .join 1, .self, .terminate]).map fun x => (x.1, noRegs, x.2)

def noisyRun : List (Blocks × Regs × Call) := quietRun.map fun x => (x.1.fill noise, x.2)

theorem junk_irrelevant_noise :
    ∃ s t, follow 9 quietRun booted = .ok s ∧ follow 9 noisyRun booted = .ok t ∧
      t.log = s.log ∧ t.current_thread = s.current_thread := by
  obtain ⟨s, hs, -⟩ := ok_and (x := follow 9 quietRun booted) (p := fun _ => true)
    (by decide +kernel)
  have hsame : List.Forall₂ (fun x y => Same x.1 y.1 ∧ x.2 = y.2) quietRun noisyRun := by
    refine List.forall₂_map_right_iff.mpr (List.forall₂_same.mpr fun x hx => ?_)
    obtain ⟨y, hy, rfl⟩ := List.mem_map.mp hx
    obtain ⟨z, -, rfl⟩ := List.mem_map.mp hy
    exact ⟨⟨rfl, ⟨⟨rfl, rfl⟩, rfl, rfl⟩, ⟨rfl, rfl⟩, rfl, rfl⟩, rfl⟩
  rcases junk_irrelevant hsame booted_boot 9 with ⟨s₁, t₁, hrs, hrt, h⟩ | ⟨e, hrs, -⟩
  · refine ⟨s₁, t₁, hrs, hrt, ?_, ?_⟩
    · rw [h.rest]
    · rw [h.rest]
  · rw [hs] at hrs
    cases hrs

/-- The observer of each new TCB is the thread itself. -/
def watched (x : Blocks × Call) : Blocks × Call :=
  (x.1.fill { zeros with observer := x.1.thread.addr }, x.2)

def joinRun : List (Blocks × Call) := fresh [.create 0 0, .join 1]

theorem junk_observed :
    ∃ s t, play Unchecked 9 noRegs joinRun booted = .ok s ∧
      play Unchecked 9 noRegs (joinRun.map watched) booted = .ok t ∧
      s.log = [.returned 0 (.create 0 0) 1] ∧ s.current_thread = 3 ∧
      t.log = [.returned 0 (.create 0 0) 1, .returned 0 (.join 1) (-2)] ∧ t.current_thread = 1 := by
  obtain ⟨s, hs, hp⟩ := ok_and (x := play Unchecked 9 noRegs joinRun booted)
    (p := fun s => decide (s.log = [.returned 0 (.create 0 0) 1] ∧ s.current_thread = 3))
    (by decide +kernel)
  obtain ⟨t, ht, hq⟩ := ok_and (x := play Unchecked 9 noRegs (joinRun.map watched) booted)
    (p := fun t => decide (t.log = [.returned 0 (.create 0 0) 1, .returned 0 (.join 1) (-2)] ∧
      t.current_thread = 1)) (by decide +kernel)
  rw [decide_eq_true_iff] at hp hq
  exact ⟨s, t, hs, ht, hp.1, hp.2, hq.1, hq.2⟩

end Cs720.Threads
