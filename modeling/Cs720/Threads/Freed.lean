import Cs720.Threads.Joins

/-! # Freed memory -/

namespace Cs720.Threads

open Cs720.Lib

/-- The TCBs that the library has pointers to, apart from `next_to_destroy`, and their stacks are
not freed. -/
structure Intact (s : State) : Prop where
  current : s.live s.current_thread = true
  ready_list : ∀ p ∈ s.ready_list.getD [], s.live p = true
  mutex : ∀ m, ∀ p ∈ (s.mutex m).waiters, s.live p = true
  cond : ∀ d, ∀ i ∈ (s.cond d).getD [], s.live i.thread = true
  observer : ∀ p, s.live p = true → (s.tcb p).observer ≠ 0 → s.live (s.tcb p).observer = true
  table : ∀ T, s.all_threads = some T → ∀ h ∈ T.head, s.live h.tcb = true
  stack : ∀ p, s.live p = true → (s.tcb p).stack ≠ 0 → s.liveStack (s.tcb p).stack = true

section
variable {b : Blocks} {n : Nat} {s s₁ : State} {T : Table} {loc : Ptr → Option (Place Wait)}
variable {c : Call} {o : Outcome}

theorem inv_intact (h : Inv s T loc) : Intact s := by
  refine ⟨current_live h, fun p hp => (ready_working h hp).1, fun m p hp => (mutex_waiting h hp).1,
    fun d i hi => (cond_waiting h hi).1, fun p hp ho => (observer_waiting h hp ho).1, ?_,
    fun p hp hs => h.table.stack_live hp hs⟩
  intro U hU a ha
  rw [h.table.table, Option.some_inj] at hU
  subst hU
  exact (h.table.entry ha).1

/-! ## A safe call -/

theorem safe_does (h : Calm s T loc) (hj : Zeroed b) (hs : Safe s c)
    (hrun : perform b n c s = .ok (o, s₁)) : Does b s T c o s₁ := by
  rcases acts (n := n) h.toInv h.works hj hs with ⟨o', s', hok, hd⟩ | ⟨e, he, -⟩
  · rw [hrun, Except.ok.injEq, Prod.mk.injEq] at hok
    obtain ⟨rfl, rfl⟩ := hok
    exact hd
  · rw [hrun] at he
    contradiction

theorem safe_intact (h : Calm s T loc) (hb : Spare s b) (hj : Zeroed b) (ha : Allowed s c)
    (hs : Safe s c) (hrun : perform b n c s = .ok (o, s₁)) (hr : s₁.ready = true) : Intact s₁ := by
  obtain ⟨⟨U, l, hinv⟩, -⟩ := does_inv h hb hj ha (safe_does h hj hs hrun) hr
  exact inv_intact hinv

theorem safe_no_fault (h : Calm s T loc) (hb : Spare s b) (hj : Zeroed b) (ha : Allowed s c)
    (hs : Safe s c) :
    (do
      let outcome ← perform b n c
      finish b c outcome : M Unit) s ≠ .error .fault := by
  rcases acts (n := n) h.toInv h.works hj hs with ⟨o, s₁, hrun, hd⟩ | ⟨e, he, hne⟩
  · rw [run_bind, hrun, ok_bind]
    rcases does_ready h hd with hr | ⟨-, rfl, -⟩
    · obtain ⟨⟨U, l, hinv⟩, hcur, -, hl⟩ := does_inv h hb hj ha hd hr
      rw [← hcur] at hl
      rcases run_finish b (c := c) hinv hl with ⟨s₂, hfin, -⟩ | hfin <;> simp [hfin]
    · exact fun hfin => by cases hfin
  · rw [run_bind, he, error_bind]
    simpa using hne

/-- The running thread is not freed when it terminates. -/
theorem safe_terminate (h : Calm s T loc) (hj : Zeroed b) (hs : Safe s .terminate)
    (hrun : perform b n .terminate s = .ok (o, s₁)) : s₁.live s.current_thread = true := by
  cases safe_does h hj hs hrun with
  | quiet _ _ hq => exact absurd hq id
  | terminate s₂ s₃ ht hdes =>
    obtain ⟨⟨U, l, hinv⟩, hst, -⟩ := terminate_spec h.toInv h.works h.returned ht hdes
    have hcur := current_live hinv
    rw [hst.current] at hcur
    exact hcur

/-! ## A call that is not safe -/

theorem told_ready (ht : Told s s₁) {p : Ptr} (hp : p ∈ s.ready_list.getD []) :
    p ∈ s₁.ready_list.getD [] := by
  rcases ht with ⟨rfl, -⟩ | ⟨rfl, -⟩
  · exact hp
  · simp [hp]

/-- A thread that has not ended is destroyed, and something still points to it. -/
theorem drop_harms (h : Calm s T loc) (hjoins : Joins s) {x : Ptr} (hlive : s.live x = true)
    (hdone : (s.tcb x).status ≠ .DONE) (ht : Told s s₁) (head : List Handle) :
    ¬ Intact ((s₁.drop T head x).setNext s.current_thread) := by
  intro hi
  have hst := told_steady ht
  have hx : ((s₁.drop T head x).setNext s.current_thread).live x ≠ true := by simp
  have hready : x ∉ s₁.ready_list.getD [] := fun hmem => hx (hi.ready_list x hmem)
  have hcur : x ≠ s.current_thread := by
    rintro rfl
    apply hx
    have hcurrent := hi.current
    rw [State.setNext_current_thread, State.drop_current_thread, hst.current] at hcurrent
    exact hcurrent
  cases hstatus : (s.tcb x).status with
  | DONE => exact hdone hstatus
  | WORKING =>
    have hcount := Scheduler.ready_count h.sched hlive (mode_working.mpr hstatus) hcur
    have hcount : (s.ready_list.getD []).count x = 1 := hcount
    exact hready (told_ready ht (List.count_pos_iff.mp (by omega)))
  | WAITING =>
    obtain ⟨w, hcount, -⟩ := Scheduler.wait_place h.sched hlive (mode_waiting.mpr hstatus)
    have hcount : (s.queue (.wait w)).count x = 1 := hcount
    have hmem : x ∈ s.queue (.wait w) := List.count_pos_iff.mp (by omega)
    cases w with
    | mutex m =>
      refine hx (hi.mutex m x ?_)
      rw [State.setNext_mutex, State.drop_mutex, hst.mutex]
      exact hmem
    | cond d =>
      obtain ⟨i, hinfo, rfl⟩ := List.mem_map.mp hmem
      refine hx (hi.cond d i ?_)
      rw [State.setNext_cond, State.drop_cond, hst.cond]
      exact hinfo
    | join t =>
      simp only [State.queue] at hmem
      split at hmem
      · rename_i hobs
        rw [List.mem_singleton] at hmem
        by_cases htc : t = s.current_thread
        · -- The thread that waits for the current one has been told.
          rw [htc] at hmem hobs
          rcases ht with ⟨-, h0⟩ | ⟨rfl, -⟩
          · exact hobs.2 h0
          · exact hready (by simp [hmem])
        · have htx : t ≠ x := by
            rintro rfl
            have hlink : s.link t = some t := link_eq.mpr
              ⟨hobs.1, hmem.symm, fun h0 => hobs.2 (hmem.symm.trans h0)⟩
            exact not_transGen_self (hjoins.acyclic t) (.single hlink)
          have hkeep := ((told_ends h.toInv h.works ht).2.2 t).2.1
          rw [if_neg htc, ← hmem] at hkeep
          have hsees := hi.observer t (by simpa [told_live ht, htx] using hobs.1)
          simp only [State.setNext_tcb, State.setNext_live, State.drop_tcb, withHandle_same, hkeep]
            at hsees
          exact hx (hsees (h.table.ne_zero hlive))
      · contradiction

theorem unsafe_harms (h : Calm s T loc) (hjoins : Joins s) (hs : ¬ Safe s c) :
    perform b n c s = .error .fault ∨
      ∃ o s₁, perform b n c s = .ok (o, s₁) ∧ s₁.ready = true ∧ ¬ Intact s₁ := by
  by_cases hc : c = .terminate
  · subst hc
    rw [Safe, not_or, not_and] at hs
    by_cases hlive : s.live s.next_to_destroy = true
    · obtain ⟨s₁, head, ht, -, hrun⟩ := run_terminate_next b n h.toInv hlive
      refine Or.inr ⟨_, _, hrun, ?_, drop_harms h hjoins hlive (hs.2 hlive) ht head⟩
      exact (told_steady ht).ready.trans h.ready
    · exact Or.inl (terminate_dangling h.toInv hs.1 hlive)
  · exact Or.inl (unsafe_fault h.toInv hc hs)

/-! ## All calls -/

/-- The call uses no freed memory, and leaves the pointers good. -/
def Harmless (b : Blocks) (n : Nat) (c : Call) (s : State) : Prop :=
  (do
    let outcome ← perform b n c
    finish b c outcome : M Unit) s ≠ .error .fault ∧
  ∀ o s₁, perform b n c s = .ok (o, s₁) → s₁.ready = true → Intact s₁

theorem not_harmless_fault (h : perform b n c s = .error .fault) : ¬ Harmless b n c s := by
  rintro ⟨hno, -⟩
  apply hno
  rw [run_bind, h, error_bind]

theorem calm_harmless (h : Calm s T loc) (hb : Spare s b) (hj : Zeroed b) (ha : Allowed s c)
    (hs : Safe s c) : Harmless b n c s :=
  ⟨safe_no_fault h hb hj ha hs, fun _ _ hrun hr => safe_intact h hb hj ha hs hrun hr⟩

theorem calm_harmless_iff (h : Calm s T loc) (hjoins : Joins s) (hb : Spare s b) (hj : Zeroed b)
    (ha : Allowed s c) : Safe s c ↔ Harmless b n c s := by
  refine ⟨calm_harmless h hb hj ha, fun hh => ?_⟩
  by_contra hs
  rcases unsafe_harms (b := b) (n := n) h hjoins hs with hfault | ⟨o, s₁, hrun, hr, hbad⟩
  · exact not_harmless_fault hfault hh
  · exact hbad (hh.2 o s₁ hrun hr)

/-- The first call starts the library. -/
theorem off_harmless_iff (h : Off s) (hb : Unused s b) (hj : Zeroed b) (ha : Allowed s c) :
    Safe s c ↔ Harmless b n c s := by
  refine ⟨fun hs => ?_, fun hh => ?_⟩
  · rcases perform_off (n := n) h hj ha hs with ⟨hsame, hallow, hsafe⟩ | hret
    · obtain ⟨T, loc, hcalm⟩ := started_calm h hb hj
      have hstarted : Harmless b n c (s.started b) :=
        calm_harmless hcalm (spare_started hb) hj hallow hsafe
      unfold Harmless at hstarted ⊢
      rw [run_bind] at hstarted ⊢
      rwa [hsame]
    · refine ⟨fun hf => ?_, fun o s₁ hrun hr => ?_⟩
      · rw [run_bind, hret] at hf
        cases hf
      · rw [hret] at hrun
        cases hrun
        rw [h.ready] at hr
        contradiction
  · by_contra hs
    exact not_harmless_fault (unsafe_off h hb hj ha hs) hh

end

/-- In every run: the pointers to TCBs are good, except that `next_to_destroy` can be left over from
before `thread_cleanup`. A call uses no freed memory, and leaves the pointers good, exactly when it
is safe. -/
theorem tcb_lifetime {s : State} (h : Reachable Tidy s) :
    (s.ready = true → Intact s) ∧
    ∀ (b : Blocks) (n : Nat) (cpu : Regs) (c : Call), Unused s b → Zeroed b → Allowed s c →
      (Safe s c ↔ step b n cpu c s ≠ .error .fault ∧
        ∀ o s₁, perform b n c { s with cpu := cpu } = .ok (o, s₁) → s₁.ready = true → Intact s₁) ∧
      ∀ o s₁, c = .terminate → Safe s c → perform b n c { s with cpu := cpu } = .ok (o, s₁) →
        s₁.live s.current_thread = true := by
  have hcpu : ∀ {cpu c}, Safe { s with cpu := cpu } c ↔ Safe s c := by
    intro cpu c
    cases c <;> exact Iff.rfl
  rcases reach tidy_rules (joins_stable tidy_rules) h with hoff | ⟨⟨T, loc, hcalm⟩, hbl, hl, hjoins⟩
  · refine ⟨fun hr => ?_, fun b n cpu c hb hj ha => ⟨?_, ?_⟩⟩
    · rw [hoff.ready] at hr
      contradiction
    · have hoff' : Off { s with cpu := cpu } := off_cpu hoff
      exact hcpu.symm.trans (off_harmless_iff hoff' hb hj (allowed_cpu ha))
    · rintro o s₁ rfl
      exact absurd ha (off_terminate hoff)
  · refine ⟨fun _ => inv_intact hcalm.toInv, fun b n cpu c hb hj ha => ⟨?_, ?_⟩⟩
    · have hjoins' : Joins { s with cpu := cpu } :=
        ((joins_stable tidy_rules).cpu ⟨hbl, hl, hjoins⟩).2.2
      exact hcpu.symm.trans
        (calm_harmless_iff (calm_cpu hcalm) hjoins' (spare_of_unused hb) hj (allowed_cpu ha))
    · rintro o s₁ rfl hs hrun
      have hcalm' : Calm { s with cpu := cpu } _ _ := calm_cpu hcalm
      have hlive := safe_terminate hcalm' hj (hcpu.mpr hs) hrun
      exact hlive

/-- A thread terminates after another one that has been destroyed. -/
def freedRun : List Call := [.create 0 0, .create 0 0, .yield, .terminate]

theorem tcb_lifetime_freed :
    ∃ s, play Tidy 9 noRegs (fresh freedRun) booted = .ok s ∧ Intact s ∧
      step (blocks 4) 9 noRegs .terminate s ≠ .error .fault := by
  obtain ⟨s, hs, hp⟩ := ok_and (x := play Tidy 9 noRegs (fresh freedRun) booted)
    (p := fun s => s.ready && decide (Allowed s .terminate) && decide (Safe s .terminate) &&
      decide (Unused s (blocks 4))) (by decide +kernel)
  simp only [Bool.and_eq_true, decide_eq_true_iff] at hp
  obtain ⟨⟨⟨hr, ha⟩, hsafe⟩, hb⟩ := hp
  have hlife := tcb_lifetime (play_reachable (.boot booted_boot) hs)
  exact ⟨s, hs, hlife.1 hr,
    ((hlife.2 (blocks 4) 9 noRegs .terminate hb (by decide) ha).1.mp hsafe).1⟩

/-- A thread terminates, everything is destroyed, and then there is another thread. -/
def danglingRun : List Call := [.create 0 0, .yield, .terminate, .cleanup, .create 0 0, .yield]

/-- When that thread terminates a freed TCB is used, or its own is freed. -/
theorem dangling_destroy :
    (∃ s, play Tidy 9 noRegs (fresh danglingRun) booted = .ok s ∧ Reachable Tidy s ∧
      Allowed s .terminate ∧ s.live s.next_to_destroy = false ∧
      perform (blocks 6) 9 .terminate s = .error .fault) ∧
    ∃ s o s₁, play Tidy 9 noRegs (reuse 4 3 (fresh danglingRun)) booted = .ok s ∧
      Reachable Tidy s ∧ Allowed s .terminate ∧
      perform (blocks 6) 9 .terminate s = .ok (o, s₁) ∧ s₁.live s.current_thread = false := by
  constructor
  · obtain ⟨s, hs, hp⟩ := ok_and (x := play Tidy 9 noRegs (fresh danglingRun) booted)
      (p := fun s => decide (Allowed s .terminate) && !s.live s.next_to_destroy &&
        isFault (perform (blocks 6) 9 .terminate s)) (by decide +kernel)
    simp only [Bool.and_eq_true, decide_eq_true_iff, Bool.not_eq_true'] at hp
    obtain ⟨⟨ha, hlive⟩, hfault⟩ := hp
    exact ⟨s, hs, play_reachable (.boot booted_boot) hs, ha, hlive, fault_of_isFault hfault⟩
  · obtain ⟨s, hs, hp⟩ := ok_and (x := play Tidy 9 noRegs (reuse 4 3 (fresh danglingRun)) booted)
      (p := fun s => decide (Allowed s .terminate) &&
        (perform (blocks 6) 9 .terminate s).toOption.any fun r => !r.2.live s.current_thread)
      (by decide +kernel)
    rw [Bool.and_eq_true, decide_eq_true_iff] at hp
    obtain ⟨⟨o, s₁⟩, hrun, hlive⟩ := ok_and hp.2
    exact ⟨s, o, s₁, hs, play_reachable (.boot booted_boot) hs, hp.1, hrun, by simpa using hlive⟩

end Cs720.Threads
