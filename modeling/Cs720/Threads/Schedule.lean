import Cs720.Threads.Frame

/-! # The scheduler invariant -/

namespace Cs720.Threads

open Cs720.Lib

/-- Every thread but the current one is where its status says, once. -/
structure Scheduled (s : State) : Prop where
  working : ∀ p, s.live p = true → (s.tcb p).status = .WORKING → p ≠ s.current_thread →
    (s.ready_list.getD []).count p = 1
  idle : ∀ p, s.live p = true → (s.tcb p).status ≠ .WORKING → p ∉ s.ready_list.getD []
  current : s.current_thread ∉ s.ready_list.getD []
  waiting : ∀ p, s.live p = true → (s.tcb p).status = .WAITING →
    ∃ w, (s.queue (.wait w)).count p = 1 ∧ (∀ u, p ∈ s.queue (.wait u) → u = w) ∧
      ∀ t, w = .join t → s.live t = true ∧ (s.tcb t).status ≠ .DONE

section
variable {P : State → Blocks → Call → Prop} {b : Blocks} {n : Nat} {cpu : Regs} {s s₁ : State}
  {T : Table} {loc : Ptr → Option (Place Wait)} {c : Call}

theorem inv_scheduled (h : Inv s T loc) : Scheduled s := by
  refine ⟨?_, ?_, ?_, ?_⟩
  · intro p hp hw hc
    exact Scheduler.ready_count h.sched hp (mode_working.mpr hw) hc
  · intro p hp hw hmem
    exact hw (ready_working h hmem).2
  · exact Scheduler.current_notMem_ready h.sched
  · intro p hp hw
    obtain ⟨w, hcount, honly⟩ := Scheduler.wait_place h.sched hp (mode_waiting.mpr hw)
    refine ⟨w, hcount, honly, ?_⟩
    rintro t rfl
    have hmem : p ∈ s.queue (.wait (.join t)) := List.count_pos_iff.mp (by
      have : (s.queue (.wait (.join t))).count p = 1 := hcount
      omega)
    simp only [State.queue] at hmem
    split at hmem
    · rename_i ht
      exact ⟨ht.1, fun hdone => ht.2 (h.observer_done ht.1 hdone)⟩
    · contradiction

theorem stable_true : Stable P fun _ => True :=
  ⟨⟨fun _ => trivial, fun _ _ _ _ _ _ _ => trivial, fun _ _ _ => trivial, fun _ _ _ _ => trivial⟩,
    fun _ _ _ => trivial⟩

/-- What holds when a call hands over to `thread_yield`. -/
theorem handover {v : Option Int} (h : Calm s T loc) (hb : Spare s b) (ha : Allowed s c)
    (ht : Tidy s b c) (hp : perform b n c s = .ok (.yield v, s₁)) : ∃ U l, Inv s₁ U l := by
  rcases acts (n := n) h.toInv h.works ht.1 (safe_of_ok h.toInv ht.2 hp) with
    ⟨o, s₂, hrun, hd⟩ | ⟨e, he, -⟩
  · rw [hp, Except.ok.injEq, Prod.mk.injEq] at hrun
    obtain ⟨rfl, rfl⟩ := hrun
    rcases does_ready h hd with hr | ⟨-, hret, -⟩
    · exact (does_inv h hb ht.1 ha hd hr).1
    · contradiction
  · rw [hp] at he
    contradiction

theorem yields (h : Inv s T loc) :
    (∀ p ∈ s.ready_list.getD [], (s.tcb p).status = .WORKING) ∧
    ∀ e, thread_yield b s = .error e →
      e = .exit (-1) ∧ ∀ p, s.live p = true → (s.tcb p).status ≠ .WORKING := by
  refine ⟨fun p hp => (ready_working h hp).2, fun e he => ?_⟩
  rcases run_yield b h with ⟨-, -, hy⟩ | ⟨hrl, hw, hy⟩ | ⟨x, xs, -, hy⟩
  · rw [hy] at he
    contradiction
  · rw [hy, Except.error.injEq] at he
    refine ⟨he.symm, fun p hp hwork => ?_⟩
    exact Scheduler.nobody_works h.sched (by simp [State.queue, hrl]) (mode_working.not.mpr hw) hp
      (mode_working.mpr hwork)
  · rw [hy] at he
    contradiction

/-! ## Runs without `thread_cleanup` -/

def Plain (_ : State) (b : Blocks) (c : Call) : Prop := Zeroed b ∧ c ≠ .cleanup

instance (s : State) (b : Blocks) (c : Call) : Decidable (Plain s b c) :=
  inferInstanceAs (Decidable (Zeroed b ∧ c ≠ .cleanup))

/-- While the library stays in use, the thread that is next to destroy has ended. -/
theorem next_steps : Steps Tidy fun s => Safe s .terminate := by
  refine ⟨id, ?_, ?_, fun _ _ _ => id⟩
  · intro s T loc b c o s₁ h hb ha hp hs hd hr
    have hafter : Safe s₁ .terminate → Safe (s₁.after c o) .terminate := by
      cases o <;> exact id
    apply hafter
    rcases does_minor h hd with hm | hm
    · simpa [Safe, hm.next, hm.live, hm.done] using hs
    · cases hm with
      | create work info =>
        refine hs.imp_right ?_
        rintro ⟨hlive, hdone⟩
        have hne : s.next_to_destroy ≠ b.thread.addr := fun heq => (thread_spare hb).2 (heq ▸ hlive)
        simpa [Function.update_of_ne hne] using ⟨hlive, hdone⟩
      | join id t =>
        refine hs.imp_right ?_
        rintro ⟨hlive, hdone⟩
        refine ⟨hlive, ?_⟩
        have hne : s.next_to_destroy ≠ s.current_thread := by
          intro heq
          rw [heq, h.works] at hdone
          contradiction
        simpa [hne] using hdone
      | cleanup _ hoff =>
        rw [hoff.ready] at hr
        contradiction
      | terminate _ hst he =>
        right
        rw [he.next, he.live, he.status, if_pos rfl]
        refine ⟨⟨current_live h.toInv, fun heq => ?_⟩, rfl⟩
        have hdone := he.next_done (heq ▸ current_live h.toInv)
        rw [← heq, h.works] at hdone
        contradiction
  · intro s T loc x xs h hrl hs
    refine hs.imp_right ?_
    rintro ⟨hlive, hdone⟩
    exact ⟨hlive, by simpa using hdone⟩

/-- Such runs are tidy. -/
theorem plain_reach (h : Reachable Plain s) :
    Reachable Tidy s ∧ (s.ready = true → Safe s .terminate) := by
  have hkey : Reachable Tidy s ∧
      (Off s ∧ s.next_to_destroy = 0 ∨ (∃ T loc, Calm s T loc) ∧ Safe s .terminate) := by
    induction h with
    | boot hb => exact ⟨.boot hb, Or.inl ⟨off_of_boot hb, hb.next_to_destroy⟩⟩
    | @step s s₁ b n cpu c _ hb ha hp hs ih =>
      obtain ⟨hreach, hcase⟩ := ih
      obtain ⟨hj, hc⟩ := hp
      have ht : Tidy s b c := by
        refine ⟨hj, ?_⟩
        rintro rfl
        rcases hcase with ⟨hoff, -⟩ | ⟨-, hnext⟩
        · exact absurd ha (off_terminate hoff)
        · exact hnext
      refine ⟨.step hreach hb ha ht hs, ?_⟩
      have ha' : Allowed { s with cpu := cpu } c := allowed_cpu ha
      have ht' : Tidy { s with cpu := cpu } b c := tidy_rules.cpu ht
      have hb' : Unused { s with cpu := cpu } b := hb
      rw [run_step] at hs
      rcases hcase with ⟨hoff, h0⟩ | ⟨⟨T, loc, hcalm⟩, hnext⟩
      · have hoff' : Off { s with cpu := cpu } := off_cpu hoff
        rcases step_off hoff' hb' hj ha' hs with ⟨hrun, hallow, hne⟩ | ⟨hoff₁, hsame⟩
        · obtain ⟨T, loc, hcalm⟩ := started_calm hoff' hb' hj
          exact Or.inr ((calm_step tidy_rules next_steps hcalm (Or.inl h0) (spare_started hb')
            hallow (tidy_rules.start hoff' hne ht') hrun).resolve_left fun h => hc h.1)
        · exact Or.inl ⟨hoff₁, hsame.trans h0⟩
      · have hcalm' : Calm { s with cpu := cpu } T loc := calm_cpu hcalm
        exact Or.inr ((calm_step tidy_rules next_steps hcalm' hnext (spare_of_unused hb') ha' ht'
          hs).resolve_left fun h => hc h.1)
  refine ⟨hkey.1, fun hr => ?_⟩
  rcases hkey.2 with ⟨hoff, -⟩ | ⟨-, hnext⟩
  · exact absurd (hoff.ready.symm.trans hr) (by simp)
  · exact hnext

theorem plain_tidy (h : Reachable Plain s) (ha : Allowed s c) (hp : Plain s b c) : Tidy s b c := by
  refine ⟨hp.1, ?_⟩
  rintro rfl
  exact (plain_reach h).2 ha.1

end

/-- In every state of a run the threads are where they belong. What `thread_yield` pops can work,
and it exits only when no thread can. -/
theorem scheduler_invariant {P : State → Blocks → Call → Prop} (hP : P = Plain ∨ P = Tidy)
    {s : State} (h : Reachable P s) :
    (s.ready = true → Scheduled s) ∧
    ∀ (n : Nat) (b : Blocks) (cpu : Regs) (c : Call) (v : Option Int) (s₁ : State), Unused s b →
      Allowed s c → P s b c → perform b n c { s with cpu := cpu } = .ok (.yield v, s₁) →
      Scheduled s₁ ∧ (∀ p ∈ s₁.ready_list.getD [], (s₁.tcb p).status = .WORKING) ∧
      ∀ e, thread_yield b s₁ = .error e →
        e = .exit (-1) ∧ ∀ p, s₁.live p = true → (s₁.tcb p).status ≠ .WORKING := by
  have htidy : Reachable Tidy s ∧ ∀ b c, Allowed s c → P s b c → Tidy s b c := by
    rcases hP with rfl | rfl
    · exact ⟨(plain_reach h).1, fun b c ha hp => plain_tidy h ha hp⟩
    · exact ⟨h, fun b c _ hp => hp⟩
  rcases reach tidy_rules stable_true htidy.1 with hoff | ⟨⟨T, loc, hcalm⟩, -⟩
  · refine ⟨fun hr => ?_, fun n b cpu c v s₁ hb ha hp hrun => ?_⟩
    · rw [hoff.ready] at hr
      contradiction
    · have hoff' : Off { s with cpu := cpu } := off_cpu hoff
      have ht : Tidy { s with cpu := cpu } b c := tidy_rules.cpu (htidy.2 b c ha hp)
      have ha' : Allowed { s with cpu := cpu } c := allowed_cpu ha
      have hsafe := safe_of_off hoff' hb ht.1 ha' hrun
      rcases perform_off (n := n) hoff' ht.1 ha' hsafe with ⟨hsame, hallow, hs⟩ | hret
      · obtain ⟨T, loc, hcalm⟩ := started_calm hoff' (b := b) hb ht.1
        obtain ⟨U, l, hinv⟩ := handover hcalm (spare_started (s := { s with cpu := cpu }) hb) hallow
          ⟨ht.1, fun _ => hs⟩ (hsame ▸ hrun)
        exact ⟨inv_scheduled hinv, yields hinv⟩
      · rw [hrun] at hret
        cases hret
  · refine ⟨fun _ => inv_scheduled hcalm.toInv, fun n b cpu c v s₁ hb ha hp hrun => ?_⟩
    have hcalm' : Calm { s with cpu := cpu } T loc := calm_cpu hcalm
    obtain ⟨U, l, hinv⟩ := handover hcalm' (b := b) (spare_of_unused hb) (allowed_cpu ha)
      (tidy_rules.cpu (htidy.2 b c ha hp)) hrun
    exact ⟨inv_scheduled hinv, yields hinv⟩

/-! ## A run -/

def noRegs : Regs := ⟨0, 0, 0, 0, 0, 0, 0, 0, 0⟩

/-- Memory that reads as zero. -/
def zeros : Tcb := ⟨noRegs, 0, 0, 0, .WORKING, 0, 0⟩

/-- Blocks that differ from those with another number. -/
def blocks (k : Nat) : Blocks :=
  ⟨⟨5 * k + 1, zeros⟩, 5 * k + 2, ⟨5 * k + 3, zeros⟩, 5 * k + 4, 5 * k + 5⟩

/-- Each call gets new blocks. -/
def fresh (cs : List Call) : List (Blocks × Call) := cs.zipIdx.map fun x => (blocks x.2, x.1)

def booted : State where
  ready := false
  all_threads := none
  ready_list := none
  mutexes := none
  conds := none
  next_to_destroy := 0
  parent_id := 0
  current_thread := 0
  live _ := false
  tcb _ := zeros
  liveStack _ := false
  mutex _ := ⟨0, none, false⟩
  cond _ := none
  cpu := noRegs
  pending _ := none
  log := []

theorem booted_boot : Boot booted :=
  ⟨rfl, fun _ => rfl, fun _ => rfl, fun _ => rfl, rfl⟩

/-- A thread waits for a mutex, one for a thread to terminate, and that one on a condition. -/
def waitingRun : List Call :=
  [.mutexInit 100, .condInit 200, .lock 100, .create 0 0, .create 0 0, .create 0 0, .yield, .lock 100,
    .join 3, .mutexInit 101, .lock 101, .wait 200 101]

theorem scheduler_invariant_waiting :
    ∃ s, play Plain 9 noRegs (fresh waitingRun) booted = .ok s ∧ s.ready_list = some [] ∧
      Scheduled s := by
  obtain ⟨s, hs, hr⟩ := ok_and (x := play Plain 9 noRegs (fresh waitingRun) booted)
    (p := fun s => s.ready && s.ready_list == some []) (by decide +kernel)
  rw [Bool.and_eq_true, beq_iff_eq] at hr
  exact ⟨s, hs, hr.2,
    (scheduler_invariant (Or.inl rfl) (play_reachable (.boot booted_boot) hs)).1 hr.1⟩

end Cs720.Threads
