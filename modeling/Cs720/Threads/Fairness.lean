import Cs720.Lib.Fifo
import Cs720.Threads.Schedule

/-! # Whose turn it is

A thread that can work has its turn after those that could work before it.
-/

namespace Cs720.Threads

open Cs720.Lib

/-- The thread that the step has switched to, if it has. -/
def turn (s s₁ : State) : List Ptr :=
  if s₁.current_thread = s.current_thread then [] else [s₁.current_thread]

/-- A run in which the library stays in use, and the threads that get their turns in it. -/
inductive Turns (s : State) : List Ptr → State → Prop where
  | refl : Turns s [] s
  | step {ps : List Ptr} {s₁ s₂ : State} {b : Blocks} {n : Nat} {cpu : Regs} {c : Call} :
      Turns s ps s₁ → Unused s₁ b → Allowed s₁ c → Tidy s₁ b c →
      step b n cpu c s₁ = .ok ((), s₂) → s₂.ready = true → Turns s (ps ++ turn s₁ s₂) s₂

section
variable {b : Blocks} {n : Nat} {cpu : Regs} {s s₁ s₂ : State} {T : Table}
  {loc : Ptr → Option (Place Wait)} {c : Call} {o : Outcome} {ps : List Ptr}

/-- A call pushes threads on the ready list, and pops none. -/
theorem does_pushes (h : Calm s T loc) (hd : Does b s T c o s₁) (hr : s₁.ready = true) :
    ∃ pushed, s₁.ready_list.getD [] = s.ready_list.getD [] ++ pushed := by
  have hunlock {m : Ptr} {u : State} (hu : Unlocks s m u) :
      ∃ pushed, u.ready_list.getD [] = s.ready_list.getD [] ++ pushed := by
    cases hu with
    | release => exact ⟨[], by simp⟩
    | hand x => exact ⟨[x], by simp⟩
  cases hd with
  | create => exact ⟨[b.thread.addr], by simp⟩
  | unlock m _ _ hu => exact hunlock hu
  | wait d m u _ hu =>
    obtain ⟨pushed, hpushed⟩ := hunlock hu
    exact ⟨pushed, by simpa using hpushed⟩
  | signalFree d i => exact ⟨[i.thread], by simp⟩
  | cleanup u hoff =>
    rw [hoff.ready] at hr
    contradiction
  | terminate u v ht hdes =>
    obtain ⟨⟨l, hok⟩, -, -⟩ := told_view h.toInv h.works ht
    rw [State.setNext_ready_list, (destroys_dropped h.toInv h.works ht hdes hok).ready_list]
    rcases ht with ⟨rfl, -⟩ | ⟨rfl, -⟩
    · exact ⟨[], by simp⟩
    · exact ⟨[(s.tcb s.current_thread).observer], by simp⟩
  | _ => exact ⟨[], by simp⟩

theorem resumed_same : s.resumed.ready_list = s.ready_list ∧
    s.resumed.current_thread = s.current_thread ∧ s.resumed.ready = s.ready := by
  unfold State.resumed
  rcases s.pending s.current_thread with _ | ⟨c, v⟩ <;> simp

theorem passes_behind {x : Ptr} {xs : List Ptr} :
    Passes (x :: xs) [x] (s.behind xs) := by
  unfold State.behind
  split
  · exact ⟨[s.current_thread], by simp⟩
  · exact passes_pop rfl

/-- After its outcome is known, a call makes the switch. -/
theorem finishes_passes (h : Inv s T loc) (hf : Finishes s c o s₁) :
    Passes (s.ready_list.getD []) (turn s s₁) (s₁.ready_list.getD []) := by
  have hsame {u : State} (hcur : u.current_thread = s.current_thread)
      (hlist : u.ready_list = s.ready_list) :
      Passes (s.ready_list.getD []) (turn s u) (u.ready_list.getD []) := by
    unfold turn
    rw [if_pos hcur, hlist]
    exact passes_refl
  cases hf with
  | ret v => exact hsame rfl rfl
  | stay v => exact hsame resumed_same.2.1 resumed_same.1
  | switch v x xs hrl =>
    obtain ⟨hlist, hcur, -⟩ :=
      resumed_same (s := (s.after c (.yield v)).dispatch x (s.behind xs))
    have hx : x ≠ s.current_thread := by
      rintro rfl
      exact Scheduler.current_notMem_ready h.sched (by simp [State.queue, hrl])
    unfold turn
    rw [hlist, hcur, State.dispatch_current_thread, if_neg hx, State.dispatch_ready_list, hrl]
    exact passes_behind

theorem step_passes (h : Calm s T loc) (hb : Unused s b) (ha : Allowed s c) (ht : Tidy s b c)
    (hs : step b n cpu c s = .ok ((), s₂)) (hr : s₂.ready = true) :
    Passes (s.ready_list.getD []) (turn s s₂) (s₂.ready_list.getD []) := by
  have hcalm : Calm { s with cpu := cpu } T loc := calm_cpu h
  have ha' : Allowed { s with cpu := cpu } c := allowed_cpu ha
  have hb' : Spare { s with cpu := cpu } b := spare_of_unused (s := { s with cpu := cpu }) hb
  rw [run_step] at hs
  obtain ⟨r, hok, -⟩ := bind_ok.mp hs
  have hsafe := safe_of_ok hcalm.toInv (tidy_rules.cpu ht).2 hok
  rcases acts (n := n) hcalm.toInv hcalm.works ht.1 hsafe with ⟨o, s₁, hrun, hd⟩ | ⟨e, he, -⟩
  swap
  · rw [run_bind, he, error_bind] at hs
    contradiction
  rw [run_bind, hrun, ok_bind] at hs
  rcases does_ready hcalm hd with hr₁ | ⟨-, rfl, hoff⟩
  swap
  · cases hs
    exact absurd (hr.symm.trans hoff.ready) (by decide)
  obtain ⟨⟨U, l, hinv⟩, hcur, -, hl⟩ := does_inv hcalm hb' ht.1 ha' hd hr₁
  obtain ⟨pushed, hpushed⟩ := does_pushes hcalm hd hr₁
  rw [← hcur] at hl
  rcases run_finish b (c := c) hinv hl with ⟨u, hfin, hf⟩ | hfin
  · rw [hfin, Except.ok.injEq, Prod.mk.injEq] at hs
    obtain ⟨-, rfl⟩ := hs
    have hturn : turn s u = turn s₁ u := by
      unfold turn
      rw [hcur]
    rw [hturn]
    exact (passes_push hpushed).trans (finishes_passes hinv hf)
  · rw [hfin] at hs
    contradiction

theorem reach_calm (h : Reachable Tidy s) (hr : s.ready = true) : ∃ T loc, Calm s T loc := by
  rcases reach tidy_rules stable_true h with hoff | ⟨hcalm, -⟩
  · rw [hoff.ready] at hr
    contradiction
  · exact hcalm

theorem Turns.reachable (h : Reachable Tidy s) (ht : Turns s ps s₁) : Reachable Tidy s₁ := by
  induction ht with
  | refl => exact h
  | step _ hb ha ht hs _ ih => exact .step ih hb ha ht hs

theorem Turns.ready (hr : s.ready = true) (ht : Turns s ps s₁) : s₁.ready = true := by
  cases ht with
  | refl => exact hr
  | step _ _ _ _ _ hr₁ => exact hr₁

theorem Turns.passes (h : Reachable Tidy s) (hr : s.ready = true) (ht : Turns s ps s₁) :
    Passes (s.ready_list.getD []) ps (s₁.ready_list.getD []) := by
  induction ht with
  | refl => exact passes_refl
  | step hrun hb ha ht hs hr₂ ih =>
    obtain ⟨T, loc, hcalm⟩ := reach_calm (hrun.reachable h) (hrun.ready hr)
    exact ih.trans (step_passes hcalm hb ha ht hs hr₂)

theorem ready_nodup (h : Inv s T loc) : (s.ready_list.getD []).Nodup := by
  rw [List.nodup_iff_count_le_one]
  intro p
  by_cases hp : p ∈ s.ready_list.getD []
  · obtain ⟨hlive, hw⟩ := ready_working h hp
    have hne : p ≠ s.current_thread := by
      rintro rfl
      exact Scheduler.current_notMem_ready h.sched hp
    exact ((inv_scheduled h).working p hlive hw hne).le
  · rw [List.count_eq_zero_of_not_mem hp]
    exact Nat.zero_le 1

/-- `thread_yield` gives the turn to the front of the ready list, and puts the caller at its end. -/
theorem step_yield (h : Calm s T loc) {x : Ptr} {xs : List Ptr} (hrl : s.ready_list = some (x :: xs))
    (hs : step b n cpu .yield s = .ok ((), s₂)) :
    s₂.current_thread = x ∧ s₂.ready_list = some (xs ++ [s.current_thread]) := by
  have hcalm : Calm { s with cpu := cpu } T loc := calm_cpu h
  have hinv : Inv (({ s with cpu := cpu } : State).after .yield (.yield (some 0))) T loc :=
    after_inv hcalm.toInv (by simp [Leaves, h.works])
  rw [run_step, run_bind] at hs
  have hperform : perform b n .yield { s with cpu := cpu } =
      .ok (.yield (some 0), { s with cpu := cpu }) := by
    simp [perform, run_ensure hcalm.ready]
  rw [hperform, ok_bind] at hs
  rcases run_finish b (c := .yield) (o := .yield (some 0)) hcalm.toInv
    (by simp [Leaves, h.works]) with ⟨u, hfin, hf⟩ | hfin
  · rw [hfin, Except.ok.injEq, Prod.mk.injEq] at hs
    obtain ⟨-, rfl⟩ := hs
    cases hf with
    | stay v hnil => cases hrl.symm.trans hnil
    | switch v y ys hys =>
      cases hrl.symm.trans hys
      obtain ⟨hlist, hcur, -⟩ := resumed_same
        (s := (({ s with cpu := cpu } : State).after .yield (.yield (some 0))).dispatch x
          (({ s with cpu := cpu } : State).behind xs))
      refine ⟨hcur, hlist.trans ?_⟩
      rw [State.dispatch_ready_list]
      exact congrArg some (if_pos h.works)
  · rw [hfin] at hs
    contradiction

end

/-- The threads that can work get their turns in the order of the ready list, each one once, before
any thread that comes to it later, and `thread_yield` goes to the end of it. -/
theorem fair_turns {s s₁ : State} {ps : List Ptr} (h : Reachable Tidy s) (hr : s.ready = true)
    (ht : Turns s ps s₁) :
    (s.ready_list.getD []).Nodup ∧ s.current_thread ∉ s.ready_list.getD [] ∧
    (∀ k p, (s.ready_list.getD [])[k]? = some p →
      (k < ps.length → ps[k]? = some p) ∧
      (ps.length ≤ k → (s₁.ready_list.getD [])[k - ps.length]? = some p)) ∧
    ∀ b n cpu s₂ x xs, s.ready_list = some (x :: xs) → step b n cpu .yield s = .ok ((), s₂) →
      s₂.current_thread = x ∧ s₂.ready_list = some (xs ++ [s.current_thread]) := by
  obtain ⟨T, loc, hcalm⟩ := reach_calm h hr
  have hpasses := ht.passes h hr
  refine ⟨ready_nodup hcalm.toInv, Scheduler.current_notMem_ready hcalm.sched, ?_, ?_⟩
  · intro k p hp
    exact ⟨hpasses.served hp, hpasses.waits hp⟩
  · intro b n cpu s₂ x xs hrl hs
    exact step_yield hcalm hrl hs

/-! ## A run -/

/-- The turns in a run with the calls `cs`, which must be allowed. -/
def playTurns (n : Nat) (cpu : Regs) : List (Blocks × Call) → State → C (List Ptr × State)
  | [], s => .ok ([], s)
  | c :: cs, s => do
    let s₁ ← play Tidy n cpu [c] s
    if s₁.ready then do
      let (ps, s₂) ← playTurns n cpu cs s₁
      return (turn s s₁ ++ ps, s₂)
    else .error .fault

theorem Turns.trans {s s₁ s₂ : State} {ps qs : List Ptr} (h : Turns s ps s₁)
    (h' : Turns s₁ qs s₂) : Turns s (ps ++ qs) s₂ := by
  induction h' with
  | refl =>
    rw [List.append_nil]
    exact h
  | step _ hb ha ht hs hr ih =>
    rw [← List.append_assoc]
    exact .step ih hb ha ht hs hr

theorem turns_play {n : Nat} {cpu : Regs} {cs : List (Blocks × Call)} {s s₁ : State}
    {ps : List Ptr} (h : playTurns n cpu cs s = .ok (ps, s₁)) : Turns s ps s₁ := by
  induction cs generalizing s ps with
  | nil =>
    cases h
    exact .refl
  | cons c cs ih =>
    rw [playTurns, play] at h
    obtain ⟨u, hu, h⟩ := bind_ok.mp h
    split at hu
    · rename_i ha
      obtain ⟨⟨x, u'⟩, hs, hu⟩ := bind_ok.mp hu
      cases hu
      split at h
      · rename_i hr
        obtain ⟨⟨qs, v⟩, hqs, h⟩ := bind_ok.mp h
        cases h
        exact (Turns.step .refl ha.1 ha.2.1 ha.2.2 hs hr).trans (ih hqs)
      · cases h
    · cases hu

def twoRun : List (Blocks × Call) := fresh [.create 0 0, .create 0 0]

/-- Two threads are made, and two calls of `thread_yield` lead to them. -/
theorem fair_turns_yields : ∃ s s₁ ps, play Tidy 9 noRegs twoRun booted = .ok s ∧
    Turns s ps s₁ ∧ ps.length = 2 ∧
    (s.ready_list.getD []).Nodup ∧ s.current_thread ∉ s.ready_list.getD [] ∧
    (∀ k p, (s.ready_list.getD [])[k]? = some p →
      (k < ps.length → ps[k]? = some p) ∧
      (ps.length ≤ k → (s₁.ready_list.getD [])[k - ps.length]? = some p)) ∧
    ∀ b n cpu s₂ x xs, s.ready_list = some (x :: xs) → step b n cpu .yield s = .ok ((), s₂) →
      s₂.current_thread = x ∧ s₂.ready_list = some (xs ++ [s.current_thread]) := by
  obtain ⟨⟨s, ps, s₁⟩, hplay, hr⟩ := ok_and
    (x := play Tidy 9 noRegs twoRun booted >>= fun s =>
      playTurns 9 noRegs [(blocks 2, .yield), (blocks 2, .yield)] s >>= fun r => .ok (s, r.1, r.2))
    (p := fun r => r.1.ready && r.2.1.length == 2) (by decide +kernel)
  rw [Bool.and_eq_true, beq_iff_eq] at hr
  obtain ⟨u, hu, hplay⟩ := bind_ok.mp hplay
  obtain ⟨⟨qs, v⟩, hv, hplay⟩ := bind_ok.mp hplay
  cases hplay
  have hturns := turns_play hv
  exact ⟨_, _, _, hu, hturns, hr.2, fair_turns (play_reachable (.boot booted_boot) hu) hr.1 hturns⟩

end Cs720.Threads
