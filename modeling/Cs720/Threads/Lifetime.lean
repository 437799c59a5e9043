import Cs720.Threads.Schedule

/-! # Threads that have terminated -/

namespace Cs720.Threads

open Cs720.Lib

/-- The ids of the threads that have terminated. -/
def ended (l : List Event) : List Nat :=
  l.filterMap fun
    | .terminated k => some k
    | _ => none

theorem ended_append (l₁ l₂ : List Event) : ended (l₁ ++ l₂) = ended l₁ ++ ended l₂ :=
  List.filterMap_append

theorem ended_aside {l : List Event} (h : ∀ e ∈ l, Aside e) : ended l = [] := by
  refine List.filterMap_eq_nil_iff.mpr fun e he => ?_
  have hside := h e he
  cases e with
  | terminated k => exact absurd hside id
  | _ => rfl

theorem mem_ended {l : List Event} {k : Nat} : k ∈ ended l ↔ .terminated k ∈ l := by
  unfold ended
  rw [List.mem_filterMap]
  constructor
  · rintro ⟨e, he, heq⟩
    cases e <;> simp_all
  · exact fun hk => ⟨_, hk, rfl⟩

/-- The thread that terminated last is the next to destroy, and those before it are freed. -/
structure Life (s : State) : Prop where
  done : ∀ {t}, s.live t = true → (s.tcb t).status = .DONE → (s.tcb t).tid ∈ ended s.log
  below : ∀ {k T}, k ∈ ended s.log → s.all_threads = some T → k < T.max_id
  gone : ∀ {k t}, k ∈ ended s.log → s.live t = true → (s.tcb t).tid = k → (s.tcb t).status = .DONE
  last : ∀ {k}, (ended s.log).getLast? = some k →
    s.live s.next_to_destroy = true ∧ (s.tcb s.next_to_destroy).tid = k

section
variable {P : State → Blocks → Call → Prop} {b : Blocks} {s s₁ : State} {T : Table}
  {loc : Ptr → Option (Place Wait)} {c : Call} {o : Outcome} {p : Ptr}

theorem life_congr (h : Life s) (hl : s₁.live = s.live) (hn : s₁.next_to_destroy = s.next_to_destroy)
    (ht : s₁.all_threads = s.all_threads) (htid : ∀ p, (s₁.tcb p).tid = (s.tcb p).tid)
    (hdone : ∀ p, (s₁.tcb p).status = .DONE ↔ (s.tcb p).status = .DONE)
    (hlog : ended s₁.log = ended s.log) : Life s₁ := by
  refine ⟨?_, ?_, ?_, ?_⟩
  · intro t hlive hd
    rw [hl] at hlive
    rw [hlog, htid]
    exact h.done hlive ((hdone t).mp hd)
  · intro k U hk hU
    rw [hlog] at hk
    rw [ht] at hU
    exact h.below hk hU
  · intro k t hk hlive hid
    rw [hlog] at hk
    rw [hl] at hlive
    rw [htid] at hid
    exact (hdone t).mpr (h.gone hk hlive hid)
  · intro k hk
    rw [hlog] at hk
    rw [hl, hn, htid]
    exact h.last hk

theorem life_minor (h : Life s) (hm : Minor s s₁) : Life s₁ := by
  obtain ⟨es, hes, hall⟩ := hm.log
  refine life_congr h hm.live hm.next hm.table hm.tid hm.done ?_
  rw [hes, ended_append, ended_aside hall, List.append_nil]

theorem life_note (h : Life s) {k : Nat} {v : Int} : Life (s.note (.returned k c v)) := by
  refine life_congr h rfl rfl rfl (fun _ => rfl) (fun _ => Iff.rfl) ?_
  rw [State.note_log, ended_append]
  exact List.append_nil _

theorem life_pend (h : Life s) (v : Option (Call × Int)) : Life (s.pend p v) :=
  life_congr h rfl rfl rfl (fun _ => rfl) (fun _ => Iff.rfl) rfl

theorem life_after (h : Life s) : Life (s.after c o) := by
  cases o with
  | ret v => exact life_note h
  | yield v => exact life_pend h _

theorem life_started (h : Off s) : Life (s.started b) := by
  refine ⟨?_, by simp [ended], by simp [ended], by simp [ended]⟩
  intro t ht hdone
  simp [live_started h.live ht] at hdone

theorem life_created (h : Life s) (htab : TableOk s T) (hb : Spare s b) (info : BitVec 64) :
    Life (s.created b info T) := by
  have hne : ∀ {q}, s.live q = true → q ≠ b.thread.addr := by
    rintro q hq rfl
    exact (thread_spare hb).2 hq
  refine ⟨?_, ?_, ?_, ?_⟩
  · intro t ht hdone
    by_cases htb : t = b.thread.addr
    · simp [htb] at hdone
    · simp only [State.created_live, State.created_tcb, Function.update_of_ne htb] at ht hdone ⊢
      exact h.done ht hdone
  · intro k U hk hU
    rw [State.created_all_threads, Option.some_inj] at hU
    rw [← hU]
    exact Nat.lt_succ_of_lt (h.below hk htab.table)
  · intro k t hk ht hid
    by_cases htb : t = b.thread.addr
    · -- The new id is above all ids so far.
      rw [htb, State.created_tcb, Function.update_self] at hid
      exact absurd (h.below hk htab.table) (by rw [← hid]; exact Nat.lt_irrefl _)
    · simp only [State.created_live, State.created_tcb, Function.update_of_ne htb] at ht hid ⊢
      exact h.gone hk ht hid
  · intro k hk
    have hlast := h.last hk
    simp only [State.created_live, State.created_tcb, State.created_next_to_destroy,
      Function.update_of_ne (hne hlast.1)]
    exact hlast

theorem life_ends (h : Life s) (hcalm : Calm s T loc) (he : Ends s s₁) : Life s₁ := by
  have hcur := current_live hcalm.toInv
  have hlog : ended s₁.log = ended s.log ++ [(s.tcb s.current_thread).tid] := by
    rw [he.log, ended_append]
    rfl
  have hnext : s.current_thread ≠ s.next_to_destroy := by
    intro heq
    have hdone := he.next_done (heq ▸ hcur)
    rw [← heq, hcalm.works] at hdone
    contradiction
  refine ⟨?_, ?_, ?_, ?_⟩
  · intro t ht hdone
    rw [he.live] at ht
    rw [he.status] at hdone
    rw [hlog, he.tid, List.mem_append, List.mem_singleton]
    split at hdone
    · rename_i htc
      exact Or.inr (by rw [htc])
    · split at hdone
      · contradiction
      · exact Or.inl (h.done ht.1 hdone)
  · intro k U hk hU
    have hmap := he.max_id
    rw [hU, hcalm.table.table] at hmap
    obtain hmax : U.max_id = T.max_id := Option.some.inj hmap
    rw [hmax]
    rw [hlog, List.mem_append, List.mem_singleton] at hk
    rcases hk with hk | rfl
    · exact h.below hk hcalm.table.table
    · exact tid_lt hcalm.table hcur
  · intro k t hk ht hid
    rw [hlog, List.mem_append, List.mem_singleton] at hk
    rw [he.live] at ht
    rw [he.tid] at hid
    rcases hk with hk | rfl
    · -- A thread that was done is the one that has been destroyed.
      have hdone := h.gone hk ht.1 hid
      exact absurd (hcalm.next_of_done ht.1 hdone).symm ht.2
    · rw [he.status, if_pos (tid_inj hcalm.table ht.1 hcur hid)]
  · intro k hk
    rw [hlog, List.getLast?_append, List.getLast?_singleton, Option.some_or, Option.some_inj] at hk
    rw [he.next, he.live, he.tid]
    exact ⟨⟨hcur, hnext⟩, hk⟩

theorem life_stable : Stable P Life := by
  refine ⟨⟨?_, ?_, ?_, ?_⟩, fun h _ _ => life_started h⟩
  · exact fun h => life_congr h rfl rfl rfl (fun _ => rfl) (fun _ => Iff.rfl) rfl
  · intro s T loc b c o s₁ hcalm hb ha hp h hd hr
    apply life_after
    rcases does_minor hcalm hd with hm | hm
    · exact life_minor h hm
    · cases hm with
      | create work info => exact life_created h hcalm.table hb info
      | join id t =>
        refine life_congr h rfl rfl rfl (by simp) (fun p => ?_) rfl
        by_cases hp : p = s.current_thread <;> simp [hp, hcalm.works]
      | cleanup _ hoff =>
        rw [hoff.ready] at hr
        contradiction
      | terminate _ hst he => exact life_ends h hcalm he
  · intro s T loc x xs hinv hrl h
    exact life_congr h rfl rfl rfl (by simp) (by simp) rfl
  · intro s T loc c v hinv hw hp h
    exact life_note (life_pend h none)

end

/-! ## A join with a thread that has terminated -/

section
variable {b : Blocks} {n : Nat} {s : State} {T : Table} {loc : Ptr → Option (Place Wait)}
variable {k : Nat} {id : BitVec 64}

theorem run_join_last (h : Calm s T loc) (hlife : Life s)
    (hlast : (ended s.log).getLast? = some k) (hid : (k : Int) = id.toInt) :
    perform b n (.join id) s = .ok (.yield (some 0), s) := by
  obtain ⟨hlive, htid⟩ := hlife.last hlast
  have hdone := hlife.gone (List.mem_of_getLast? hlast) hlive htid
  refine run_join_done h.toInv ⟨hlive, by rw [htid]; exact hid, ?_⟩ hdone
  intro heq
  rw [heq, h.works] at hdone
  contradiction

/-- When another thread has terminated since, no thread has the id. -/
theorem run_join_forgotten (h : Calm s T loc) (hlife : Life s) (hk : k ∈ ended s.log)
    (hlast : (ended s.log).getLast? ≠ some k) (hid : (k : Int) = id.toInt) :
    perform b n (.join id) s = .ok (.ret (-3), s) := by
  refine run_join_absent h.toInv fun x hx hxid => hlast ?_
  rw [toNat_of_toInt hid] at hxid
  have hnext := h.next_of_done hx (hlife.gone hk hx hxid)
  rcases hget : (ended s.log).getLast? with _ | j
  · rw [List.getLast?_eq_none_iff] at hget
    rw [hget] at hk
    contradiction
  · have hj := (hlife.last hget).2
    rw [hnext, hxid] at hj
    rw [hj]

/-- After `thread_cleanup` no thread has the id, unless it is that of the first thread. -/
theorem run_join_off (h : Off s) (hb : Unused s b) (hj : Zeroed b) (hk : k ≠ 0)
    (hid : (k : Int) = id.toInt) :
    perform b n (.join id) s = .ok (.ret (-3), s.started b) := by
  have hoff := ensure_off h.ready hj
  have hon : ensure b (s.started b) = .ok ((), s.started b) := run_ensure rfl
  have hrun : perform b n (.join id) s = perform b n (.join id) (s.started b) := by
    simp only [perform, thread_join, run_bind, hoff, hon]
  obtain ⟨T, loc, hcalm⟩ := started_calm h hb hj
  rw [hrun]
  refine run_join_absent hcalm.toInv fun x hx => ?_
  rw [toNat_of_toInt hid]
  simpa [live_started h.live hx] using hk.symm

end

/-- In every run: a join with a thread that has terminated returns 0 as long as no other thread has
terminated since, and `thread_cleanup` has not been called. Otherwise it returns -3. -/
theorem join_terminated {s : State} (h : Reachable Tidy s) {k : Nat} (hk : .terminated k ∈ s.log)
    (h0 : k ≠ 0) {id : BitVec 64} (hid : (k : Int) = id.toInt) {b : Blocks} (hb : Unused s b)
    (hj : Zeroed b) (n : Nat) (cpu : Regs) :
    ∃ o s₁, perform b n (.join id) { s with cpu := cpu } = .ok (o, s₁) ∧
      (o = .yield (some 0) ∨ o = .ret (-3)) ∧
      (o = .yield (some 0) ↔ s.ready = true ∧ (ended s.log).getLast? = some k) := by
  have hmem := mem_ended.mpr hk
  rcases reach tidy_rules life_stable h with hoff | ⟨⟨T, loc, hcalm⟩, hlife⟩
  · refine ⟨_, _, run_join_off (off_cpu hoff) hb hj h0 hid, Or.inr rfl, ?_⟩
    simp [hoff.ready]
  · have hcalm' : Calm { s with cpu := cpu } T loc := calm_cpu hcalm
    have hlife' : Life { s with cpu := cpu } := (life_stable : Stable Tidy Life).cpu hlife
    by_cases hlast : (ended s.log).getLast? = some k
    · refine ⟨_, _, run_join_last hcalm' hlife' hlast hid, Or.inl rfl, ?_⟩
      simp [hcalm.ready, hlast]
    · refine ⟨_, _, run_join_forgotten hcalm' hlife' hmem hlast hid, Or.inr rfl, ?_⟩
      simp [hlast]

/-- A thread terminates, and another one can be joined with it. -/
def lastRun : List Call := [.create 0 0, .yield, .terminate]

theorem join_terminated_last :
    ∃ s s₁, play Tidy 9 noRegs (fresh lastRun) booted = .ok s ∧
      perform (blocks 3) 9 (.join 1) { s with cpu := noRegs } = .ok (.yield (some 0), s₁) := by
  obtain ⟨s, hs, hp⟩ := ok_and (x := play Tidy 9 noRegs (fresh lastRun) booted)
    (p := fun s => s.ready && decide (.terminated 1 ∈ s.log) &&
      decide ((ended s.log).getLast? = some 1) && decide (Unused s (blocks 3))) (by decide +kernel)
  simp only [Bool.and_eq_true, decide_eq_true_iff] at hp
  obtain ⟨⟨⟨hr, hmem⟩, hlast⟩, hb⟩ := hp
  obtain ⟨o, s₁, hrun, -, hiff⟩ := join_terminated (play_reachable (.boot booted_boot) hs) hmem
    (by decide) (by decide : ((1 : Nat) : Int) = (1 : BitVec 64).toInt) hb (by decide) 9 noRegs
  rw [hiff.mpr ⟨hr, hlast⟩] at hrun
  exact ⟨s, s₁, hs, hrun⟩

/-- Two threads terminate before the first of them is joined. -/
def forgottenRun : List Call :=
  [.create 0 0, .create 0 0, .yield, .terminate, .terminate, .join 1]

theorem join_forgotten :
    ∃ s, play Tidy 9 noRegs (fresh forgottenRun) booted = .ok s ∧ Reachable Tidy s ∧
      s.log = [.returned 0 (.create 0 0) 1, .returned 0 (.create 0 0) 2, .terminated 1,
        .terminated 2, .returned 0 .yield 0, .returned 0 (.join 1) (-3)] := by
  obtain ⟨s, hs, hp⟩ := ok_and (x := play Tidy 9 noRegs (fresh forgottenRun) booted)
    (p := fun s => decide (s.log = [.returned 0 (.create 0 0) 1, .returned 0 (.create 0 0) 2,
      .terminated 1, .terminated 2, .returned 0 .yield 0, .returned 0 (.join 1) (-3)]))
    (by decide +kernel)
  exact ⟨s, hs, play_reachable (.boot booted_boot) hs, decide_eq_true_iff.mp hp⟩

end Cs720.Threads
