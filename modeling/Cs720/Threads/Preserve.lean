import Cs720.Threads.Perform

/-! # The calls keep the invariant

Each of them is an operation of the abstract scheduler.
-/

namespace Cs720.Threads

open Cs720.Lib

section
variable {b : Blocks} {s s₁ : State} {T : Table} {loc : Ptr → Option (Place Wait)}
variable {m d p x : Ptr}

/-! ## Changes that matter to one part -/

theorem lists_congr (h : Lists s) (hr : s₁.ready_list ≠ none) (hm : s₁.mutexes = s.mutexes)
    (hc : s₁.conds = s.conds) (hq : ∀ m, (s₁.mutex m).q = none ↔ (s.mutex m).q = none)
    (hd : ∀ d, s₁.cond d = none ↔ s.cond d = none)
    (hi : ∀ {d i}, i ∈ (s₁.cond d).getD [] → (s.mutex i.mutex).q ≠ none) : Lists s₁ := by
  refine ⟨hr, ?_, ?_, ?_⟩
  · rw [hm]
    simpa only [ne_eq, hq] using h.mutexes
  · rw [hc]
    simpa only [ne_eq, hd] using h.conds
  · intro d i hmem
    rw [ne_eq, hq]
    exact hi hmem

theorem finished_congr (h : Finished s) (hl : s₁.live = s.live)
    (hn : s₁.next_to_destroy = s.next_to_destroy) (hp : s₁.pending = s.pending)
    (hd : ∀ {p}, s.live p = true → ((s₁.tcb p).status = .DONE ↔ (s.tcb p).status = .DONE))
    (ho : ∀ {p}, (s.tcb p).status = .DONE → (s₁.tcb p).observer = (s.tcb p).observer) :
    Finished s₁ := by
  refine ⟨?_, ?_, ?_⟩
  · intro p hl' hdone
    rw [hl] at hl'
    rw [hd hl'] at hdone
    rw [hp]
    exact h.pending_done hl' hdone
  · intro p hp hdone
    rw [hl] at hp
    rw [hd hp] at hdone
    rw [ho hdone]
    exact h.observer_done hp hdone
  · intro p hp hdone
    rw [hl] at hp
    rw [hd hp] at hdone
    rw [hn]
    exact h.next_of_done hp hdone

/-! ## What the writes are to the scheduler -/

theorem view_congr (hc : s₁.current_thread = s.current_thread) (hl : s₁.live = s.live)
    (hp : ∀ p, (s₁.tcb p).status = (s.tcb p).status ∧ (s₁.tcb p).observer = (s.tcb p).observer)
    (hr : s₁.ready_list = s.ready_list) (hm : ∀ m, (s₁.mutex m).waiters = (s.mutex m).waiters)
    (hd : ∀ d, (s₁.cond d).getD [] = (s.cond d).getD []) : s₁.view = s.view := by
  refine Scheduler.ext hc ?_ ?_ ?_
  · simp [hl]
  · funext p
    simp [hp]
  · funext w
    rcases w with _ | k | k | k <;> simp [State.queue, hr, hm, hd, hl, hp]

theorem view_enqueue (s : State) (m : Ptr) :
    ((s.setStatus s.current_thread .WAITING).enqueue m s.current_thread).view =
      s.view.block (.mutex m) := by
  refine Scheduler.ext rfl rfl ?_ ?_
  · funext p
    by_cases hp : p = s.current_thread <;> simp [Scheduler.block, hp, Status.mode]
  · funext w
    rcases w with _ | k | k | k
    · simp [State.queue, Scheduler.block]
    · by_cases hk : k = m <;> simp [State.queue, Scheduler.block, Mutex.waiters, hk]
    · simp [State.queue, Scheduler.block]
    · simp [State.queue, Scheduler.block]

theorem view_hand (s : State) (m x : Ptr) (xs : List Ptr) :
    (s.hand m x xs).view = s.view.wake (.mutex m) x xs := by
  refine Scheduler.ext rfl rfl ?_ ?_
  · funext p
    by_cases hp : p = x <;> simp [Scheduler.wake, hp, Status.mode]
  · funext w
    rcases w with _ | k | k | k
    · simp [State.queue, Scheduler.wake]
    · by_cases hk : k = m <;> simp [State.queue, Scheduler.wake, Mutex.waiters, hk]
    · simp [State.queue, Scheduler.wake]
    · simp [State.queue, Scheduler.wake]

theorem view_await (s : State) (d m : Ptr) :
    (s.await d m s.current_thread).view = s.view.block (.cond d) := by
  refine Scheduler.ext rfl rfl ?_ ?_
  · funext p
    by_cases hp : p = s.current_thread <;> simp [Scheduler.block, hp, Status.mode]
  · funext w
    rcases w with _ | k | k | k
    · simp [State.queue, Scheduler.block]
    · simp [State.queue, Scheduler.block]
    · by_cases hk : k = d <;> simp [State.queue, Scheduler.block, hk]
    · simp [State.queue, Scheduler.block]

theorem view_signalFree (s : State) (d : Ptr) (i : CondInfo) (rest : List CondInfo) :
    ((((s.unwait d i rest).acquire i.mutex i.thread).setStatus i.thread .WORKING).enready
      i.thread).view = s.view.wake (.cond d) i.thread (rest.map CondInfo.thread) := by
  refine Scheduler.ext rfl rfl ?_ ?_
  · funext p
    by_cases hp : p = i.thread <;> simp [Scheduler.wake, hp, Status.mode]
  · funext w
    rcases w with _ | k | k | k
    · simp [State.queue, Scheduler.wake]
    · by_cases hk : k = i.mutex <;> simp [State.queue, Scheduler.wake, Mutex.waiters, hk]
    · by_cases hk : k = d <;> simp [State.queue, Scheduler.wake, hk]
    · simp [State.queue, Scheduler.wake]

theorem view_signalHeld (s : State) (d : Ptr) (i : CondInfo) (rest : List CondInfo) :
    ((s.unwait d i rest).enqueue i.mutex i.thread).view =
      s.view.move (.cond d) i.thread (rest.map CondInfo.thread) (.mutex i.mutex) := by
  refine Scheduler.ext rfl rfl rfl ?_
  funext w
  rcases w with _ | k | k | k
  · simp [State.queue, Scheduler.move]
  · by_cases hk : k = i.mutex <;> simp [State.queue, Scheduler.move, Mutex.waiters, hk]
  · by_cases hk : k = d <;> simp [State.queue, Scheduler.move, hk]
  · simp [State.queue, Scheduler.move]

theorem view_observe {t : Ptr} (ht : s.live t = true) (ho : (s.tcb t).observer = 0)
    (hc : s.current_thread ≠ 0) :
    (s.observe t s.current_thread).view = s.view.block (.join t) := by
  refine Scheduler.ext rfl rfl ?_ ?_
  · funext p
    by_cases hp : p = s.current_thread <;> simp [Scheduler.block, hp, Status.mode]
  · funext w
    rcases w with _ | k | k | k
    · simp [State.queue, Scheduler.block]
    · simp [State.queue, Scheduler.block]
    · simp [State.queue, Scheduler.block]
    · by_cases hk : k = t <;> simp [State.queue, Scheduler.block, hk, ht, ho, hc]

theorem view_retired (s : State) : (s.retired s.current_thread).view = s.view.retire := by
  refine Scheduler.ext rfl rfl ?_ ?_
  · funext p
    by_cases hp : p = s.current_thread <;> simp [Scheduler.retire, hp, Status.mode]
  · funext w
    rcases w with _ | k | k | k <;> simp [State.queue, Scheduler.retire]

theorem view_tell (s : State) (p : Ptr) :
    (s.tell p).view = s.view.wake (.join p) (s.tcb p).observer [] := by
  refine Scheduler.ext rfl rfl ?_ ?_
  · funext q
    by_cases hq : q = (s.tcb p).observer <;> simp [Scheduler.wake, hq, Status.mode]
  · funext w
    rcases w with _ | k | k | k
    · simp [State.queue, Scheduler.wake]
    · simp [State.queue, Scheduler.wake]
    · simp [State.queue, Scheduler.wake]
    · by_cases hk : k = p <;> simp [State.queue, Scheduler.wake, hk]

theorem view_drop (ho : (s.tcb p).observer = 0) (head : List Handle) :
    (s.drop T head p).view = s.view.remove p := by
  refine Scheduler.ext rfl ?_ ?_ ?_
  · funext q
    by_cases hq : q = p <;> simp [Scheduler.remove, hq]
  · funext q
    simp [Scheduler.remove]
  · funext w
    rcases w with _ | k | k | k
    · simp [State.queue, Scheduler.remove]
    · simp [State.queue, Scheduler.remove]
    · simp [State.queue, Scheduler.remove]
    · by_cases hk : k = p <;> simp [State.queue, Scheduler.remove, hk, ho]

theorem view_created (hj : b.thread.Zeroed) (hf : s.live b.thread.addr ≠ true) (info : BitVec 64) :
    (s.created b info T).view = s.view.spawn b.thread.addr := by
  refine Scheduler.ext rfl ?_ ?_ ?_
  · funext q
    by_cases hq : q = b.thread.addr <;> simp [Scheduler.spawn, hq]
  · funext q
    by_cases hq : q = b.thread.addr <;> simp [Scheduler.spawn, hq, Status.mode]
  · funext w
    rcases w with _ | k | k | k
    · simp [State.queue, Scheduler.spawn]
    · simp [State.queue, Scheduler.spawn]
    · simp [State.queue, Scheduler.spawn]
    · by_cases hk : k = b.thread.addr <;> simp [State.queue, Scheduler.spawn, hk, hj.2, hf]

/-- The threads that are left on the ready list when the next one has been popped. -/
def State.behind (s : State) (xs : List Ptr) : List Ptr :=
  if (s.tcb s.current_thread).status = .WORKING then xs ++ [s.current_thread] else xs

theorem view_dispatch (s : State) (x : Ptr) (xs : List Ptr) :
    (s.dispatch x (s.behind xs)).view = s.view.switch x xs := by
  refine Scheduler.ext rfl rfl ?_ ?_
  · funext q
    simp [Scheduler.switch]
  · funext w
    rcases w with _ | k | k | k
    · simp [State.queue, Scheduler.switch, State.behind, mode_working]
    · simp [State.queue, Scheduler.switch]
    · simp [State.queue, Scheduler.switch]
    · simp [State.queue, Scheduler.switch]

/-! ## The invariant, write by write -/

theorem inv_congr (h : Inv s T loc) (hr : s₁.ready = s.ready) (ht : s₁.all_threads = s.all_threads)
    (hrl : s₁.ready_list = s.ready_list) (hms : s₁.mutexes = s.mutexes) (hcs : s₁.conds = s.conds)
    (hn : s₁.next_to_destroy = s.next_to_destroy) (hc : s₁.current_thread = s.current_thread)
    (hl : s₁.live = s.live) (htcb : s₁.tcb = s.tcb) (hst : s₁.liveStack = s.liveStack)
    (hq : ∀ m, (s₁.mutex m).q = (s.mutex m).q) (hd : s₁.cond = s.cond)
    (hp : s₁.pending = s.pending) : Inv s₁ T loc := by
  refine ⟨?_, ?_, hr.trans h.ready, ?_, ?_⟩
  · exact lists_congr h.toLists (hrl ▸ h.ready_list) hms hcs (by simp [hq]) (by simp [hd])
      (fun hi => h.infos (hd ▸ hi))
  · exact finished_congr h.toFinished hl hn hp (by simp [htcb]) (by simp [htcb])
  · exact table_congr h.table ht hl hst (by simp [htcb])
  · rw [view_congr hc hl (by simp [htcb]) hrl (by simp [Mutex.waiters, hq]) (by simp [hd])]
    exact h.sched

theorem current_not_done (hw : (s.tcb s.current_thread).status = .WORKING) :
    s.view.mode s.view.current ≠ .waiting := by
  simp [hw, Status.mode]

theorem current_ne_zero (h : Inv s T loc) : s.current_thread ≠ 0 :=
  h.table.ne_zero (current_live h)

theorem queue_mutex {xs : List Ptr} (hq : (s.mutex m).q = some (x :: xs)) :
    s.view.queue (.wait (.mutex m)) = x :: xs := by
  simp [State.queue, Mutex.waiters, hq]

theorem queue_cond {i : CondInfo} {rest : List CondInfo} (hd : s.cond d = some (i :: rest)) :
    s.view.queue (.wait (.cond d)) = i.thread :: rest.map CondInfo.thread := by
  simp [State.queue, hd]

theorem inv_enqueue (h : Inv s T loc) (hw : (s.tcb s.current_thread).status = .WORKING)
    (hq : (s.mutex m).q ≠ none) :
    ∃ l, Inv ((s.setStatus s.current_thread .WAITING).enqueue m s.current_thread) T l := by
  have hok := Scheduler.block_ok h.sched (current_not_done hw) (.mutex m)
  rw [← view_enqueue] at hok
  refine ⟨_, ?_, ?_, h.ready, table_congr h.table rfl rfl rfl (by simp), hok⟩
  · refine lists_congr h.toLists h.ready_list rfl rfl ?_ (by simp) (fun hi => h.infos hi)
    intro k
    by_cases hk : k = m <;> simp [hk, hq]
  · refine finished_congr h.toFinished rfl rfl rfl ?_ (by simp)
    intro p _
    by_cases hp : p = s.current_thread <;> simp [hp, hw]

theorem inv_await (h : Inv s T loc) (hw : (s.tcb s.current_thread).status = .WORKING)
    (hd : s.cond d ≠ none) (hq : (s.mutex m).q ≠ none) :
    ∃ l, Inv (s.await d m s.current_thread) T l := by
  have hok := Scheduler.block_ok h.sched (current_not_done hw) (.cond d)
  rw [← view_await s d m] at hok
  refine ⟨_, ?_, ?_, h.ready, table_congr h.table rfl rfl rfl (by simp), hok⟩
  · refine lists_congr h.toLists h.ready_list rfl rfl (by simp) ?_ ?_
    · intro k
      by_cases hk : k = d <;> simp [hk, hd]
    · intro k i hi
      by_cases hk : k = d
      · subst hk
        simp only [State.await_cond, Function.update_self, Option.getD_some, List.mem_append,
          List.mem_singleton] at hi
        rcases hi with hi | rfl
        · exact h.infos hi
        · exact hq
      · rw [State.await_cond, Function.update_of_ne hk] at hi
        exact h.infos hi
  · refine finished_congr h.toFinished rfl rfl rfl ?_ (by simp)
    intro p _
    by_cases hp : p = s.current_thread <;> simp [hp, hw]

/-- A waiting thread is not the current one. -/
theorem ne_current (hw : (s.tcb s.current_thread).status = .WORKING)
    (hx : (s.tcb x).status = .WAITING) : x ≠ s.current_thread := by
  rintro rfl
  rw [hw] at hx
  contradiction

theorem woken_done (hx : (s.tcb x).status = .WAITING) (y : Ptr) :
    ((s.setStatus x .WORKING).tcb y).status = .DONE ↔ (s.tcb y).status = .DONE := by
  by_cases hy : y = x <;> simp [hy, hx]

theorem inv_unlocks (h : Inv s T loc) (hw : (s.tcb s.current_thread).status = .WORKING)
    (hu : Unlocks s m s₁) :
    (∃ l, Inv s₁ T l) ∧ (s₁.tcb s.current_thread).status = .WORKING ∧
      (s₁.mutex m).q ≠ none := by
  cases hu with
  | release hq =>
    refine ⟨⟨loc, inv_congr h rfl rfl rfl rfl rfl rfl rfl rfl rfl rfl ?_ rfl rfl⟩, hw, by simp⟩
    intro k
    by_cases hk : k = m <;> simp [hk, hq]
  | hand x xs hq =>
    have hmem : x ∈ (s.mutex m).waiters := by simp [Mutex.waiters, hq]
    have hx := (mutex_waiting h hmem).2
    have hok := Scheduler.wake_ok h.sched (queue_mutex hq) (ne_current hw hx)
    rw [← view_hand] at hok
    refine ⟨⟨_, ?_, ?_, h.ready, table_congr h.table rfl rfl rfl (by simp), hok⟩, ?_, by simp⟩
    · refine lists_congr h.toLists (by simp) rfl rfl ?_ (by simp) (fun hi => h.infos hi)
      intro k
      by_cases hk : k = m <;> simp [hk, hq]
    · exact finished_congr h.toFinished rfl rfl rfl (fun _ => woken_done hx _) (by simp)
    · simp [(ne_current hw hx).symm, hw]

theorem inv_newMutex (h : Inv s T loc) (hq : (s.mutex m).q = none) : Inv (s.newMutex m) T loc := by
  obtain ⟨ms, hms, hnodup, hmem⟩ := h.mutexes
  have hout : m ∉ ms := fun hm => (hmem m).mp hm hq
  refine ⟨⟨h.ready_list, ⟨ms ++ [m], by simp [hms], ?_, ?_⟩, h.conds, ?_⟩,
    finished_congr h.toFinished rfl rfl rfl (by simp) (by simp), h.ready,
    table_congr h.table rfl rfl rfl (by simp), ?_⟩
  · exact List.nodup_append.mpr ⟨hnodup, List.nodup_singleton m, by
      rintro a ha b hb rfl
      exact hout (List.mem_singleton.mp hb ▸ ha)⟩
  · intro k
    rw [List.mem_append, hmem, List.mem_singleton]
    by_cases hk : k = m <;> simp [hk]
  · intro e i hi
    by_cases hk : i.mutex = m
    · simp [hk]
    · simpa [Function.update_of_ne hk] using h.infos hi
  · have hview : (s.newMutex m).view = s.view := by
      refine view_congr rfl rfl (by simp) rfl (fun k => ?_) (by simp)
      by_cases hk : k = m <;> simp [Mutex.waiters, hk, hq]
    rw [hview]
    exact h.sched

theorem inv_newCond (h : Inv s T loc) (hd : s.cond d = none) : Inv (s.newCond d) T loc := by
  obtain ⟨cs, hcs, hnodup, hmem⟩ := h.conds
  have hout : d ∉ cs := fun hm => (hmem d).mp hm hd
  refine ⟨⟨h.ready_list, h.mutexes, ⟨cs ++ [d], by simp [hcs], ?_, ?_⟩, ?_⟩,
    finished_congr h.toFinished rfl rfl rfl (by simp) (by simp), h.ready,
    table_congr h.table rfl rfl rfl (by simp), ?_⟩
  · exact List.nodup_append.mpr ⟨hnodup, List.nodup_singleton d, by
      rintro a ha b hb rfl
      exact hout (List.mem_singleton.mp hb ▸ ha)⟩
  · intro k
    rw [List.mem_append, hmem, List.mem_singleton]
    by_cases hk : k = d <;> simp [hk]
  · intro e i hi
    by_cases hk : e = d
    · simp [hk] at hi
    · exact h.infos (d := e) (by simpa [Function.update_of_ne hk] using hi)
  · have hview : (s.newCond d).view = s.view := by
      refine view_congr rfl rfl (by simp) rfl (by simp) (fun k => ?_)
      by_cases hk : k = d <;> simp [hk, hd]
    rw [hview]
    exact h.sched

theorem unwait_infos (h : Inv s T loc) {i : CondInfo} {rest : List CondInfo}
    (hd : s.cond d = some (i :: rest)) {e : Ptr} {j : CondInfo}
    (hj : j ∈ (Function.update s.cond d (some rest) e).getD []) : (s.mutex j.mutex).q ≠ none := by
  by_cases he : e = d
  · subst he
    rw [Function.update_self, Option.getD_some] at hj
    exact h.infos (d := e) (by rw [hd, Option.getD_some]; exact List.mem_cons_of_mem _ hj)
  · rw [Function.update_of_ne he] at hj
    exact h.infos hj

theorem unwait_cond {i : CondInfo} {rest : List CondInfo} (hd : s.cond d = some (i :: rest))
    (e : Ptr) : Function.update s.cond d (some rest) e = none ↔ s.cond e = none := by
  by_cases he : e = d <;> simp [he, hd]

theorem inv_signalFree (h : Inv s T loc) (hw : (s.tcb s.current_thread).status = .WORKING)
    {i : CondInfo} {rest : List CondInfo} (hd : s.cond d = some (i :: rest)) :
    ∃ l, Inv ((((s.unwait d i rest).acquire i.mutex i.thread).setStatus i.thread .WORKING).enready
      i.thread) T l := by
  have hi : i ∈ (s.cond d).getD [] := by simp [hd]
  have hx := (cond_waiting h hi).2
  have hok := Scheduler.wake_ok h.sched (queue_cond hd) (ne_current hw hx)
  rw [← view_signalFree] at hok
  refine ⟨_, ?_, ?_, by simpa using h.ready, ?_, hok⟩
  · apply lists_congr h.toLists
    · simp
    · simp
    · simp
    · intro k
      by_cases hk : k = i.mutex <;> simp [hk]
    · intro e
      simpa using unwait_cond hd e
    · intro e j hj
      simp only [State.enready_cond, State.setStatus_cond, State.acquire_cond, State.unwait_cond] at hj
      exact unwait_infos h hd hj
  · apply finished_congr h.toFinished
    · simp
    · simp
    · simp
    · intro p _
      simpa using woken_done hx p
    · simp
  · apply table_congr h.table <;> simp

theorem inv_signalHeld (h : Inv s T loc) {i : CondInfo} {rest : List CondInfo}
    (hd : s.cond d = some (i :: rest)) :
    ∃ l, Inv ((s.unwait d i rest).enqueue i.mutex i.thread) T l := by
  have hq : (s.mutex i.mutex).q ≠ none := h.infos (d := d) (by simp [hd])
  have hok := Scheduler.move_ok h.sched (queue_cond hd) (u := .mutex i.mutex) (by simp)
  rw [← view_signalHeld] at hok
  refine ⟨_, ?_, ?_, by simpa using h.ready, ?_, hok⟩
  · apply lists_congr h.toLists
    · simpa using h.ready_list
    · simp
    · simp
    · intro k
      by_cases hk : k = i.mutex <;> simp [hk, hq]
    · intro e
      simpa using unwait_cond hd e
    · intro e j hj
      simp only [State.enqueue_cond, State.unwait_cond] at hj
      exact unwait_infos h hd hj
  · apply finished_congr h.toFinished <;> simp
  · apply table_congr h.table <;> simp

theorem inv_observe (h : Inv s T loc) (hw : (s.tcb s.current_thread).status = .WORKING) {t : Ptr}
    (ht : s.live t = true) (hdone : (s.tcb t).status ≠ .DONE) (ho : (s.tcb t).observer = 0) :
    ∃ l, Inv (s.observe t s.current_thread) T l := by
  have hok := Scheduler.block_ok h.sched (current_not_done hw) (.join t)
  rw [← view_observe ht ho (current_ne_zero h)] at hok
  refine ⟨_, lists_congr h.toLists h.ready_list rfl rfl (by simp) (by simp) (fun hi => h.infos hi),
    ?_, h.ready, observe_table h t _, hok⟩
  · refine finished_congr h.toFinished rfl rfl rfl ?_ ?_
    · intro p _
      by_cases hp : p = s.current_thread <;> simp [hp, hw]
    · intro p hp
      have hpt : p ≠ t := by
        rintro rfl
        exact hdone hp
      simp [hpt]

theorem inv_created (h : Inv s T loc) (hb : Spare s b) (hj : b.thread.Zeroed)
    (info : BitVec 64) : ∃ U l, Inv (s.created b info T) U l := by
  have hlive := (thread_spare hb).2
  have hok := Scheduler.spawn_ok h.sched hlive
  rw [← view_created (T := T) hj hlive info] at hok
  refine ⟨_, _, lists_congr h.toLists (by simp) rfl rfl (by simp) (by simp) (fun hi => h.infos hi),
    ?_, h.ready, table_created h.table hb, hok⟩
  have hold : ∀ {p}, (s.created b info T).live p = true →
      ((s.created b info T).tcb p).status = .DONE →
      p ≠ b.thread.addr ∧ s.live p = true ∧ (s.tcb p).status = .DONE := by
    intro p hp hdone
    by_cases hpb : p = b.thread.addr
    · simp [hpb] at hdone
    · simp only [State.created_live, State.created_tcb, Function.update_of_ne hpb] at hp hdone
      exact ⟨hpb, hp, hdone⟩
  refine ⟨?_, ?_, ?_⟩
  · intro p hp hdone
    obtain ⟨hpb, hp, hdone⟩ := hold hp hdone
    rw [State.created_pending, Function.update_of_ne hpb]
    exact h.pending_done hp hdone
  · intro p hp hdone
    obtain ⟨hpb, hp, hdone⟩ := hold hp hdone
    rw [State.created_tcb, Function.update_of_ne hpb]
    exact h.observer_done hp hdone
  · intro p hp hdone
    obtain ⟨-, hp, hdone⟩ := hold hp hdone
    exact h.next_of_done hp hdone

/-! ## A thread ends -/

/-- What `thread_terminate` does to the fields that it does not leave alone. -/
structure Ends (s s₁ : State) : Prop where
  log : s₁.log = s.log ++ [.terminated (s.tcb s.current_thread).tid]
  next : s₁.next_to_destroy = s.current_thread
  next_done : s.live s.next_to_destroy = true → (s.tcb s.next_to_destroy).status = .DONE
  live : ∀ p, s₁.live p = true ↔ s.live p = true ∧ p ≠ s.next_to_destroy
  tid : ∀ p, (s₁.tcb p).tid = (s.tcb p).tid
  observer : ∀ p, (s₁.tcb p).observer =
    if p = s.current_thread then 0 else (s.tcb p).observer
  status : ∀ p, (s₁.tcb p).status =
    if p = s.current_thread then .DONE
    else if p = (s.tcb s.current_thread).observer ∧ p ≠ 0 then .WORKING
    else (s.tcb p).status
  max_id : s₁.all_threads.map Table.max_id = s.all_threads.map Table.max_id

structure Steady (s s₁ : State) : Prop where
  ready : s₁.ready = s.ready
  mutexes : s₁.mutexes = s.mutexes
  conds : s₁.conds = s.conds
  current : s₁.current_thread = s.current_thread
  mutex : s₁.mutex = s.mutex
  cond : s₁.cond = s.cond
  pending : s₁.pending = s.pending

theorem told_view (h : Inv s T loc) (hw : (s.tcb s.current_thread).status = .WORKING)
    (ht : Told s s₁) : (∃ l, s₁.view.Ok l) ∧ TableOk s₁ T ∧ s₁.ready_list ≠ none := by
  have hret := Scheduler.retire_ok h.sched (current_not_done hw)
  rw [← view_retired] at hret
  rcases ht with ⟨rfl, -⟩ | ⟨rfl, ho⟩
  · exact ⟨⟨_, hret⟩, retired_table h _, h.ready_list⟩
  · have hobs := observer_waiting h (current_live h) ho
    have hne := ne_current hw hobs.2
    have hq : (s.retired s.current_thread).view.queue (.wait (.join s.current_thread)) =
        [(s.tcb s.current_thread).observer] := by
      simp [State.queue, current_live h, ho]
    have htell := Scheduler.wake_ok hret hq (by simpa using hne)
    have hview := view_tell (s.retired s.current_thread) s.current_thread
    simp only [State.retired_tcb, withStatus_same] at hview
    rw [← hview] at htell
    exact ⟨⟨_, htell⟩, tell_table (retired_table h _) _, by simp⟩

theorem told_steady (ht : Told s s₁) : Steady s s₁ := by
  rcases ht with ⟨rfl, -⟩ | ⟨rfl, -⟩ <;>
    refine ⟨?_, ?_, ?_, ?_, ?_, ?_, ?_⟩ <;> simp

theorem told_ends (h : Inv s T loc) (hw : (s.tcb s.current_thread).status = .WORKING)
    (ht : Told s s₁) :
    s₁.log = s.log ++ [.terminated (s.tcb s.current_thread).tid] ∧
    s₁.all_threads = s.all_threads ∧
    ∀ p, (s₁.tcb p).tid = (s.tcb p).tid ∧
      (s₁.tcb p).observer = (if p = s.current_thread then 0 else (s.tcb p).observer) ∧
      (s₁.tcb p).status = (if p = s.current_thread then .DONE
        else if p = (s.tcb s.current_thread).observer ∧ p ≠ 0 then .WORKING
        else (s.tcb p).status) := by
  rcases ht with ⟨rfl, ho⟩ | ⟨rfl, ho⟩
  · refine ⟨rfl, rfl, fun p => ⟨by simp, ?_, ?_⟩⟩
    · by_cases hp : p = s.current_thread
      · simp [hp, ho]
      · simp [hp]
    · have hno : ¬ (p = 0 ∧ p ≠ 0) := fun hp => hp.2 hp.1
      simp [ho, hno]
  · have hobs := observer_waiting h (current_live h) ho
    have hne := ne_current hw hobs.2
    refine ⟨rfl, rfl, fun p => ⟨by simp, by simp, ?_⟩⟩
    by_cases hp : p = s.current_thread
    · simp [hp, hne.symm]
    · by_cases hpo : p = (s.tcb s.current_thread).observer
      · simp [hpo, hne, ho]
      · simp [hp, hpo]

/-- After the thread that ended before is destroyed, if there was one. -/
structure Dropped (s s₁ s₂ : State) (l : Ptr → Option (Place Wait)) : Prop where
  table : ∃ U, TableOk s₂ U
  ok : s₂.view.Ok l
  steady : Steady s s₂
  log : s₂.log = s₁.log
  ready_list : s₂.ready_list = s₁.ready_list
  max_id : s₂.all_threads.map Table.max_id = s.all_threads.map Table.max_id
  live : ∀ p, s₂.live p = true ↔ s.live p = true ∧ p ≠ s.next_to_destroy
  tcb : ∀ p, (s₂.tcb p).tid = (s₁.tcb p).tid ∧ (s₂.tcb p).observer = (s₁.tcb p).observer ∧
    (s₂.tcb p).status = (s₁.tcb p).status

theorem destroys_dropped (h : Inv s T loc) (hw : (s.tcb s.current_thread).status = .WORKING)
    {s₂ : State} (ht : Told s s₁) (hd : Destroys s T s₁ s₂) {l : Ptr → Option (Place Wait)}
    (hok : s₁.view.Ok l) : Dropped s s₁ s₂ l := by
  obtain ⟨-, htab, -⟩ := told_view h hw ht
  have hst := told_steady ht
  have hlive := told_live ht
  obtain ⟨-, hall, htcb⟩ := told_ends h hw ht
  rcases hd with ⟨rfl, h0⟩ | ⟨⟨head, rfl, hT⟩, hnlive, hdone⟩
  · refine ⟨⟨T, htab⟩, hok, hst, rfl, rfl, by rw [hall], fun p => ?_, fun p => ⟨rfl, rfl, rfl⟩⟩
    rw [hlive, h0]
    exact ⟨fun hp => ⟨hp, h.table.ne_zero hp⟩, fun hp => hp.1⟩
  · have hnc : s.next_to_destroy ≠ s.current_thread := by
      intro heq
      rw [heq, hw] at hdone
      contradiction
    have hno : s.next_to_destroy ≠ (s.tcb s.current_thread).observer := by
      intro heq
      have h0 := h.table.ne_zero hnlive
      have hwait := observer_waiting h (current_live h) (heq ▸ h0)
      rw [← heq, hdone] at hwait
      exact absurd hwait.2 (by simp)
    have hstat : (s₁.tcb s.next_to_destroy).status = .DONE := by
      rw [(htcb _).2.2, if_neg hnc, if_neg fun hp => hno hp.1]
      exact hdone
    have hobs : (s₁.tcb s.next_to_destroy).observer = 0 := by
      rw [(htcb _).2.1, if_neg hnc]
      exact h.observer_done hnlive hdone
    have hrem := Scheduler.remove_ok hok (x := s.next_to_destroy) (by simp [hstat, Status.mode])
      (by simpa [hst.current] using hnc)
    rw [← view_drop (T := T) hobs head] at hrem
    refine ⟨⟨_, hT⟩, hrem, ⟨hst.ready, hst.mutexes, hst.conds, hst.current, hst.mutex, hst.cond,
      hst.pending⟩, rfl, rfl, by simp [h.table.table], fun p => ?_, fun p => by simp⟩
    rw [State.drop_live, hlive]
    by_cases hp : p = s.next_to_destroy <;> simp [hp]

/-- Of the threads that are done only the current one is left. -/
theorem ends_only (h : Inv s T loc) (he : Ends s s₁) {p : Ptr} (hp : s₁.live p = true)
    (hdone : (s₁.tcb p).status = .DONE) : p = s.current_thread := by
  rw [he.live] at hp
  rw [he.status] at hdone
  split at hdone
  · assumption
  · split at hdone
    · contradiction
    · exact absurd (h.next_of_done hp.1 hdone).symm hp.2

theorem destroys_done (h : Inv s T loc) {s₂ : State} (hd : Destroys s T s₁ s₂)
    (hlive : s.live s.next_to_destroy = true) : (s.tcb s.next_to_destroy).status = .DONE := by
  rcases hd with ⟨-, h0⟩ | ⟨-, -, hdone⟩
  · exact absurd h0 (h.table.ne_zero hlive)
  · exact hdone

theorem terminate_spec (h : Inv s T loc) (hw : (s.tcb s.current_thread).status = .WORKING)
    (hpend : s.pending s.current_thread = none) {s₂ : State} (ht : Told s s₁)
    (hd : Destroys s T s₁ s₂) :
    (∃ U l, Inv (s₂.setNext s.current_thread) U l) ∧ Steady s (s₂.setNext s.current_thread) ∧
      Ends s (s₂.setNext s.current_thread) := by
  obtain ⟨⟨l, hok⟩, -, hrl⟩ := told_view h hw ht
  obtain ⟨hlog, -, htcb⟩ := told_ends h hw ht
  have hdrop := destroys_dropped h hw ht hd hok
  obtain ⟨U, hU⟩ := hdrop.table
  have hst := hdrop.steady
  have hends : Ends s (s₂.setNext s.current_thread) :=
    ⟨hdrop.log.trans hlog, rfl, destroys_done h hd, hdrop.live, fun p => (hdrop.tcb p).1.trans (htcb p).1,
      fun p => (hdrop.tcb p).2.1.trans (htcb p).2.1,
      fun p => (hdrop.tcb p).2.2.trans (htcb p).2.2, hdrop.max_id⟩
  refine ⟨⟨U, l, ?_, ?_, hst.ready.trans h.ready, ?_, hdrop.ok⟩, ?_, hends⟩
  · refine lists_congr h.toLists ?_ hst.mutexes hst.conds ?_ ?_ ?_
    · rw [State.setNext_ready_list, hdrop.ready_list]
      exact hrl
    · intro m
      rw [State.setNext_mutex, hst.mutex]
    · intro d
      rw [State.setNext_cond, hst.cond]
    · intro d i hi
      rw [State.setNext_cond, hst.cond] at hi
      exact h.infos hi
  · refine ⟨?_, ?_, ?_⟩
    · intro p hp hdone
      rw [ends_only h hends hp hdone, State.setNext_pending, hst.pending]
      exact hpend
    · intro p hp hdone
      rw [hends.observer, if_pos (ends_only h hends hp hdone)]
    · intro p hp hdone
      exact (ends_only h hends hp hdone).symm
  · exact table_congr hU rfl rfl rfl (by simp)
  · exact ⟨hst.ready, hst.mutexes, hst.conds, hst.current, hst.mutex, hst.cond, hst.pending⟩

end

end Cs720.Threads
