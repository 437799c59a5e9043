import Cs720.Threads.Schedule

/-! # The call in which a waiting thread waits -/

namespace Cs720.Threads

open Cs720.Lib

/-- The mutex that the caller has when the call returns 1. -/
def Call.wants : Call → Option Ptr
  | .lock m => some m
  | .wait _ m => some m
  | _ => none

/-- A thread in a queue waits in a call that put it there. -/
structure Blocked (s : State) : Prop where
  mutex : ∀ {m p}, p ∈ (s.mutex m).waiters → ∃ c, s.pending p = some (c, 1) ∧ c.wants = some m
  cond : ∀ {d i}, i ∈ (s.cond d).getD [] → s.pending i.thread = some (.wait d i.mutex, 1)
  join : ∀ {t}, s.live t = true → (s.tcb t).observer ≠ 0 →
    ∃ id, s.pending (s.tcb t).observer = some (.join id, 0) ∧ ((s.tcb t).tid : Int) = id.toInt

section
variable {P : State → Blocks → Call → Prop} {b : Blocks} {s s₁ : State} {T : Table}
  {loc : Ptr → Option (Place Wait)} {m d p x : Ptr}

theorem blocked_note (h : Blocked s) (e : Event) : Blocked (s.note e) := ⟨h.mutex, h.cond, h.join⟩

/-- A thread that waits in no queue. -/
def Free (s : State) (p : Ptr) : Prop := ∀ w, p ∉ s.queue (.wait w)

theorem free_of_status (h : Inv s T loc) (hp : (s.tcb p).status ≠ .WAITING) : Free s p :=
  fun _ hmem => hp (queue_waiting h hmem).2

theorem free_current (h : Calm s T loc) : Free s s.current_thread :=
  free_of_status h.toInv (by simp [h.works])

theorem ne_of_mutex (hf : Free s p) (hx : x ∈ (s.mutex m).waiters) : x ≠ p := by
  rintro rfl
  exact hf (.mutex m) hx

theorem ne_of_cond (hf : Free s p) {i : CondInfo} (hi : i ∈ (s.cond d).getD []) : i.thread ≠ p := by
  rintro rfl
  exact hf (.cond d) (List.mem_map_of_mem hi)

theorem ne_of_join (hf : Free s p) {t : Ptr} (ht : s.live t = true) (ho : (s.tcb t).observer ≠ 0) :
    (s.tcb t).observer ≠ p := by
  rintro rfl
  exact hf (.join t) (observer_mem ht ho)

theorem blocked_pend (h : Blocked s) (hf : Free s p) (v : Option (Call × Int)) :
    Blocked (s.pend p v) := by
  refine ⟨?_, ?_, ?_⟩
  · intro m x hx
    rw [State.pend_pending, Function.update_of_ne (ne_of_mutex hf hx)]
    exact h.mutex hx
  · intro d i hi
    rw [State.pend_pending, Function.update_of_ne (ne_of_cond hf hi)]
    exact h.cond hi
  · intro t ht ho
    have hne := ne_of_join hf ht ho
    simp only [State.pend_live, State.pend_tcb, State.pend_pending] at ht ho ⊢
    rw [Function.update_of_ne hne]
    exact h.join ht ho

theorem waiters_putMutex {k : Ptr} {M : Mutex} (hx : x ∈ (Function.update s.mutex m M k).waiters) :
    k = m ∧ x ∈ M.waiters ∨ k ≠ m ∧ x ∈ (s.mutex k).waiters := by
  by_cases hk : k = m
  · subst hk
    rw [Function.update_self] at hx
    exact Or.inl ⟨rfl, hx⟩
  · rw [Function.update_of_ne hk] at hx
    exact Or.inr ⟨hk, hx⟩

theorem blocked_mutex (h : Blocked s) {M : Mutex}
    (hM : ∀ x ∈ M.waiters, ∃ c, s.pending x = some (c, 1) ∧ c.wants = some m) :
    Blocked (s.putMutex m M) := by
  refine ⟨?_, h.cond, h.join⟩
  intro k x hx
  rw [State.putMutex_mutex] at hx
  rcases waiters_putMutex hx with ⟨rfl, hxM⟩ | ⟨-, hxm⟩
  · exact hM x hxM
  · exact h.mutex hxm

theorem blocked_cond (h : Blocked s) {l : List CondInfo}
    (hl : ∀ i ∈ l, s.pending i.thread = some (.wait d i.mutex, 1)) : Blocked (s.putCond d l) := by
  refine ⟨h.mutex, ?_, h.join⟩
  intro e i hi
  by_cases he : e = d
  · subst he
    rw [State.putCond_cond, Function.update_self] at hi
    exact hl i hi
  · rw [State.putCond_cond, Function.update_of_ne he] at hi
    exact h.cond hi

theorem blocked_status (h : Blocked s) (p : Ptr) (y : Status) : Blocked (s.setStatus p y) :=
  ⟨h.mutex, h.cond, fun ht ho => by
    simp only [State.setStatus_tcb, withStatus_same] at ho ⊢
    exact h.join ht ho⟩

theorem blocked_enready (h : Blocked s) (p : Ptr) : Blocked (s.enready p) :=
  ⟨h.mutex, h.cond, h.join⟩

/-- A thread begins to wait for the mutex that it wants. -/
theorem blocked_enqueue (h : Blocked s) {c : Call} (hp : s.pending p = some (c, 1))
    (hc : c.wants = some m) : Blocked (s.enqueue m p) := by
  refine blocked_note (blocked_mutex h ?_) _
  intro x hx
  simp only [Mutex.waiters, Option.getD_some, List.mem_append, List.mem_singleton] at hx
  rcases hx with hx | rfl
  · exact h.mutex hx
  · exact ⟨c, hp, hc⟩

theorem blocked_await (h : Blocked s) (hp : s.pending p = some (.wait d m, 1)) :
    Blocked (s.await d m p) := by
  refine blocked_note (blocked_cond (blocked_status h p _) ?_) _
  intro i hi
  rw [List.mem_append, List.mem_singleton] at hi
  rcases hi with hi | rfl
  · exact h.cond hi
  · exact hp

theorem blocked_unlocks (h : Blocked s) (hu : Unlocks s m s₁) : Blocked s₁ := by
  cases hu with
  | release hq =>
    refine blocked_mutex h fun x hx => ?_
    simp [Mutex.waiters] at hx
  | hand x xs hq =>
    refine blocked_note (blocked_enready (blocked_status (blocked_mutex h fun y hy => ?_) x _) x) _
    exact h.mutex (by
      simp only [Mutex.waiters, Option.getD_some] at hy
      simp [Mutex.waiters, hq, hy])

theorem blocked_unwait (h : Blocked s) {i : CondInfo} {rest : List CondInfo}
    (hd : s.cond d = some (i :: rest)) : Blocked (s.unwait d i rest) := by
  refine blocked_note (blocked_cond h fun j hj => ?_) _
  exact h.cond (by rw [hd]; exact List.mem_cons_of_mem _ hj)

theorem blocked_observe {t : Ptr} (h : Blocked s) {id : BitVec 64}
    (hp : s.pending p = some (.join id, 0)) (hid : ((s.tcb t).tid : Int) = id.toInt) :
    Blocked (s.observe t p) := by
  refine ⟨h.mutex, h.cond, ?_⟩
  intro u hu ho
  simp only [State.observe_tcb, withObserver_observer, withObserver_same, withStatus_same] at ho ⊢
  by_cases hut : u = t
  · subst hut
    rw [if_pos rfl]
    exact ⟨id, hp, hid⟩
  · rw [if_neg hut] at ho ⊢
    exact h.join hu ho

theorem free_unlocks (hf : Free s p) (hu : Unlocks s m s₁) : Free s₁ p := by
  intro w hmem
  apply hf w
  cases hu with
  | release hq =>
    rcases w with k | k | k
    · rcases waiters_putMutex hmem with ⟨rfl, hx⟩ | ⟨-, hx⟩
      · simp [Mutex.waiters] at hx
      · exact hx
    · exact hmem
    · exact hmem
  | hand x xs hq =>
    rcases w with k | k | k
    · rcases waiters_putMutex hmem with ⟨rfl, hx⟩ | ⟨-, hx⟩
      · simp only [Mutex.waiters, Option.getD_some] at hx
        simp [State.queue, Mutex.waiters, hq, hx]
      · exact hx
    · exact hmem
    · simpa [State.queue] using hmem

theorem blocked_started (h : Off s) (hj : Zeroed b) : Blocked (s.started b) := by
  refine ⟨?_, ?_, ?_⟩
  · intro m x hx
    simp [Mutex.waiters, h.mutex] at hx
  · intro d i hi
    simp [h.cond] at hi
  · intro t ht ho
    simp [live_started h.live ht, hj.1.2] at ho

theorem blocked_created (h : Blocked s) (hinv : Inv s T loc) (hb : Spare s b) (hj : Zeroed b)
    (info : BitVec 64) : Blocked (s.created b info T) := by
  have hkeep {x : Ptr} (hx : s.live x = true) :
      (s.created b info T).pending x = s.pending x := by
    refine Function.update_of_ne ?_ _ _
    rintro rfl
    exact (thread_spare hb).2 hx
  refine ⟨?_, ?_, ?_⟩
  · intro m x hx
    rw [hkeep (mutex_waiting hinv hx).1]
    exact h.mutex hx
  · intro d i hi
    rw [hkeep (cond_waiting hinv hi).1]
    exact h.cond hi
  · intro t ht ho
    by_cases htb : t = b.thread.addr
    · simp [htb, hj.2.2] at ho
    · simp only [State.created_live, State.created_tcb, Function.update_of_ne htb] at ht ho ⊢
      rw [hkeep (observer_waiting hinv ht ho).1]
      exact h.join ht ho

/-- A thread ends: nobody waits for it any more. -/
theorem blocked_terminate (h : Blocked s) (hf : Free s s.current_thread) (hst : Steady s s₁)
    (he : Ends s s₁) : Blocked (s₁.pend s.current_thread none) := by
  have hpend : Blocked (s.pend s.current_thread none) := blocked_pend h hf none
  refine ⟨?_, ?_, ?_⟩
  · intro m x hx
    rw [State.pend_mutex, hst.mutex] at hx
    rw [State.pend_pending, hst.pending]
    exact hpend.mutex hx
  · intro d i hi
    rw [State.pend_cond, hst.cond] at hi
    rw [State.pend_pending, hst.pending]
    exact hpend.cond hi
  · intro t ht ho
    simp only [State.pend_live, State.pend_tcb, State.pend_pending, hst.pending, he.live,
      he.observer, he.tid] at ht ho ⊢
    split at ho
    · exact absurd rfl ho
    · rename_i htc
      rw [if_neg htc]
      exact hpend.join ht.1 ho

theorem blocked_stable (hP : Rules P) : Stable P Blocked := by
  refine ⟨⟨fun h => ⟨h.mutex, h.cond, h.join⟩, ?_, ?_, ?_⟩, fun h _ hj => blocked_started h hj⟩
  · intro s T loc b c o s₁ hcalm hb ha hp h hd hr
    have hf := free_current hcalm
    cases hd with
    | quiet c v => exact blocked_note h _
    | create work info => exact blocked_note (blocked_created h hcalm.toInv hb (hP.zeroed hp) info) _
    | yield => exact blocked_pend h hf _
    | joinDone id t => exact blocked_pend h hf _
    | join id t ht hid hdone ho htc =>
      exact blocked_observe (blocked_pend h hf (some (.join id, 0))) (by simp) hid
    | mutexInit m hm =>
      have hnew := blocked_mutex h (m := m) (M := ⟨-1, some [], false⟩) (by simp [Mutex.waiters])
      exact blocked_note (s := s.newMutex m) ⟨hnew.mutex, hnew.cond, hnew.join⟩ _
    | acquire m hm hl =>
      exact blocked_note (s := s.acquire m s.current_thread) (blocked_mutex h fun x hx => h.mutex hx) _
    | enqueue m hl ho hq =>
      have hpend := blocked_pend h hf (some (.lock m, 1))
      exact blocked_enqueue (blocked_status hpend s.current_thread .WAITING) (c := .lock m) (by simp)
        rfl
    | unlock m s₁ ho hu => exact blocked_note (blocked_unlocks h hu) _
    | condInit d hd =>
      have hnew := blocked_cond h (d := d) (l := []) (by simp)
      exact blocked_note (s := s.newCond d) ⟨hnew.mutex, hnew.cond, hnew.join⟩ _
    | wait d m s₁ ho hu hd =>
      obtain ⟨-, hcur, -, -, -⟩ := unlocks_same hu
      have hpend := blocked_pend (blocked_unlocks h hu) (free_unlocks hf hu) (some (.wait d m, 1))
      have hwait := blocked_await hpend (d := d) (m := m) (p := s.current_thread) (by simp)
      rw [← hcur] at hwait ⊢
      exact hwait
    | signalFree d i rest hd hl =>
      refine blocked_note
        (blocked_enready (blocked_status (blocked_mutex (blocked_unwait h hd) ?_) _ _) _)
        _
      exact fun x hx => h.mutex hx
    | signalHeld d i rest hd hl =>
      have hi : i ∈ (s.cond d).getD [] := by simp [hd]
      exact blocked_note (blocked_enqueue (blocked_unwait h hd) (h.cond hi) rfl) _
    | cleanup s₁ hoff =>
      rw [hoff.ready] at hr
      contradiction
    | terminate s₁ s₂ ht hdes =>
      obtain ⟨-, hst, he⟩ := terminate_spec hcalm.toInv hcalm.works hcalm.returned ht hdes
      simp only [State.after, hst.current, Option.map_none]
      exact blocked_terminate h hf hst he
  · intro s T loc x xs hinv hrl h
    exact ⟨h.mutex, h.cond, fun ht ho => by
      simp only [State.dispatch_tcb, withRegs_same] at ho ⊢
      exact h.join ht ho⟩
  · intro s T loc c v hinv hw hp h
    exact blocked_note (blocked_pend h (free_of_status hinv (by simp [hw])) none) _

end

end Cs720.Threads
