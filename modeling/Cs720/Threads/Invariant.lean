import Cs720.Lib.Scheduler
import Cs720.Threads.Table

/-! # The scheduler that the code implements, and what holds between two calls -/

namespace Cs720.Threads

open Cs720.Lib

/-! ## The abstract scheduler -/

/-- What a thread can wait for. -/
inductive Wait where
  | mutex (m : Ptr)
  | cond (d : Ptr)
  | join (target : Ptr)
  deriving DecidableEq

def Status.mode : Status → Mode
  | .WORKING => .working
  | .WAITING => .waiting
  | .DONE => .done

/-- The threads that wait at a place. -/
def State.queue (s : State) : Place Wait → List Ptr
  | .ready => s.ready_list.getD []
  | .wait (.mutex m) => (s.mutex m).waiters
  | .wait (.cond d) => ((s.cond d).getD []).map CondInfo.thread
  | .wait (.join t) =>
    if s.live t = true ∧ (s.tcb t).observer ≠ 0 then [(s.tcb t).observer] else []

@[simps -fullyApplied]
def State.view (s : State) : Scheduler Ptr Wait where
  current := s.current_thread
  live p := s.live p = true
  mode p := (s.tcb p).status.mode
  queue := s.queue

/-! ## The invariant -/

/-- The list `l` names what is in use, each once. -/
def Registered (l : Option (List Ptr)) (used : Ptr → Prop) : Prop :=
  ∃ xs, l = some xs ∧ xs.Nodup ∧ ∀ x, x ∈ xs ↔ used x

/-- The lists of the library, and the queues that they name. -/
structure Lists (s : State) : Prop where
  ready_list : s.ready_list ≠ none
  mutexes : Registered s.mutexes fun m => (s.mutex m).q ≠ none
  conds : Registered s.conds fun d => s.cond d ≠ none
  infos : ∀ {d i}, i ∈ (s.cond d).getD [] → (s.mutex i.mutex).q ≠ none

/-- The thread that is done and not freed yet is the next to destroy. -/
structure Finished (s : State) : Prop where
  pending_done : ∀ {p}, s.live p = true → (s.tcb p).status = .DONE → s.pending p = none
  observer_done : ∀ {p}, s.live p = true → (s.tcb p).status = .DONE → (s.tcb p).observer = 0
  next_of_done : ∀ {p}, s.live p = true → (s.tcb p).status = .DONE → s.next_to_destroy = p

structure Inv (s : State) (T : Table) (loc : Ptr → Option (Place Wait)) : Prop
    extends Lists s, Finished s where
  ready : s.ready = true
  table : TableOk s T
  sched : s.view.Ok loc

/-- The library is not in use. -/
structure Off (s : State) : Prop where
  ready : s.ready = false
  live : ∀ p, s.live p = false
  mutex : ∀ m, (s.mutex m).q = none
  cond : ∀ d, s.cond d = none

/-! ## What follows from it -/

section
variable {s : State} {T : Table} {loc : Ptr → Option (Place Wait)} {p t m d : Ptr}

theorem mode_working {x : Status} : x.mode = .working ↔ x = .WORKING := by
  cases x <;> simp [Status.mode]

theorem mode_waiting {x : Status} : x.mode = .waiting ↔ x = .WAITING := by
  cases x <;> simp [Status.mode]

theorem ready_working (h : Inv s T loc) (hp : p ∈ s.ready_list.getD []) :
    s.live p = true ∧ (s.tcb p).status = .WORKING :=
  ⟨Scheduler.live_of_mem h.sched (p := .ready) hp,
    mode_working.mp (Scheduler.mode_of_ready h.sched hp)⟩

theorem queue_waiting (h : Inv s T loc) {w : Wait} (hp : p ∈ s.queue (.wait w)) :
    s.live p = true ∧ (s.tcb p).status = .WAITING :=
  ⟨Scheduler.live_of_mem h.sched (p := .wait w) hp,
    mode_waiting.mp (Scheduler.mode_of_wait h.sched (w := w) hp)⟩

theorem mutex_waiting (h : Inv s T loc) (hp : p ∈ (s.mutex m).waiters) :
    s.live p = true ∧ (s.tcb p).status = .WAITING := queue_waiting h (w := .mutex m) hp

theorem cond_waiting (h : Inv s T loc) {i : CondInfo} (hi : i ∈ (s.cond d).getD []) :
    s.live i.thread = true ∧ (s.tcb i.thread).status = .WAITING :=
  queue_waiting h (w := .cond d) (List.mem_map_of_mem hi)

theorem observer_mem (ht : s.live t = true) (ho : (s.tcb t).observer ≠ 0) :
    (s.tcb t).observer ∈ s.queue (.wait (.join t)) := by
  simp [State.queue, ht, ho]

theorem observer_waiting (h : Inv s T loc) (ht : s.live t = true) (ho : (s.tcb t).observer ≠ 0) :
    s.live (s.tcb t).observer = true ∧ (s.tcb (s.tcb t).observer).status = .WAITING :=
  queue_waiting h (observer_mem ht ho)

theorem current_live (h : Inv s T loc) : s.live s.current_thread = true := h.sched.current_live

end

end Cs720.Threads
