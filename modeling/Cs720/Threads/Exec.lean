import Cs720.Lib.Run
import Cs720.Threads.Code

/-! # Running the code, and what its writes change -/

namespace Cs720.Threads

open Cs720.Lib

/-! ## Running a program -/

section
variable {α : Type} {s : State} {p : Ptr} {f : Tcb → Tcb}

@[simp] theorem run_stop (e : Stop) : (stop e : M α) s = .error e := rfl

@[simp] theorem deref_some (a : α) : deref (some a) = pure a := rfl

@[simp] theorem deref_none : deref (none : Option α) = stop .fault := rfl

theorem run_load (h : s.live p = true) : load p s = .ok (s.tcb p, s) := by
  unfold load
  rw [if_pos h]

theorem run_store (h : s.live p = true) : store p f s = .ok ((), s.setTcb p f) := by
  unfold store
  rw [if_pos h]

theorem run_ensure {b : Blocks} (h : s.ready = true) : ensure b s = .ok ((), s) := by
  simp [ensure, h]

end

/-! ## Writes -/

/-- The threads in the queue of a mutex. -/
def Mutex.waiters (m : Mutex) : List Ptr := m.q.getD []

section
variable (t : Ptr → Tcb) (p q : Ptr)

def withStatus (x : Status) : Ptr → Tcb := Function.update t p { t p with status := x }
def withObserver (o : Ptr) : Ptr → Tcb := Function.update t p { t p with observer := o }
def withRegs (r : Regs) : Ptr → Tcb := Function.update t p { t p with regs := r }

@[simp] theorem withStatus_status (x : Status) :
    (withStatus t p x q).status = if q = p then x else (t q).status := by
  simp only [withStatus, Function.update_apply]
  split <;> rfl

@[simp] theorem withStatus_same (x : Status) :
    (withStatus t p x q).tid = (t q).tid ∧ (withStatus t p x q).observer = (t q).observer ∧
    (withStatus t p x q).handle = (t q).handle ∧ (withStatus t p x q).stack = (t q).stack := by
  by_cases h : q = p
  · simp [withStatus, h]
  · simp [withStatus, Function.update_of_ne h]

@[simp] theorem withObserver_observer (o : Ptr) :
    (withObserver t p o q).observer = if q = p then o else (t q).observer := by
  simp only [withObserver, Function.update_apply]
  split <;> rfl

@[simp] theorem withObserver_same (o : Ptr) :
    (withObserver t p o q).tid = (t q).tid ∧ (withObserver t p o q).status = (t q).status ∧
    (withObserver t p o q).handle = (t q).handle ∧ (withObserver t p o q).stack = (t q).stack := by
  by_cases h : q = p
  · simp [withObserver, h]
  · simp [withObserver, Function.update_of_ne h]

@[simp] theorem withRegs_same (r : Regs) :
    (withRegs t p r q).tid = (t q).tid ∧ (withRegs t p r q).status = (t q).status ∧
    (withRegs t p r q).observer = (t q).observer ∧ (withRegs t p r q).handle = (t q).handle ∧
    (withRegs t p r q).stack = (t q).stack := by
  by_cases h : q = p
  · simp [withRegs, h]
  · simp [withRegs, Function.update_of_ne h]

end

namespace State

variable (s : State)

@[simps -fullyApplied]
def note (e : Event) : State := { s with log := s.log ++ [e] }

@[simps -fullyApplied]
def enready (p : Ptr) : State := { s with ready_list := some (s.ready_list.getD [] ++ [p]) }

@[simps -fullyApplied]
def setStatus (p : Ptr) (x : Status) : State := { s with tcb := withStatus s.tcb p x }

@[simps -fullyApplied]
def setObserver (p o : Ptr) : State := { s with tcb := withObserver s.tcb p o }

@[simps -fullyApplied]
def putMutex (p : Ptr) (m : Mutex) : State := { s with mutex := Function.update s.mutex p m }

@[simps -fullyApplied]
def putCond (d : Ptr) (q : List CondInfo) : State :=
  { s with cond := Function.update s.cond d (some q) }

@[simps -fullyApplied]
def pend (p : Ptr) (v : Option (Call × Int)) : State :=
  { s with pending := Function.update s.pending p v }

/-- The switch to `p`, with `q` left on the ready list. -/
@[simps -fullyApplied]
def dispatch (p : Ptr) (q : List Ptr) : State :=
  { s with
    current_thread := p
    ready_list := some q
    tcb := withRegs s.tcb s.current_thread (savedRegs s.cpu s.current_thread p)
    cpu := (s.tcb p).regs }

end State

end Cs720.Threads
