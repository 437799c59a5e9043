import Cs720.Threads.Deadlock

/-! # What a call can do -/

namespace Cs720.Threads

open Cs720.Lib

/-! ## The states that calls lead to -/

namespace State

variable (s : State)

/-- `p` gets the mutex, which was free. -/
@[simps! -fullyApplied]
def acquire (m p : Ptr) : State :=
  s.putMutex m { s.mutex m with locked := true, owner := (s.tcb p).tid }

/-- `p` is pushed on the queue of the mutex. -/
@[simps! -fullyApplied]
def enqueue (m p : Ptr) : State :=
  (s.putMutex m { s.mutex m with q := some ((s.mutex m).waiters ++ [p]) }).note (.queued m (s.tcb p).tid)

@[simps! -fullyApplied]
def release (m : Ptr) : State := s.putMutex m { s.mutex m with q := some [], locked := false }

/-- The mutex goes to `x`, with `xs` behind it. -/
@[simps! -fullyApplied]
def hand (m x : Ptr) (xs : List Ptr) : State :=
  (((s.putMutex m { s.mutex m with q := some xs, owner := (s.tcb x).tid }).setStatus x
    .WORKING).enready x).note (.handed m (s.tcb x).tid)

/-- `p` is pushed on the queue of the condition. -/
@[simps! -fullyApplied]
def await (d m p : Ptr) : State :=
  ((s.setStatus p .WAITING).putCond d ((s.cond d).getD [] ++ [⟨p, m⟩])).note
    (.waited d m (s.tcb p).tid)

/-- The front of the queue of the condition leaves it. -/
@[simps! -fullyApplied]
def unwait (d : Ptr) (i : CondInfo) (rest : List CondInfo) : State :=
  (s.putCond d rest).note (.signalled d i.mutex (s.tcb i.thread).tid)

@[simps -fullyApplied]
def newMutex (m : Ptr) : State :=
  { s.putMutex m { locked := false, owner := -1, q := some [] } with
    mutexes := some (s.mutexes.getD [] ++ [m]) }

@[simps -fullyApplied]
def newCond (d : Ptr) : State :=
  { s.putCond d [] with conds := some (s.conds.getD [] ++ [d]) }

/-- `p` waits for `t` to terminate. -/
@[simps! -fullyApplied]
def observe (t p : Ptr) : State := (s.setStatus p .WAITING).setObserver t p

/-- `p` is done, and the thread that waits for it is not told yet. -/
@[simps! -fullyApplied]
def retired (p : Ptr) : State :=
  (s.setStatus p .DONE).note (.terminated (s.tcb p).tid)

/-- The thread that waits for `p` is woken. -/
@[simps! -fullyApplied]
def tell (p : Ptr) : State :=
  ((s.setStatus (s.tcb p).observer .WORKING).enready (s.tcb p).observer).setObserver p 0

@[simps -fullyApplied]
def setNext (p : Ptr) : State := { s with next_to_destroy := p }

end State

/-! ## The calls -/

/-- `thread_mutex_unlock`, by the owner. -/
inductive Unlocks (s : State) (m : Ptr) : State → Prop where
  | release : (s.mutex m).q = some [] → Unlocks s m (s.release m)
  | hand (x : Ptr) (xs : List Ptr) : (s.mutex m).q = some (x :: xs) → Unlocks s m (s.hand m x xs)

def Owns (s : State) (m p : Ptr) : Prop :=
  (s.mutex m).locked = true ∧ (s.mutex m).owner = (s.tcb p).tid

/-- The current thread is done, and has told its observer, if it had one. -/
def Told (s s₁ : State) : Prop :=
  s₁ = s.retired s.current_thread ∧ (s.tcb s.current_thread).observer = 0 ∨
    s₁ = (s.retired s.current_thread).tell s.current_thread ∧
      (s.tcb s.current_thread).observer ≠ 0

/-- The thread that was next to destroy is freed, if there was one. It had ended. -/
def Destroys (s : State) (T : Table) (s₁ s₂ : State) : Prop :=
  s₂ = s₁ ∧ s.next_to_destroy = 0 ∨
    (∃ head, s₂ = s₁.drop T head s.next_to_destroy ∧
      TableOk s₂ ⟨head, T.max_id, T.size - 1⟩) ∧
      s.live s.next_to_destroy = true ∧ (s.tcb s.next_to_destroy).status = .DONE

/-- The values that are returned with nothing done. -/
def Quiet (s : State) : Call → Int → Prop
  | .self, v => v = (s.tcb s.current_thread).tid
  | .join _, v => v < 0
  | .mutexInit m, v => m = 0 ∧ v = 0
  | .lock m, v => (m = 0 ∨ Owns s m s.current_thread) ∧ v = 0
  | .unlock m, v => (m = 0 ∨ ¬ Owns s m s.current_thread) ∧ v = 0
  | .condInit d, v => d = 0 ∧ v = 0
  | .wait d m, v => (d = 0 ∨ m = 0 ∨ ¬ Owns s m s.current_thread) ∧ v = 0
  | .signal d, v => (d = 0 ∧ v = 0) ∨ (d ≠ 0 ∧ s.cond d = some [] ∧ v = 1)
  | .cleanup, v => v = 0
  | _, _ => False

/-- What a call does before the context switch, if there is one. -/
inductive Does (b : Blocks) (s : State) (T : Table) : Call → Outcome → State → Prop where
  | quiet (c : Call) (v : Int) : Quiet s c v → Does b s T c (.ret v) s
  | create (work info : BitVec 64) :
      Does b s T (.create work info) (.ret T.max_id) (s.created b info T)
  | yield : Does b s T .yield (.yield (some 0)) s
  | joinDone (id : BitVec 64) (t : Ptr) : s.live t = true → ((s.tcb t).tid : Int) = id.toInt →
      (s.tcb t).status = .DONE → Does b s T (.join id) (.yield (some 0)) s
  | join (id : BitVec 64) (t : Ptr) : s.live t = true → ((s.tcb t).tid : Int) = id.toInt →
      (s.tcb t).status ≠ .DONE → (s.tcb t).observer = 0 → t ≠ s.current_thread →
      ¬ Endless (s.observe t s.current_thread).link s.current_thread →
      Does b s T (.join id) (.yield (some 0)) (s.observe t s.current_thread)
  | mutexInit (m : Ptr) : m ≠ 0 → Does b s T (.mutexInit m) (.ret 1) (s.newMutex m)
  | acquire (m : Ptr) : m ≠ 0 → (s.mutex m).locked = false →
      Does b s T (.lock m) (.ret 1) (s.acquire m s.current_thread)
  | enqueue (m : Ptr) : (s.mutex m).locked = true → ¬ Owns s m s.current_thread →
      (s.mutex m).q ≠ none →
      Does b s T (.lock m) (.yield (some 1))
        ((s.setStatus s.current_thread .WAITING).enqueue m s.current_thread)
  | unlock (m : Ptr) (s₁ : State) : Owns s m s.current_thread → Unlocks s m s₁ →
      Does b s T (.unlock m) (.ret 1) s₁
  | condInit (d : Ptr) : d ≠ 0 → Does b s T (.condInit d) (.ret 1) (s.newCond d)
  | wait (d m : Ptr) (s₁ : State) : Owns s m s.current_thread → Unlocks s m s₁ →
      s.cond d ≠ none →
      Does b s T (.wait d m) (.yield (some 1)) (s₁.await d m s.current_thread)
  | signalFree (d : Ptr) (i : CondInfo) (rest : List CondInfo) : s.cond d = some (i :: rest) →
      (s.mutex i.mutex).locked = false →
      Does b s T (.signal d) (.ret 1)
        ((((s.unwait d i rest).acquire i.mutex i.thread).setStatus i.thread .WORKING).enready
          i.thread)
  | signalHeld (d : Ptr) (i : CondInfo) (rest : List CondInfo) : s.cond d = some (i :: rest) →
      (s.mutex i.mutex).locked = true →
      Does b s T (.signal d) (.ret 1) ((s.unwait d i rest).enqueue i.mutex i.thread)
  | cleanup (s₁ : State) : Off s₁ → Does b s T .cleanup (.ret 0) s₁
  | terminate (s₁ s₂ : State) : Told s s₁ → Destroys s T s₁ s₂ →
      Does b s T .terminate (.yield none) (s₂.setNext s.current_thread)

/-! ## What a run may do -/

/-- The client initialises a mutex and a condition once, and again only when `thread_cleanup` has
destroyed them. The function of the first thread does not return. -/
def Allowed (s : State) : Call → Prop
  | .mutexInit m => (s.mutex m).q = none
  | .condInit d => s.cond d = none
  | .terminate => s.ready = true ∧ (s.tcb s.current_thread).tid ≠ 0
  | _ => True

/-- The mutex and the condition of the call are initialised. -/
def Initialised (s : State) : Call → Prop
  | .lock m => m = 0 ∨ (s.mutex m).q ≠ none
  | .unlock m => m = 0 ∨ (s.mutex m).q ≠ none
  | .wait d m => (d = 0 ∨ s.cond d ≠ none) ∧ (m = 0 ∨ (s.mutex m).q ≠ none)
  | .signal d => d = 0 ∨ s.cond d ≠ none
  | _ => True

/-- The id of the caller. The first call makes it 0. -/
def State.self (s : State) : Nat := if s.ready then (s.tcb s.current_thread).tid else 0

/-- The call uses no queue that is not there, and the TCB of the caller only if it is there. The
thread that it destroys has ended. -/
def Safe (s : State) : Call → Prop
  | .lock m =>
    m = 0 ∨ (s.mutex m).q ≠ none ∨ (s.mutex m).locked = false ∨ (s.mutex m).owner = s.self
  | .unlock m =>
    m = 0 ∨ (s.mutex m).q ≠ none ∨ (s.mutex m).locked = false ∨ (s.mutex m).owner ≠ s.self
  | .wait d m => d = 0 ∨ m = 0 ∨ (s.mutex m).locked = false ∨
    s.ready = true ∧ ((s.mutex m).owner ≠ s.self ∨ (s.mutex m).q ≠ none ∧ s.cond d ≠ none)
  | .signal d => d = 0 ∨ s.cond d ≠ none
  | .terminate => s.next_to_destroy = 0 ∨
    s.live s.next_to_destroy = true ∧ (s.tcb s.next_to_destroy).status = .DONE
  | _ => True

/-- The bytes in a block for a TCB have NULL in the two fields that are not set. -/
def Block.Zeroed (x : Block) : Prop := x.bytes.handle = 0 ∧ x.bytes.observer = 0

def Zeroed (b : Blocks) : Prop := b.parent.Zeroed ∧ b.thread.Zeroed

end Cs720.Threads
