import Mathlib.Data.BitVec
import Mathlib.Logic.Function.Basic
import Cs720.Lib.Loop

/-! # The thread library (`A3/thread.c`, `A3/thread_table.c`)

A library call runs to its end or to its call of `thread_yield`, after which it only returns a
value. So the calls give an outcome, and `step` makes the context switch. A queue is a list; a
pointer to a queue or to the table is `none` when it points to none, because it is not initialised
or freed. 0 is NULL. What `malloc` gives in a call is an argument: any blocks that are not in use,
those that have been freed among them. The data in a queue is not NULL. What `DEBUG` prints is left
out.
-/

namespace Cs720.Threads

open Cs720.Lib

abbrev Ptr := Nat

/-! ## Data -/

inductive Status where
  | WORKING
  | WAITING
  | DONE
  deriving DecidableEq, Repr

/-- The registers that `asm_yield` saves and loads. -/
structure Regs where
  rbx : BitVec 64
  r12 : BitVec 64
  r13 : BitVec 64
  r14 : BitVec 64
  r15 : BitVec 64
  rbp : BitVec 64
  rsp : BitVec 64
  rdi : BitVec 64
  rsi : BitVec 64
  deriving DecidableEq

structure Tcb where
  regs : Regs
  /-- unused -/
  rip : BitVec 64
  /-- only needed for freeing later -/
  stack : Ptr
  tid : Nat
  status : Status
  /-- TCB of thread who is waiting on this one -/
  observer : Ptr
  handle : Ptr
  deriving DecidableEq

/-- A node of the table, at the address `addr`. -/
structure Handle where
  addr : Ptr
  tcb : Ptr
  id : Nat
  deriving DecidableEq

structure Table where
  head : List Handle
  max_id : Nat
  size : Int

structure Mutex where
  owner : Int
  q : Option (List Ptr)
  locked : Bool

structure CondInfo where
  thread : Ptr
  mutex : Ptr
  deriving DecidableEq

/-- The field `q` of a condition. -/
abbrev Cond := Option (List CondInfo)

inductive Call where
  | self
  | create (work info : BitVec 64)
  | yield
  | join (thread_id : BitVec 64)
  | mutexInit (mutex : Ptr)
  | lock (mutex : Ptr)
  | unlock (mutex : Ptr)
  | condInit (cond : Ptr)
  | wait (cond mutex : Ptr)
  | signal (cond : Ptr)
  | cleanup
  /-- The function of a thread has returned. -/
  | terminate
  deriving DecidableEq

/-- What happens to threads, by their ids. -/
inductive Event where
  | returned (tid : Nat) (call : Call) (value : Int)
  /-- pushed on the queue of the mutex -/
  | queued (mutex : Ptr) (tid : Nat)
  /-- popped from the queue of the mutex, as its owner -/
  | handed (mutex : Ptr) (tid : Nat)
  /-- pushed on the queue of the condition -/
  | waited (cond mutex : Ptr) (tid : Nat)
  /-- popped from the queue of the condition -/
  | signalled (cond mutex : Ptr) (tid : Nat)
  | terminated (tid : Nat)
  deriving DecidableEq

structure State where
  ready : Bool
  all_threads : Option Table
  ready_list : Option (List Ptr)
  mutexes : Option (List Ptr)
  conds : Option (List Ptr)
  next_to_destroy : Ptr
  parent_id : Nat
  current_thread : Ptr
  /-- The blocks that hold a TCB and are not freed, and what they hold. -/
  live : Ptr → Bool
  tcb : Ptr → Tcb
  /-- The blocks that are a stack and are not freed. -/
  liveStack : Ptr → Bool
  mutex : Ptr → Mutex
  cond : Ptr → Cond
  /-- The registers at the call, or as the last switch loaded them. -/
  cpu : Regs
  /-- What a thread returns from its call of `thread_yield`: the call and its value. -/
  pending : Ptr → Option (Call × Int)
  /-- Events since the last `init`, the oldest first. The code has no such list. -/
  log : List Event

abbrev M := StateT State C

def stop {α : Type} (e : Stop) : M α := fun _ => .error e

def deref {α : Type} (p : Option α) : M α :=
  match p with
  | some a => pure a
  | none => stop .fault

/-- Notes what happens to the thread at `p`. -/
def record (p : Ptr) (e : Nat → Event) : M Unit :=
  modify fun s => { s with log := s.log ++ [e (s.tcb p).tid] }

/-- Reads the TCB at `p`. -/
def load (p : Ptr) : M Tcb := fun s => if s.live p then .ok (s.tcb p, s) else .error .fault

def State.setTcb (s : State) (p : Ptr) (f : Tcb → Tcb) : State :=
  { s with tcb := Function.update s.tcb p (f (s.tcb p)) }

/-- Writes fields of the TCB at `p`. -/
def store (p : Ptr) (f : Tcb → Tcb) : M Unit := fun s =>
  if s.live p then .ok ((), s.setTcb p f) else .error .fault

def State.setMutex (s : State) (p : Ptr) (f : Mutex → Mutex) : State :=
  { s with mutex := Function.update s.mutex p (f (s.mutex p)) }

def setMutex (p : Ptr) (f : Mutex → Mutex) : M Unit := modify fun s => s.setMutex p f

/-! ## `malloc` and `free` -/

/-- A block for a TCB, and the bytes that are in it when `malloc` gives it. -/
structure Block where
  addr : Ptr
  bytes : Tcb

/-- What `malloc` gives in a call: a TCB and its handle in `init`; a TCB, its stack and its handle
in `thread_create`. -/
structure Blocks where
  parent : Block
  parentHandle : Ptr
  thread : Block
  stack : Ptr
  handle : Ptr

def Blocks.addrs (b : Blocks) : List Ptr :=
  [b.parent.addr, b.parentHandle, b.thread.addr, b.stack, b.handle]

/-- The blocks that `malloc` has given and that have not been freed. -/
def State.used (s : State) (p : Ptr) : Prop :=
  s.live p = true ∨ s.liveStack p = true ∨
    ∃ h ∈ (s.all_threads.map Table.head).getD [], h.addr = p

/-- `malloc` does not fail, and gives no block that is in use. No call frees a block before it gets
one. -/
def Unused (s : State) (b : Blocks) : Prop :=
  b.addrs.Nodup ∧ ∀ p ∈ b.addrs, p ≠ 0 ∧ ¬ s.used p

/-- The thread that gets the TCB is in no call. -/
def mallocTcb (x : Block) : M Ptr := do
  modify fun s => { s with
    live := Function.update s.live x.addr true
    tcb := Function.update s.tcb x.addr x.bytes
    pending := Function.update s.pending x.addr none }
  pure x.addr

def mallocStack (p : Ptr) : M Ptr := do
  modify fun s => { s with liveStack := Function.update s.liveStack p true }
  pure p

def freeTcb (p : Ptr) : M Unit := fun s =>
  if s.live p then .ok ((), { s with live := Function.update s.live p false })
  else .error .fault

def freeStack (p : Ptr) : M Unit := fun s =>
  if s.liveStack p then .ok ((), { s with liveStack := Function.update s.liveStack p false })
  else .error .fault

/-! ## Queues (`A3/queue.c`) -/

def queue_push {α : Type} (Q : Option (List α)) (data : α) : M (List α) := do
  let queue ← deref Q
  pure (queue ++ [data])

/-- The data at the front, and the queue without it. -/
def queue_pop {α : Type} (Q : Option (List α)) : M (Option α × List α) := do
  let queue ← deref Q
  match queue with
  | [] => pure (none, [])
  | data :: rest => pure (some data, rest)

def pushReady (p : Ptr) : M Unit := do
  let queue ← queue_push (← get).ready_list p
  modify fun s => { s with ready_list := some queue }

/-! ## The table (`A3/thread_table.c`) -/

def put_tcb (handle tcb : Ptr) : M Unit := do
  let table ← deref (← get).all_threads
  store tcb fun t => { t with tid := table.max_id }
  let head := ⟨handle, tcb, table.max_id⟩ :: table.head
  modify fun s => { s with all_threads := some ⟨head, table.max_id + 1, table.size + 1⟩ }
  let t ← load tcb
  -- An old handle would be freed. A new TCB has none, only the bytes that are in its block.
  if t.handle ≠ 0 then stop .fault
  else store tcb fun t => { t with handle := handle }

/-- The walk over the table, up to the first id that is not above `target`. -/
def search (target : Nat) (head : List Handle) : Option Handle :=
  match head.dropWhile fun ptr => ptr.id > target with
  | [] => none
  | ptr :: _ => if ptr.id ≠ target then none else some ptr

def get_tcb_by_id (target_id : Nat) : M Ptr := do
  let table ← deref (← get).all_threads
  match search target_id table.head with
  | none => pure 0
  | some ptr => pure ptr.tcb

/-- Takes the node that `search` finds out of the list. -/
def unlink (target : Nat) (head : List Handle) : List Handle :=
  (head.takeWhile fun ptr => ptr.id > target) ++ (head.dropWhile fun ptr => ptr.id > target).tail

def remove_tcb (tcb : Ptr) : M Int := do
  let table ← deref (← get).all_threads
  let t ← load tcb
  if t.handle = 0 then pure (-1)
  else do
    let handle ← deref (table.head.find? fun ptr => ptr.addr = t.handle)
    match search handle.id table.head with
    | none => pure (-2)
    | some _ => do
      store tcb fun t => { t with handle := 0 }
      let head := unlink handle.id table.head
      modify fun s => { s with all_threads := some ⟨head, table.max_id, table.size - 1⟩ }
      pure 0

def pop_tcb : M Ptr := do
  let table ← deref (← get).all_threads
  match table.head with
  | [] => pure 0
  | ret :: rest => do
    store ret.tcb fun t => { t with handle := 0 }
    modify fun s => { s with all_threads := some ⟨rest, table.max_id, table.size - 1⟩ }
    pure ret.tcb

/-! ## `init`, `thread_self`, `thread_create` -/

section
variable (b : Blocks)

def init : M Unit := do
  modify fun s => { s with
    ready_list := some []
    all_threads := some ⟨[], 0, 0⟩
    mutexes := some []
    conds := some []
    log := [] }
  let parent ← mallocTcb b.parent
  store parent fun t => { t with status := .WORKING }
  store parent fun t => { t with stack := 0 }
  put_tcb b.parentHandle parent
  pushReady parent
  let (front, rest) ← queue_pop (← get).ready_list
  modify fun s => { s with ready_list := some rest, current_thread := front.getD 0 }
  let t ← load parent
  modify fun s => { s with parent_id := t.tid, ready := true }

/-- `if (!ready) init();` -/
def ensure : M Unit := do
  if (← get).ready then pure () else init b

def thread_self : M Int := do
  ensure b
  let t ← load (← get).current_thread
  pure t.tid

def STACK_SIZE : BitVec 64 := 65536

/-- The registers of a thread that has not run, with the addresses of `thread_terminate` and `work`
on its stack. -/
def firstRegs (stack : Ptr) (info : BitVec 64) : Regs :=
  let rsp := BitVec.ofNat 64 stack + STACK_SIZE - 8 - 8
  ⟨0, 0, 0, 0, 0, rsp - 8, rsp, info, 0⟩

/-- `work` goes on the new stack only. -/
def thread_create (_work info : BitVec 64) : M Int := do
  ensure b
  let thread ← mallocTcb b.thread
  store thread fun t => { t with status := .WORKING }
  let stack ← mallocStack b.stack
  store thread fun t => { t with stack := stack }
  store thread fun t => { t with regs := firstRegs stack info }
  put_tcb b.handle thread
  pushReady thread
  let t ← load thread
  pure t.tid

/-! ## `thread_yield` -/

/-- What `asm_yield` saves: `%rbp` has been pushed. -/
def savedRegs (cpu : Regs) (old next : Ptr) : Regs :=
  { cpu with
    rbp := cpu.rsp - 8
    rsp := cpu.rsp - 8
    rdi := BitVec.ofNat 64 old
    rsi := BitVec.ofNat 64 next }

def asm_yield (old next : Ptr) : M Unit := do
  let cpu := (← get).cpu
  store old fun t => { t with regs := savedRegs cpu old next }
  let t ← load next
  modify fun s => { s with cpu := t.regs }

/-- `thread_yield` with the threads on `ready_list`. Its call of itself pops the next one. -/
def yieldFrom (old : Ptr) : List Ptr → M Unit
  | [] => do
    modify fun s => { s with ready_list := some [] }
    let t ← load old
    if t.status ≠ .WORKING then stop (.exit (-1)) else pure ()
  | next :: rest => do
    modify fun s => { s with ready_list := some rest }
    let t ← load next
    if t.status ≠ .WORKING then yieldFrom old rest
    else do
      modify fun s => { s with current_thread := next }
      let t ← load old
      if t.status = .WORKING then pushReady old else pure ()
      asm_yield old next

def thread_yield : M Unit := do
  ensure b
  let queue ← deref (← get).ready_list
  yieldFrom (← get).current_thread queue

/-! ## `thread_join` -/

/-- Reads the TCB at `p`, in the state `s`. -/
def look (s : State) (p : Ptr) : C Tcb := if s.live p then .ok (s.tcb p) else .error .fault

def detectStep (s : State) : Ptr × Ptr → C (Lib.Flow (Ptr × Ptr) Bool)
  | (slow, fast) =>
    if slow = 0 ∨ fast = 0 then .ok (.done false)
    else do
      let f ← look s fast
      if f.observer = 0 then .ok (.done false)
      else do
        let t ← look s slow
        let o ← look s f.observer
        if t.observer ≠ 0 ∧ o.observer ≠ 0 then do
          let a ← look s t.observer
          let b ← look s o.observer
          if a.tid = b.tid then .ok (.done true) else .ok (.next (t.observer, o.observer))
        else .ok (.next (t.observer, o.observer))

def detect_deadlock (n : Nat) : M Bool := fun s => do
  let r ← loop (detectStep s) n (s.current_thread, s.current_thread)
  .ok (r, s)

/-- What a call comes to: a value, or a call of `thread_yield` and then a value. A thread that has
terminated gets none. -/
inductive Outcome where
  | ret (value : Int)
  | yield (value : Option Int)

/-- `thread_id` is a `long` here, and an `unsigned long` in `get_tcb_by_id`. -/
def thread_join (n : Nat) (thread_id : BitVec 64) : M Outcome := do
  ensure b
  let current := (← get).current_thread
  let t ← load current
  if (t.tid : Int) = thread_id.toInt then pure (.ret (-1))
  else do
    let target ← get_tcb_by_id thread_id.toNat
    if target = 0 then pure (.ret (-3))
    else do
      let t ← load target
      if (t.tid : Int) ≠ thread_id.toInt then stop (.exit (-1))
      else if t.status = .DONE then pure (.yield (some 0))
      else if t.observer ≠ 0 then pure (.ret (-2))
      else do
        store current fun t => { t with status := .WAITING }
        store target fun t => { t with observer := current }
        if ← detect_deadlock n then do
          store current fun t => { t with status := .WORKING }
          store target fun t => { t with observer := 0 }
          pure (.ret (-1))
        else pure (.yield (some 0))

/-! ## Mutexes -/

def thread_mutex_init (mutex : Ptr) : M Int := do
  ensure b
  if mutex = 0 then pure 0
  else do
    setMutex mutex fun _ => { locked := false, owner := -1, q := some [] }
    let queue ← queue_push (← get).mutexes mutex
    modify fun s => { s with mutexes := some queue }
    pure 1

def thread_mutex_lock (mutex : Ptr) : M Outcome := do
  if mutex = 0 then pure (.ret 0)
  else if !((← get).mutex mutex).locked then do
    setMutex mutex fun m => { m with locked := true }
    let self ← thread_self b
    setMutex mutex fun m => { m with owner := self }
    pure (.ret 1)
  else do
    let owner := ((← get).mutex mutex).owner
    let self ← thread_self b
    if owner = self then pure (.ret 0)
    else do
      let current := (← get).current_thread
      store current fun t => { t with status := .WAITING }
      let queue ← queue_push ((← get).mutex mutex).q current
      setMutex mutex fun m => { m with q := some queue }
      record current (.queued mutex)
      pure (.yield (some 1))

def thread_mutex_unlock (mutex : Ptr) : M Int := do
  if mutex = 0 then pure 0
  else if !((← get).mutex mutex).locked then pure 0
  else do
    let owner := ((← get).mutex mutex).owner
    let self ← thread_self b
    if owner ≠ self then pure 0
    else do
      let (next, queue) ← queue_pop ((← get).mutex mutex).q
      setMutex mutex fun m => { m with q := some queue }
      match next with
      | none => setMutex mutex fun m => { m with locked := false }
      | some next => do
        store next fun t => { t with status := .WORKING }
        let t ← load next
        setMutex mutex fun m => { m with owner := t.tid }
        pushReady next
        record next (.handed mutex)
      pure 1

/-! ## Conditions -/

def setCond (p : Ptr) (queue : List CondInfo) : M Unit :=
  modify fun s => { s with cond := Function.update s.cond p (some queue) }

def thread_cond_init (cond : Ptr) : M Int := do
  ensure b
  if cond = 0 then pure 0
  else do
    setCond cond []
    let queue ← queue_push (← get).conds cond
    modify fun s => { s with conds := some queue }
    pure 1

def thread_cond_wait (cond mutex : Ptr) : M Outcome := do
  if cond = 0 ∨ mutex = 0 then pure (.ret 0)
  else if !((← get).mutex mutex).locked then pure (.ret 0)
  else do
    let current := (← get).current_thread
    let t ← load current
    if ((← get).mutex mutex).owner ≠ t.tid then pure (.ret 0)
    else do
      let released ← thread_mutex_unlock b mutex
      if released = 0 then pure (.ret 0)
      else do
        store current fun t => { t with status := .WAITING }
        let queue ← queue_push ((← get).cond cond) ⟨current, mutex⟩
        setCond cond queue
        record current (.waited cond mutex)
        pure (.yield (some 1))

def thread_cond_signal (cond : Ptr) : M Int := do
  if cond = 0 then pure 0
  else do
    let (info, queue) ← queue_pop ((← get).cond cond)
    setCond cond queue
    match info with
    | none => pure 1
    | some info => do
      record info.thread (.signalled cond info.mutex)
      if !((← get).mutex info.mutex).locked then do
        setMutex info.mutex fun m => { m with locked := true }
        let t ← load info.thread
        setMutex info.mutex fun m => { m with owner := t.tid }
        store info.thread fun t => { t with status := .WORKING }
        pushReady info.thread
      else do
        let queue ← queue_push ((← get).mutex info.mutex).q info.thread
        setMutex info.mutex fun m => { m with q := some queue }
        record info.thread (.queued info.mutex)
      pure 1

/-! ## Cleanup -/

def destroy_thread (to_free : Ptr) : M Unit := do
  if to_free = 0 then pure ()
  else do
    let _ ← remove_tcb to_free
    let t ← load to_free
    if t.tid ≠ 0 ∧ t.stack ≠ 0 then freeStack t.stack else pure ()
    freeTcb to_free

def thread_terminate : M Outcome := do
  let current := (← get).current_thread
  store current fun t => { t with status := .DONE }
  record current .terminated
  let t ← load current
  if t.observer ≠ 0 then do
    store t.observer fun t => { t with status := .WORKING }
    pushReady t.observer
    store current fun t => { t with observer := 0 }
  else pure ()
  destroy_thread (← get).next_to_destroy
  modify fun s => { s with next_to_destroy := current }
  pure (.yield none)

/-- The loop that pops and destroys, one round for each handle. -/
def destroyAll : List Handle → M Unit
  | [] => pure ()
  | _ :: rest => do
    let to_delete ← pop_tcb
    destroy_thread to_delete
    destroyAll rest

def destroyMutexes : List Ptr → M Unit
  | [] => pure ()
  | mutex :: rest => do
    let _ ← deref ((← get).mutex mutex).q
    setMutex mutex fun m => { m with q := none }
    destroyMutexes rest

def destroyConds : List Ptr → M Unit
  | [] => pure ()
  | cond :: rest => do
    let _ ← deref ((← get).cond cond)
    modify fun s => { s with cond := Function.update s.cond cond none }
    destroyConds rest

def thread_cleanup : M Unit := do
  if !(← get).ready then pure ()
  else do
    let t ← load (← get).current_thread
    if t.tid ≠ 0 then pure ()
    else do
      let table ← deref (← get).all_threads
      destroyAll table.head
      let ms ← deref (← get).mutexes
      destroyMutexes ms
      let cs ← deref (← get).conds
      destroyConds cs
      modify fun s => { s with
        all_threads := none
        ready_list := none
        mutexes := none
        conds := none
        ready := false }

/-! ## A call and the context switch -/

def perform (n : Nat) : Call → M Outcome
  | .self => do pure (.ret (← thread_self b))
  | .create work info => do pure (.ret (← thread_create b work info))
  | .yield => do
    ensure b
    pure (.yield (some 0))
  | .join thread_id => thread_join b n thread_id
  | .mutexInit mutex => do pure (.ret (← thread_mutex_init b mutex))
  | .lock mutex => thread_mutex_lock b mutex
  | .unlock mutex => do pure (.ret (← thread_mutex_unlock b mutex))
  | .condInit cond => do pure (.ret (← thread_cond_init b cond))
  | .wait cond mutex => thread_cond_wait b cond mutex
  | .signal cond => do pure (.ret (← thread_cond_signal cond))
  | .cleanup => do
    thread_cleanup
    pure (.ret 0)
  | .terminate => thread_terminate

/-- The thread that now runs returns from the call in which it was switched out, if any. -/
def resume : M Unit := do
  let current := (← get).current_thread
  match (← get).pending current with
  | none => pure ()
  | some (c, value) => do
    modify fun s => { s with pending := Function.update s.pending current none }
    record current fun tid => .returned tid c value

/-- What the outcome of a call leads to. -/
def finish (c : Call) : Outcome → M Unit
  | .ret value => do record (← get).current_thread fun tid => .returned tid c value
  | .yield value => do
    let result := value.map fun v => (c, v)
    modify fun s => { s with pending := Function.update s.pending s.current_thread result }
    thread_yield b
    resume

/-- The current thread makes the call `c`, with `cpu` in its registers. -/
def step (n : Nat) (cpu : Regs) (c : Call) : M Unit := do
  modify fun s => { s with cpu := cpu }
  let outcome ← perform b n c
  finish b c outcome

end

end Cs720.Threads
