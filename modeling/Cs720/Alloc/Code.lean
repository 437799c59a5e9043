import Cs720.Lib.Loop
import Cs720.Alloc.Memory

/-! # The allocator (`A4/alloc.c`)

Every `while` takes the budget `n`. The mark loops read the static variables and change only memory,
so memory is their state. What `DEBUG` prints is left out.
-/

namespace Cs720.Alloc

open Cs720.Lib

/-- What linking fixes, and what a call of a finalizer's address does to memory. -/
structure Env where
  data_start : Word
  data_end : Word
  /-- `&heap` -/
  heap_var : Word
  finalizer : Word → Mem → Mem

structure Statics where
  /-- low address -/
  stack_top : Word := 0
  /-- high address -/
  frame_bottom : Word := 0
  /-- 0: NO, 1: YES, -1: FAILED -/
  initialized : Int := 0
  heap : Word := 0
  /-- number of words -/
  total_heap_size : Word := 0
  in_finalize_call : Bool := false

structure State extends Statics where
  mem : Mem
  /-- The finalizer calls so far, each with the block it was made for. -/
  finalized : List (Word × Word) := []

def next (m : Mem) (block : Word) : Word := m (block + 8)

def finalizerOf (m : Mem) (block : Word) : Word := m (block + 16)

section
variable (e : Env) (g : Statics)

/-! ## Ranges -/

def inGlobalRange (addr : Word) : Bool := e.data_start ≤ addr && addr < e.data_end

def inStackRange (addr : Word) : Bool := g.frame_bottom > addr && addr ≥ g.stack_top

def heapEnd : Word := g.heap + 8 * g.total_heap_size

def inHeapRange (addr : Word) : Bool := g.heap ≤ addr && addr < heapEnd g

/-! ## `getBlock` -/

def getBlockStep (m : Mem) (ptr : Word) : Word × Word → C (Flow (Word × Word) Word)
  | (prev, cur) =>
    if cur ≠ 0 ∧ cur < ptr then .ok (.next (cur, next m cur))
    else if cur = 0 then .ok (.done 0)
    else .ok (.done prev)

/-- 0 is the NULL of the code. -/
def getBlock (n : Nat) (m : Mem) (ptr : Word) : C Word :=
  if g.initialized ≠ 1 ∨ g.heap = 0 then .ok 0
  else if ptr < g.heap ∨ ptr ≥ heapEnd g then .ok 0
  else loop (getBlockStep m ptr) n (g.heap, g.heap)

/-! ## Step 1: mark all used blocks -/

/-- The inner loop of steps 1a and 1b, with `iterations_left`. They differ in the test that makes
them ignore the word. -/
def chaseRoot (n : Nat) (ignored : Mem → Bool) : Nat → Word → Mem → C Mem
  | 0, _, m => .ok m
  | iterations_left + 1, word, m =>
    if word = 0 then .ok m
    else if inHeapRange g word then do
      let block ← getBlock g n m word
      if ignored m then .ok m
      -- `block->info` with no block
      else if block = 0 then .error .fault
      else if !isMarked (m block) && isAlloc (m block) then
        .ok (m.set block (m block ||| MARK_BIT))
      else chaseRoot n ignored iterations_left (readLong m word) m
    else if inGlobalRange e word || inStackRange g word then
      chaseRoot n ignored iterations_left (readLong m word) m
    else chaseRoot n ignored iterations_left word m

def globalLength : Nat := (e.data_end - e.data_start).toNat / 8

/-- `&__data_start[i]` -/
def globalAddr (i : Nat) : Word := e.data_start + 8 * BitVec.ofNat 64 i

def markGlobalsStep (n : Nat) : Nat × Mem → C (Flow (Nat × Mem) Mem)
  | (i, m) =>
    if i < globalLength e then do
      let m' ← chaseRoot e g n (fun m => readLong m (globalAddr e i) == e.heap_var) 100
        (readLong m (globalAddr e i)) m
      .ok (.next (i + 1, m'))
    else .ok (.done m)

/-- Step 1a. -/
def markGlobals (n : Nat) (m : Mem) : C Mem := loop (markGlobalsStep e g n) n (0, m)

def scanFrameStep (n : Nat) (bottom : Word) : Word × Mem → C (Flow (Word × Mem) Mem)
  | (addr, m) =>
    if addr ≤ bottom then do
      let m' ← chaseRoot e g n (fun _ => addr == e.heap_var) 100 (readLong m addr) m
      .ok (.next (addr + 8, m'))
    else .ok (.done m)

/-- `frame_count` is 0 throughout, so it stops nothing. -/
def markStackStep (n : Nat) : Word × Word × Mem → C (Flow (Word × Word × Mem) Mem)
  | (top, bottom, m) =>
    if bottom ≤ top ∨ bottom = 0 then .ok (.done m)
    else if bottom = top then .ok (.done m)
    else if bottom &&& 7 ≠ 0 then .ok (.done m)
    else do
      let m' ← loop (scanFrameStep e g n bottom) n (top, m)
      .ok (.next (bottom, readLong m' bottom, m'))

/-- Step 1b. -/
def markStack (n : Nat) (m : Mem) : C Mem :=
  loop (markStackStep e g n) n (g.stack_top, g.frame_bottom, m)

def chaseHeapStep (n : Nat) : Word × Bool × Mem → C (Flow (Word × Bool × Mem) (Bool × Mem))
  | (word, marked_any, m) =>
    if word = 0 then .ok (.done (marked_any, m))
    else if inHeapRange g word then do
      let block ← getBlock g n m word
      if block = 0 then .error (.exit (-1))
      else if !isMarked (m block) && isAlloc (m block) then
        .ok (.next (0, true, m.set block (m block ||| MARK_BIT)))
      else .ok (.next (readLong m word, marked_any, m))
    else if inGlobalRange e word || inStackRange g word then
      .ok (.next (readLong m word, marked_any, m))
    else .ok (.next (0, marked_any, m))

/-- `&start[idx]` for the block at `cur`. -/
def payloadAddr (cur : Word) (idx : Nat) : Word := cur + 8 * BLOCK_SIZE + 8 * BitVec.ofNat 64 idx

def scanBlockStep (n : Nat) (cur : Word) (max : Nat) :
    Nat × Bool × Mem → C (Flow (Nat × Bool × Mem) (Bool × Mem))
  | (idx, marked_any, m) =>
    if idx < max then do
      let (any', m') ← loop (chaseHeapStep e g n) n (readLong m (payloadAddr cur idx), marked_any, m)
      .ok (.next (idx + 1, any', m'))
    else .ok (.done (marked_any, m))

def scanHeapStep (n : Nat) : Word × Bool × Mem → C (Flow (Word × Bool × Mem) (Bool × Mem))
  | (cur, marked_any, m) =>
    if cur = 0 then .ok (.done (marked_any, m))
    else do
      let max := (m cur &&& SIZE_MASK).toNat
      let (any', m') ← loop (scanBlockStep e g n cur max) n (0, marked_any, m)
      .ok (.next (next m' cur, any', m'))

def markHeapStep (n : Nat) (m : Mem) : C (Flow Mem Mem) := do
  let (marked_any, m') ← loop (scanHeapStep e g n) n (g.heap, false, m)
  if marked_any then .ok (.next m') else .ok (.done m')

/-- Step 1c. -/
def markHeap (n : Nat) (m : Mem) : C Mem := loop (markHeapStep e g n) n m

/-! ## Step 2: set all unused blocks to free -/

/-- The loop variables of the sweep. -/
structure Sweep where
  cur : Word
  prev : Word
  words_freed : Word
  mem : Mem
  finalized : List (Word × Word)

/-- Unsets the alloc bit and calls the finalizer. -/
def releaseBlock (s : Sweep) : Sweep :=
  let m := s.mem.set s.cur (s.mem s.cur &&& ~~~ALLOC_BIT)
  let s := { s with mem := m, words_freed := s.words_freed + (m s.cur &&& SIZE_MASK) }
  let f := finalizerOf m s.cur
  if f ≠ 0 then { s with mem := e.finalizer f m, finalized := s.finalized ++ [(s.cur, f)] } else s

/-- Coalesces the block with `prev`. -/
def coalesce (s : Sweep) : Sweep :=
  if s.prev ≠ 0 then
    let prev_size := (s.mem s.prev &&& SIZE_MASK) + (BLOCK_SIZE + (s.mem s.cur &&& SIZE_MASK))
    let m := s.mem.set s.prev (withSize (s.mem s.prev) prev_size)
    let m := m.set (s.prev + 8) (next m s.cur)
    { s with mem := m, words_freed := s.words_freed + BLOCK_SIZE }
  else { s with prev := s.cur }

def sweepStep (s : Sweep) : C (Flow Sweep Sweep) :=
  if s.cur = 0 then .ok (.done s)
  else if isMarked (s.mem s.cur) then
    let m := s.mem.set s.cur (s.mem s.cur &&& ~~~MARK_BIT)
    .ok (.next { s with mem := m, cur := next m s.cur, prev := 0 })
  else
    let s := if isAlloc (s.mem s.cur) then releaseBlock e s else s
    let s := coalesce s
    .ok (.next { s with cur := next s.mem s.cur })

end

/-- The state after the collection, and its `int` result. -/
def markAndSweep (e : Env) (n : Nat) (s : State) : C (State × BitVec 32) := do
  let m ← markGlobals e s.toStatics n s.mem
  let m ← markStack e s.toStatics n m
  let m ← markHeap e s.toStatics n m
  let w ← loop (sweepStep e) n ⟨s.heap, 0, 0, m, s.finalized⟩
  .ok ({ s with mem := w.mem, finalized := w.finalized }, w.words_freed.setWidth 32)

/-! ## The interface -/

/-- `p` is what `calloc` returns, and `s.mem` memory as `calloc` leaves it. -/
def memInitialize (size : Word) (p : Word) (rsp rbp : Word) (s : State) : State × Int :=
  if s.initialized ≠ 0 then (s, 0)
  else
    let s := { s with initialized := -1 }
    if size ≤ 0 then (s, 0)
    else if size > SIZE_MASK then (s, 0)
    else
      let s := { s with total_heap_size := size * 6 / 5, heap := p }
      if s.heap = 0 then (s, 0)
      else
        let m := s.mem.set p (infoMake 0#32 0#32 (s.total_heap_size - BLOCK_SIZE))
        let m := m.set (p + 8) 0
        let m := m.set (p + 16) 0
        ({ s with mem := m, stack_top := rsp, frame_bottom := rbp, initialized := 1 }, 1)

def nextBlockStep (m : Mem) (size : Word) (cur : Word) : C (Flow Word Word) :=
  if cur = 0 then .ok (.done 0)
  else if m cur &&& SIZE_MASK ≥ size - BLOCK_SIZE && !isAlloc (m cur) then .ok (.done cur)
  else .ok (.next (next m cur))

def nextBlockOfSize (g : Statics) (n : Nat) (m : Mem) (size : Word) : C Word :=
  loop (nextBlockStep m size) n g.heap

/-- The block that the request gets, or 0, and the state after a collection if one ran. -/
def findBlock (e : Env) (n : Nat) (size : Word) (s : State) : C (Word × State) := do
  let alloced ← nextBlockOfSize s.toStatics n s.mem size
  if alloced ≠ 0 then .ok (alloced, s)
  else
    let (s', result) ← markAndSweep e n s
    if result = 0 then .ok (0, s')
    else
      let alloced ← nextBlockOfSize s'.toStatics n s'.mem size
      .ok (alloced, s')

/-- The two cases after the search. -/
def splitBlock (m : Mem) (alloced size finalize : Word) : Mem :=
  let alloced_size := m alloced &&& SIZE_MASK
  if alloced_size - size ≥ BLOCK_SIZE + 1 then
    let new := alloced + 8 * (BLOCK_SIZE + size)
    let m := m.set new (infoMake 0#32 0#32 (alloced_size - size - BLOCK_SIZE))
    let m := m.set (new + 8) (next m alloced)
    let m := m.set (new + 16) 0
    let m := m.set alloced (infoMake 1#32 0#32 size)
    let m := m.set (alloced + 8) new
    m.set (alloced + 16) finalize
  else
    let m := m.set alloced (infoMake 1#32 0#32 alloced_size)
    m.set (alloced + 16) finalize

/-- The pointer that the call returns, and the state after it. -/
def memAllocate (e : Env) (n : Nat) (size finalize rsp rbp : Word) (s : State) :
    C (Word × State) := do
  if s.initialized ≠ 1 then .ok (0, s)
  else if s.in_finalize_call then .error (.exit (-1))
  else
    let s := { s with stack_top := rsp, frame_bottom := rbp }
    let (alloced, s) ← findBlock e n size s
    if alloced = 0 then .ok (0, s)
    else .ok (alloced + 24, { s with mem := splitBlock s.mem alloced size finalize })

end Cs720.Alloc
