import Cs720.Lib.X86
import Cs720.Threads.Code

/-! # The context switch (`A3/thread_asm.s`, `thread_create` in `A3/thread.c`)

On the registers of the processor and the bytes of memory. The rest of the model has what comes out
of it here: `savedRegs` and `firstRegs`.
-/

namespace Cs720.Threads.Switch

open Cs720.Lib.X86

/-! ## `asm_yield` -/

def prologue : List Instr :=
  [.push .rbp,
   .mov .rsp .rbp]

/-- save current registers into FROM -/
def saves : List Instr :=
  [.store .rbx 0 .rdi,
   .store .r12 8 .rdi,
   .store .r13 16 .rdi,
   .store .r14 24 .rdi,
   .store .r15 32 .rdi,
   .store .rbp 40 .rdi,
   .store .rsp 48 .rdi,
   .store .rdi 64 .rdi,
   .store .rsi 72 .rdi]

/-- load TO into current registers -/
def loads : List Instr :=
  [.load 0 .rsi .rbx,
   .load 8 .rsi .r12,
   .load 16 .rsi .r13,
   .load 24 .rsi .r14,
   .load 32 .rsi .r15,
   .load 40 .rsi .rbp,
   .load 48 .rsi .rsp,
   .load 64 .rsi .rdi,
   .load 72 .rsi .rsi]

def epilogue : List Instr :=
  [.mov .rbp .rsp,
   .pop .rbp,
   .ret]

/-- %rdi = FROM*, %rsi = TO* -/
def asm_yield : List Instr := prologue ++ saves ++ loads ++ epilogue

/-- The call `asm_yield(old, next)`, from the registers before the call instruction. -/
def callYield (c : Machine) (old next ret : Word) : Machine :=
  exec (((c.set .rdi old).set .rsi next).call ret) asm_yield

/-! ## `thread_create` -/

/-- Where a `tcb_t` has its fields. -/
def Offset.rbx : Word := 0
def Offset.r12 : Word := 8
def Offset.r13 : Word := 16
def Offset.r14 : Word := 24
def Offset.r15 : Word := 32
def Offset.rbp : Word := 40
def Offset.rsp : Word := 48
def Offset.rdi : Word := 64
def Offset.rsi : Word := 72
def Offset.stack : Word := 80

/-- What it writes on the stack and in the registers of the TCB that `malloc` gives. The other
fields of the TCB, the table and the queue are left out. -/
def thread_create (thread_terminate thread stack work info : Word) (m : Memory) : Memory :=
  let m := m.store (thread + Offset.stack) stack
  -- init registers
  let m := m.store (thread + Offset.rbx) 0
  let m := m.store (thread + Offset.r12) 0
  let m := m.store (thread + Offset.r13) 0
  let m := m.store (thread + Offset.r14) 0
  let m := m.store (thread + Offset.r15) 0
  -- create empty stack
  let m := m.store (thread + Offset.rsp) (m.load (thread + Offset.stack) + STACK_SIZE)
  let m := m.store (thread + Offset.rbp) (m.load (thread + Offset.rsp))
  -- push cleanup address to stack
  let m := m.store (thread + Offset.rsp) (m.load (thread + Offset.rsp) - 8)
  let m := m.store (m.load (thread + Offset.rsp)) thread_terminate
  -- push work function address to stack
  let m := m.store (thread + Offset.rsp) (m.load (thread + Offset.rsp) - 8)
  let m := m.store (m.load (thread + Offset.rsp)) work
  let m := m.store (thread + Offset.rbp) (m.load (thread + Offset.rsp) - 8)
  -- work function arguments
  let m := m.store (thread + Offset.rdi) info
  m.store (thread + Offset.rsi) 0

/-! ## The memory of a thread -/

/-- `sizeof(tcb_t)` -/
def TCB_SIZE : Nat := 120

/-- A TCB, and the bytes of its stack. -/
structure Place where
  tcb : Word
  lo : Nat
  hi : Nat
  tcb_fits : tcb.toNat + TCB_SIZE ≤ 2 ^ 64
  stack_fits : hi ≤ 2 ^ 64
  apart : tcb.toNat + TCB_SIZE ≤ lo ∨ hi ≤ tcb.toNat
  deriving DecidableEq

/-- The byte at `x` belongs to the thread. -/
def Place.Owns (p : Place) (x : Word) : Prop :=
  (p.tcb.toNat ≤ x.toNat ∧ x.toNat < p.tcb.toNat + TCB_SIZE) ∨ (p.lo ≤ x.toNat ∧ x.toNat < p.hi)

/-- It is on the stack, or in one of the registers of the TCB. -/
def Place.Keeps (p : Place) (x : Word) : Prop :=
  (p.tcb.toNat ≤ x.toNat ∧ x.toNat < p.tcb.toNat + 80) ∨ (p.lo ≤ x.toNat ∧ x.toNat < p.hi)

def Place.Separate (p q : Place) : Prop := ∀ x, p.Owns x → ¬ q.Owns x

/-- The stack has room for the return address and the frame pointer. -/
def Place.Room (p : Place) (rsp : Word) : Prop := p.lo + 16 ≤ rsp.toNat ∧ rsp.toNat ≤ p.hi

instance (p : Place) (rsp : Word) : Decidable (p.Room rsp) := inferInstanceAs (Decidable (_ ∧ _))

section
variable {p q : Place} {x : Word}

theorem Place.Keeps.owns (h : p.Keeps x) : p.Owns x := by
  unfold Place.Keeps at h
  unfold Place.Owns TCB_SIZE
  omega

theorem Place.Separate.symm (h : p.Separate q) : q.Separate p := fun x hq hp => h x hp hq

/-- No thread is separate from itself: it has a TCB. -/
theorem Place.Separate.ne (h : p.Separate q) : p ≠ q := by
  rintro rfl
  have howns : p.Owns p.tcb := Or.inl ⟨Nat.le_refl _, by simp [TCB_SIZE]⟩
  exact h p.tcb howns howns

instance : Std.Symm Place.Separate := ⟨fun _ _ h => h.symm⟩

theorem keeps_field {i k : Word} (hi : i ≤ 72) (hk : k < 8) : p.Keeps (p.tcb + i + k) := by
  have hfits := p.tcb_fits
  unfold TCB_SIZE at hfits
  left
  bv_omega

theorem keeps_word {a k : Word} (hlo : p.lo ≤ a.toNat) (hhi : a.toNat + 8 ≤ p.hi) (hk : k < 8) :
    p.Keeps (a + k) := by
  have hfits := p.stack_fits
  right
  bv_omega

theorem apart_word {a i : Word} (hlo : p.lo ≤ a.toNat) (hhi : a.toNat + 8 ≤ p.hi) (hi : i ≤ 80) :
    Apart (p.tcb + i) a := by
  have h₁ := p.tcb_fits
  have h₂ := p.stack_fits
  have h₃ := p.apart
  unfold TCB_SIZE at h₁ h₃
  rcases h₃ with h | h
  · exact apart_of_add_le (by bv_omega) (by omega)
  · exact (apart_of_add_le (by bv_omega) (by bv_omega)).symm

end

/-! ## What the code does -/

def regsOf (c : Machine) : Regs :=
  ⟨c.reg .rbx, c.reg .r12, c.reg .r13, c.reg .r14, c.reg .r15, c.reg .rbp, c.reg .rsp,
    c.reg .rdi, c.reg .rsi⟩

def regsAt (m : Memory) (t : Word) : Regs :=
  ⟨m.load (t + Offset.rbx), m.load (t + Offset.r12), m.load (t + Offset.r13),
    m.load (t + Offset.r14), m.load (t + Offset.r15), m.load (t + Offset.rbp),
    m.load (t + Offset.rsp), m.load (t + Offset.rdi), m.load (t + Offset.rsi)⟩

/-- The registers that a switch gives, and where it goes to. -/
structure Context where
  rbx : Word
  r12 : Word
  r13 : Word
  r14 : Word
  r15 : Word
  rbp : Word
  rsp : Word
  rip : Word
  rdi : Word

def contextOf (c : Machine) : Context :=
  ⟨c.reg .rbx, c.reg .r12, c.reg .r13, c.reg .r14, c.reg .r15, c.reg .rbp, c.reg .rsp, c.rip,
    c.reg .rdi⟩

/-- What the epilogue makes of the registers in a TCB. Only the saved frame pointer tells it where
the stack is. -/
def contextAt (m : Memory) (t : Word) : Context :=
  let r := regsAt m t
  ⟨r.rbx, r.r12, r.r13, r.r14, r.r15, m.load r.rbp, r.rbp + 16, m.load (r.rbp + 8), r.rdi⟩

section
variable {c : Machine}

theorem regs_saves : regsAt (exec c saves).mem (c.reg .rdi) = regsOf c := by
  simp (disch := decide) only [saves, exec_cons, exec_nil, Machine.step, mem_write, reg_write,
    regsAt, regsOf, Offset.rbx, Offset.r12, Offset.r13, Offset.r14, Offset.r15, Offset.rbp,
    Offset.rsp, Offset.rdi, Offset.rsi, load_store, load_store_offset]

theorem load_saves {a : Word} (h : ∀ i ≤ 72, Apart a (c.reg .rdi + i)) :
    (exec c saves).mem.load a = c.mem.load a := by
  simp only [saves, exec_cons, exec_nil, Machine.step, mem_write, reg_write]
  rw [load_store_of_apart (h 72 (by decide)), load_store_of_apart (h 64 (by decide)),
    load_store_of_apart (h 48 (by decide)), load_store_of_apart (h 40 (by decide)),
    load_store_of_apart (h 32 (by decide)), load_store_of_apart (h 24 (by decide)),
    load_store_of_apart (h 16 (by decide)), load_store_of_apart (h 8 (by decide)),
    load_store_of_apart (h 0 (by decide))]

/-- It writes in the TCB only. -/
theorem mem_saves {x : Word} (h : ∀ i ≤ 72, 8 ≤ (x - (c.reg .rdi + i)).toNat) :
    (exec c saves).mem x = c.mem x := by
  simp only [saves, exec_cons, exec_nil, Machine.step, mem_write, reg_write]
  rw [store_of_apart (h 72 (by decide)), store_of_apart (h 64 (by decide)),
    store_of_apart (h 48 (by decide)), store_of_apart (h 40 (by decide)),
    store_of_apart (h 32 (by decide)), store_of_apart (h 24 (by decide)),
    store_of_apart (h 16 (by decide)), store_of_apart (h 8 (by decide)),
    store_of_apart (h 0 (by decide))]

theorem regs_loads : regsOf (exec c loads) = regsAt c.mem (c.reg .rsi) := by
  simp [loads, regsOf, regsAt, Machine.step, Machine.set, Offset.rbx, Offset.r12, Offset.r13,
    Offset.r14, Offset.r15, Offset.rbp, Offset.rsp, Offset.rdi, Offset.rsi]

theorem mem_loads : (exec c loads).mem = c.mem := rfl

theorem mem_epilogue : (exec c epilogue).mem = c.mem := rfl

theorem context_epilogue :
    contextOf (exec c epilogue) = { contextOf c with
      rbp := c.mem.load (c.reg .rbp)
      rsp := c.reg .rbp + 16
      rip := c.mem.load (c.reg .rbp + 8) } := by
  have hadd : c.reg .rbp + 8#64 + 8#64 = c.reg .rbp + 16#64 := by
    rw [BitVec.add_assoc]
    rfl
  simp [epilogue, contextOf, Machine.step, Machine.set, hadd]

theorem context_loads :
    contextOf (exec (exec c loads) epilogue) = contextAt c.mem (c.reg .rsi) := by
  have hrbp : (exec c loads).reg .rbp = (regsAt c.mem (c.reg .rsi)).rbp :=
    congrArg Regs.rbp regs_loads
  have hregs : contextOf (exec c loads) =
      let r := regsOf (exec c loads)
      ⟨r.rbx, r.r12, r.r13, r.r14, r.r15, r.rbp, r.rsp, c.rip, r.rdi⟩ := rfl
  rw [context_epilogue, hregs, regs_loads, mem_loads, hrbp]
  rfl

end

section
variable {c : Machine} {old next ret : Word}

def entry (c : Machine) (old next ret : Word) : Machine :=
  ((c.set .rdi old).set .rsi next).call ret

theorem callYield_eq : callYield c old next ret =
    exec (exec (exec (exec (entry c old next ret) prologue) saves) loads) epilogue := by
  rw [callYield, asm_yield, exec_append, exec_append, exec_append, entry]

theorem mem_callYield : (callYield c old next ret).mem =
    (exec (exec (entry c old next ret) prologue) saves).mem := by
  rw [callYield_eq, mem_epilogue, mem_loads]

/-- A switch saves what the list of threads has in its `savedRegs`. -/
theorem regs_callYield : regsAt (callYield c old next ret).mem old =
    savedRegs (regsOf (entry c old next ret)) old.toNat next.toNat := by
  have hsaves := regs_saves (c := exec (entry c old next ret) prologue)
  rw [mem_callYield]
  refine hsaves.trans ?_
  simp [regsOf, savedRegs, prologue, entry, Machine.step, Machine.call, Machine.pushed, Machine.set]

/-- It goes on where the memory that it leaves says. -/
theorem context_callYield :
    contextOf (callYield c old next ret) = contextAt (callYield c old next ret).mem next := by
  rw [callYield_eq, context_loads, mem_epilogue, mem_loads]
  rfl

/-- The caller's frame pointer and the return address are on the stack. -/
theorem mem_prologue : (exec (entry c old next ret) prologue).mem =
    (c.mem.store (c.reg .rsp - 8) ret).store (c.reg .rsp - 8 - 8) (c.reg .rbp) := by
  simp [prologue, entry, Machine.step, Machine.call, Machine.pushed, Machine.set, Machine.write]

theorem rdi_prologue : (exec (entry c old next ret) prologue).reg .rdi = old := by
  simp [prologue, entry, Machine.step, Machine.call, Machine.pushed, Machine.set, Machine.write]

section
variable {p : Place}

/-- The thread that called it goes on after its call, with the registers that it had there. -/
theorem context_saved (hroom : p.Room (c.reg .rsp)) :
    contextAt (callYield c p.tcb next ret).mem p.tcb =
      { contextOf c with rip := ret, rdi := p.tcb } := by
  obtain ⟨hlo, hhi⟩ := hroom
  have hfits := p.stack_fits
  -- The two words are not in the TCB.
  have hframe : (callYield c p.tcb next ret).mem.load (c.reg .rsp - 8 - 8) = c.reg .rbp := by
    rw [mem_callYield, load_saves, mem_prologue, load_store]
    intro i hi
    rw [rdi_prologue]
    exact (apart_word (by bv_omega) (by bv_omega) (by bv_omega)).symm
  have hret : (callYield c p.tcb next ret).mem.load (c.reg .rsp - 8) = ret := by
    rw [mem_callYield, load_saves, mem_prologue, load_store_of_apart (by constructor <;> bv_omega),
      load_store]
    intro i hi
    rw [rdi_prologue]
    exact (apart_word (by bv_omega) (by bv_omega) (by bv_omega)).symm
  have hslot : c.reg .rsp - 8 - 8 + 8 = c.reg .rsp - 8 := by bv_omega
  have hrsp : c.reg .rsp - 8 - 8 + 16 = c.reg .rsp := by bv_omega
  have hrbp : (savedRegs (regsOf (entry c p.tcb next ret)) p.tcb.toNat next.toNat).rbp =
      c.reg .rsp - 8 - 8 := by
    simp [savedRegs, regsOf, entry, Machine.call, Machine.pushed, Machine.set]
  simp only [contextAt, regs_callYield, hrbp, hframe, hslot, hret, hrsp]
  simp [savedRegs, regsOf, contextOf, entry, Machine.call, Machine.pushed, Machine.set,
    Machine.write]

/-- What it writes belongs to the thread that called it. -/
theorem callYield_frame (hroom : p.Room (c.reg .rsp)) {x : Word} (hx : ¬ p.Owns x) :
    (callYield c p.tcb next ret).mem x = c.mem x := by
  obtain ⟨hlo, hhi⟩ := hroom
  have hfits := p.tcb_fits
  unfold Place.Owns at hx
  unfold TCB_SIZE at hx hfits
  rw [mem_callYield, mem_saves, mem_prologue, store_of_apart (by bv_omega),
    store_of_apart (by bv_omega)]
  intro i hi
  rw [rdi_prologue]
  bv_omega

end

end

/-- The memory of the thread has all that a switch to it needs. -/
theorem context_congr {p : Place} {m m' : Memory} (h : ∀ x, p.Keeps x → m' x = m x)
    (hroom : p.Room (contextAt m p.tcb).rsp) : contextAt m' p.tcb = contextAt m p.tcb := by
  have hfield : ∀ i ≤ 72, m'.load (p.tcb + i) = m.load (p.tcb + i) :=
    fun i hi => load_congr fun k hk => h _ (keeps_field hi hk)
  have hregs : regsAt m' p.tcb = regsAt m p.tcb := by
    simp (disch := decide) only [regsAt, hfield]
  obtain ⟨hlo, hhi⟩ := hroom
  simp only [contextAt] at hlo hhi
  have hfits := p.stack_fits
  generalize hr : (regsAt m p.tcb).rbp = slot at hlo hhi
  have hframe : m'.load slot = m.load slot :=
    load_congr fun k hk => h _ (keeps_word (by bv_omega) (by bv_omega) hk)
  have hret : m'.load (slot + 8) = m.load (slot + 8) :=
    load_congr fun k hk => h _ (keeps_word (by bv_omega) (by bv_omega) hk)
  simp only [contextAt, hregs, hr, hframe, hret]

/-! ## A new thread -/

section
variable {thread_terminate t stack work info : Word} {m : Memory}

theorem thread_create_eq (h₁ : Apart (t + Offset.rsp) (stack + STACK_SIZE - 8))
    (h₂ : Apart (t + Offset.rsp) (stack + STACK_SIZE - 8 - 8)) :
    thread_create thread_terminate t stack work info m =
      ((((((((((((((m.store (t + Offset.stack) stack).store (t + Offset.rbx) 0).store
        (t + Offset.r12) 0).store (t + Offset.r13) 0).store (t + Offset.r14) 0).store
        (t + Offset.r15) 0).store (t + Offset.rsp) (stack + STACK_SIZE)).store
        (t + Offset.rbp) (stack + STACK_SIZE)).store
        (t + Offset.rsp) (stack + STACK_SIZE - 8)).store
        (stack + STACK_SIZE - 8) thread_terminate).store
        (t + Offset.rsp) (stack + STACK_SIZE - 8 - 8)).store
        (stack + STACK_SIZE - 8 - 8) work).store
        (t + Offset.rbp) (stack + STACK_SIZE - 8 - 8 - 8)).store (t + Offset.rdi) info).store
        (t + Offset.rsi) 0 := by
  simp (disch := decide) only [thread_create, load_store, load_store_offset,
    load_store_of_apart h₁, load_store_of_apart h₂]

theorem toNat_top {p : Place} (hsize : p.hi = p.lo + STACK_SIZE.toNat) :
    (BitVec.ofNat 64 p.lo + STACK_SIZE - 8).toNat = p.hi - 8 ∧
      (BitVec.ofNat 64 p.lo + STACK_SIZE - 8 - 8).toNat = p.hi - 16 := by
  have hfits := p.stack_fits
  unfold STACK_SIZE at hsize ⊢
  constructor <;> bv_omega

variable {p : Place} (hsize : p.hi = p.lo + STACK_SIZE.toNat)
include hsize

theorem apart_top {i : Word} (hi : i ≤ 80) :
    Apart (p.tcb + i) (BitVec.ofNat 64 p.lo + STACK_SIZE - 8) ∧
      Apart (p.tcb + i) (BitVec.ofNat 64 p.lo + STACK_SIZE - 8 - 8) := by
  obtain ⟨h₁, h₂⟩ := toNat_top hsize
  have hbig : STACK_SIZE.toNat = 65536 := rfl
  exact ⟨apart_word (by omega) (by omega) hi, apart_word (by omega) (by omega) hi⟩

/-- A new thread has the registers that the list of threads has in its `firstRegs`. -/
theorem regs_created : regsAt (thread_create thread_terminate p.tcb (BitVec.ofNat 64 p.lo) work info
    m) p.tcb = firstRegs p.lo info := by
  rw [thread_create_eq (apart_top hsize (by decide)).1 (apart_top hsize (by decide)).2]
  have h₁ : ∀ i ≤ 80, ∀ (m' : Memory) (v : Word), (m'.store (BitVec.ofNat 64 p.lo + STACK_SIZE - 8)
      v).load (p.tcb + i) = m'.load (p.tcb + i) :=
    fun i hi _ _ => load_store_of_apart (apart_top hsize hi).1
  have h₂ : ∀ i ≤ 80, ∀ (m' : Memory) (v : Word), (m'.store (BitVec.ofNat 64 p.lo + STACK_SIZE - 8
      - 8) v).load (p.tcb + i) = m'.load (p.tcb + i) :=
    fun i hi _ _ => load_store_of_apart (apart_top hsize hi).2
  simp (disch := decide) only [regsAt, load_store, load_store_offset, h₁, h₂, firstRegs]

theorem stack_created :
    let m' := thread_create thread_terminate p.tcb (BitVec.ofNat 64 p.lo) work info m
    m'.load (BitVec.ofNat 64 p.lo + STACK_SIZE - 8 - 8) = work ∧
      m'.load (BitVec.ofNat 64 p.lo + STACK_SIZE - 8) = thread_terminate := by
  have h₁ : ∀ i ≤ 80, ∀ (m' : Memory) (v : Word), (m'.store (p.tcb + i) v).load
      (BitVec.ofNat 64 p.lo + STACK_SIZE - 8) = m'.load (BitVec.ofNat 64 p.lo + STACK_SIZE - 8) :=
    fun i hi _ _ => load_store_of_apart (apart_top hsize hi).1.symm
  have h₂ : ∀ i ≤ 80, ∀ (m' : Memory) (v : Word), (m'.store (p.tcb + i) v).load
      (BitVec.ofNat 64 p.lo + STACK_SIZE - 8 - 8) =
        m'.load (BitVec.ofNat 64 p.lo + STACK_SIZE - 8 - 8) :=
    fun i hi _ _ => load_store_of_apart (apart_top hsize hi).2.symm
  have htwo : Apart (BitVec.ofNat 64 p.lo + STACK_SIZE - 8)
      (BitVec.ofNat 64 p.lo + STACK_SIZE - 8 - 8) := by
    constructor <;> bv_omega
  simp only
  rw [thread_create_eq (apart_top hsize (by decide)).1 (apart_top hsize (by decide)).2]
  simp (disch := decide) only [load_store, h₁, h₂, load_store_of_apart htwo, and_self]

theorem thread_create_frame {x : Word} (hx : ¬ p.Owns x) :
    thread_create thread_terminate p.tcb (BitVec.ofNat 64 p.lo) work info m x = m x := by
  have hfits := p.tcb_fits
  have htop := p.stack_fits
  obtain ⟨h₁, h₂⟩ := toNat_top hsize
  have hbig : STACK_SIZE.toNat = 65536 := rfl
  rw [thread_create_eq (apart_top hsize (by decide)).1 (apart_top hsize (by decide)).2]
  unfold Place.Owns at hx
  unfold TCB_SIZE at hx hfits
  have hfield : ∀ i ≤ 80, ∀ (m' : Memory) (v : Word), (m'.store (p.tcb + i) v) x = m' x := by
    intro i hi m' v
    exact store_of_apart (by bv_omega)
  have hterminate : ∀ (m' : Memory) (v : Word),
      (m'.store (BitVec.ofNat 64 p.lo + STACK_SIZE - 8) v) x = m' x := by
    intro m' v
    generalize BitVec.ofNat 64 p.lo + STACK_SIZE - 8 = a at h₁ ⊢
    exact store_of_apart (by bv_omega)
  have hwork : ∀ (m' : Memory) (v : Word),
      (m'.store (BitVec.ofNat 64 p.lo + STACK_SIZE - 8 - 8) v) x = m' x := by
    intro m' v
    generalize BitVec.ofNat 64 p.lo + STACK_SIZE - 8 - 8 = a at h₂ ⊢
    exact store_of_apart (by bv_omega)
  simp (disch := decide) only [hfield, hterminate, hwork]

variable (thread_terminate work info m) in
/-- The first switch to it enters `work`. -/
theorem context_created :
    let m' := thread_create thread_terminate p.tcb (BitVec.ofNat 64 p.lo) work info m
    let k := contextAt m' p.tcb
    k.rip = work ∧ k.rdi = info ∧ m'.load k.rsp = thread_terminate ∧
      k.rsp.toNat + 8 = p.hi := by
  intro m' k
  have hregs : regsAt m' p.tcb = firstRegs p.lo info := regs_created hsize
  obtain ⟨hwork, hterminate⟩ : m'.load (BitVec.ofNat 64 p.lo + STACK_SIZE - 8 - 8) = work ∧
      m'.load (BitVec.ofNat 64 p.lo + STACK_SIZE - 8) = thread_terminate := stack_created hsize
  have hrsp : k.rsp = BitVec.ofNat 64 p.lo + STACK_SIZE - 8 := by
    simp only [k, contextAt, hregs, firstRegs]
    bv_omega
  have hrip : k.rip = work := by
    have hslot : (firstRegs p.lo info).rbp + 8 = BitVec.ofNat 64 p.lo + STACK_SIZE - 8 - 8 := by
      simp only [firstRegs]
      bv_omega
    have hload : k.rip = m'.load ((regsAt m' p.tcb).rbp + 8) := rfl
    rw [hload, hregs, hslot, hwork]
  have hrdi : k.rdi = info := congrArg Regs.rdi hregs
  obtain ⟨htop, -⟩ := toNat_top hsize
  have hbig : STACK_SIZE.toNat = 65536 := rfl
  rw [hrsp]
  exact ⟨hrip, hrdi, hterminate, by omega⟩

end

end Cs720.Threads.Switch
