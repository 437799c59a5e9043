import Mathlib.Data.List.Pairwise
import Cs720.Threads.Switch

/-! # Runs of threads that switch to each other -/

namespace Cs720.Threads.Switch

open Cs720.Lib.X86

structure World where
  cpu : Machine
  /-- The thread that runs. -/
  current : Place
  /-- All threads that are not freed. -/
  live : List Place

inductive Label where
  /-- The running thread computes, and gets to `cpu`. -/
  | compute (cpu : Machine)
  | create (thread : Place) (work info : Word)
  | destroy (thread : Place)
  /-- The running thread calls `asm_yield`, with `ret` as the return address. -/
  | yield (next : Place) (ret : Word)

structure World.Good (w : World) : Prop where
  current : w.current ∈ w.live
  separate : w.live.Pairwise Place.Separate

/-- What the threads and `malloc` guarantee. A thread that computes may change every register, and
all memory but what the others keep. -/
def Allowed (l : Label) (w : World) : Prop :=
  match l with
  | .compute cpu => ∀ t ∈ w.live, t ≠ w.current → ∀ x, t.Keeps x → cpu.mem x = w.cpu.mem x
  | .create t _ _ => t.hi = t.lo + STACK_SIZE.toNat ∧ ∀ u ∈ w.live, t.Separate u
  | .destroy t => t ≠ w.current
  | .yield next _ => next ∈ w.live ∧ w.current.Room (w.cpu.reg .rsp)

section
variable (thread_terminate : Word)

def after (l : Label) (w : World) : World :=
  match l with
  | .compute cpu => { w with cpu }
  | .create t work info => { w with
      cpu.mem := thread_create thread_terminate t.tcb (BitVec.ofNat 64 t.lo) work info w.cpu.mem
      live := t :: w.live }
  | .destroy t => { w with live := w.live.erase t }
  | .yield next ret => { w with
      cpu := callYield w.cpu w.current.tcb next.tcb ret
      current := next }

/-- The first `n` steps of some threads. -/
structure Run (n : Nat) where
  world : Nat → World
  label : Nat → Label
  good : (world 0).Good
  allowed : ∀ k < n, Allowed (label k) (world k)
  next : ∀ k < n, world (k + 1) = after thread_terminate (label k) (world k)

end

section
variable {thread_terminate : Word} {n : Nat}

/-- From step `i` to the one before `j`, there is no switch to the thread, and it is not freed. -/
def Run.Away (r : Run thread_terminate n) (t : Place) (i j : Nat) : Prop :=
  ∀ k, i ≤ k → k < j → (∀ ret, r.label k ≠ .yield t ret) ∧ r.label k ≠ .destroy t

/-- The thread is there and does not run. -/
def World.Waits (w : World) (t : Place) : Prop := t ∈ w.live ∧ t ≠ w.current

/-! ## One step -/

variable {w : World} {l : Label} {t : Place}

theorem World.Good.separates (hw : w.Good) {u : Place} (ht : t ∈ w.live) (hu : u ∈ w.live)
    (hne : t ≠ u) : t.Separate u :=
  hw.separate.forall ht hu hne

theorem good_step (hw : w.Good) (hl : Allowed l w) : (after thread_terminate l w).Good := by
  cases l with
  | compute cpu => exact ⟨hw.current, hw.separate⟩
  | create t work info =>
    exact ⟨List.mem_cons_of_mem _ hw.current, List.pairwise_cons.mpr ⟨hl.2, hw.separate⟩⟩
  | destroy t =>
    exact ⟨(List.mem_erase_of_ne hl.symm).mpr hw.current, hw.separate.sublist List.erase_sublist⟩
  | yield next ret => exact ⟨hl.1, hw.separate⟩

theorem waits_step (ht : w.Waits t) (hyield : ∀ ret, l ≠ .yield t ret) (hfree : l ≠ .destroy t) :
    (after thread_terminate l w).Waits t := by
  obtain ⟨hlive, hne⟩ := ht
  cases l with
  | compute cpu => exact ⟨hlive, hne⟩
  | create u work info => exact ⟨List.mem_cons_of_mem _ hlive, hne⟩
  | destroy u =>
    refine ⟨(List.mem_erase_of_ne ?_).mpr hlive, hne⟩
    rintro rfl
    exact hfree rfl
  | yield next ret =>
    refine ⟨hlive, ?_⟩
    rintro rfl
    exact hyield ret rfl

/-- A step leaves the stack and the registers of a thread that waits. -/
theorem kept_step (hw : w.Good) (hl : Allowed l w) (ht : w.Waits t) {x : Word} (hx : t.Keeps x) :
    (after thread_terminate l w).cpu.mem x = w.cpu.mem x := by
  obtain ⟨hlive, hne⟩ := ht
  cases l with
  | compute cpu => exact hl t hlive hne x hx
  | create u work info => exact thread_create_frame hl.1 fun h => hl.2 t hlive x h hx.owns
  | destroy u => rfl
  | yield next ret =>
    exact callYield_frame hl.2 (hw.separates hlive hw.current hne x hx.owns)

/-! ## A run -/

variable (r : Run thread_terminate n)

theorem good_run {k : Nat} (hk : k ≤ n) : (r.world k).Good := by
  induction k with
  | zero => exact r.good
  | succ k ih =>
    rw [r.next k hk]
    exact good_step (ih (Nat.le_of_lt hk)) (r.allowed k hk)

theorem waits_run {i j : Nat} (hij : i ≤ j) (hj : j ≤ n) (haway : r.Away t i j)
    (ht : (r.world i).Waits t) : (r.world j).Waits t := by
  induction j, hij using Nat.le_induction with
  | base => exact ht
  | succ j hij ih =>
    obtain ⟨hyield, hfree⟩ := haway j hij (Nat.lt_succ_self j)
    rw [r.next j hj]
    refine waits_step (ih (Nat.le_of_lt hj) fun k hik hkj => ?_) hyield hfree
    exact haway k hik (Nat.lt_succ_of_lt hkj)

/-- What it keeps stays until a switch to it, and that switch leaves it too. -/
theorem kept_run {i j : Nat} (hij : i ≤ j) (hj : j < n) (haway : r.Away t i j)
    (ht : (r.world i).Waits t) {x : Word} (hx : t.Keeps x) :
    (r.world (j + 1)).cpu.mem x = (r.world i).cpu.mem x := by
  have hstep : ∀ k, i ≤ k → k ≤ j →
      (r.world (k + 1)).cpu.mem x = (r.world k).cpu.mem x := by
    intro k hik hkj
    have hwaits : (r.world k).Waits t := waits_run r hik (by omega)
      (fun k' hik' hk' => haway k' hik' (by omega)) ht
    rw [r.next k (by omega)]
    exact kept_step (good_run r (by omega)) (r.allowed k (by omega)) hwaits hx
  induction j, hij using Nat.le_induction with
  | base => exact hstep i (Nat.le_refl i) (Nat.le_refl i)
  | succ j hij ih =>
    rw [hstep (j + 1) (by omega) (Nat.le_refl _)]
    refine ih (by omega) (fun k hik hkj => haway k hik (by omega)) fun k hik hkj => ?_
    exact hstep k hik (by omega)

/-! ## What a thread comes back to -/

/-- A switch to a thread that waited gives what its memory had when it began to wait. -/
theorem context_run {i j : Nat} (hij : i ≤ j) (hj : j < n) (haway : r.Away t i j)
    (ht : (r.world i).Waits t) {ret : Word} (hl : r.label j = .yield t ret)
    (hroom : t.Room (contextAt (r.world i).cpu.mem t.tcb).rsp) :
    contextOf (r.world (j + 1)).cpu = contextAt (r.world i).cpu.mem t.tcb := by
  rw [← context_congr (fun x hx => kept_run r hij hj haway ht hx) hroom, r.next j hj, hl]
  exact context_callYield

/-- The registers that a function leaves as they were, for its caller. -/
def calleeSaved : List Reg := [.rbx, .r12, .r13, .r14, .r15, .rbp, .rsp]

theorem calleeSaved_of_context {c c' : Machine} {rip rdi : Word}
    (h : contextOf c' = { contextOf c with rip, rdi }) : ∀ q ∈ calleeSaved, c'.reg q = c.reg q := by
  simp only [contextOf, Context.mk.injEq] at h
  obtain ⟨hrbx, hr12, hr13, hr14, hr15, hrbp, hrsp, -, -⟩ := h
  simp only [calleeSaved, List.forall_mem_cons]
  exact ⟨hrbx, hr12, hr13, hr14, hr15, hrbp, hrsp, List.forall_mem_nil _⟩

/-- A thread that has called `asm_yield` comes back to its call. -/
theorem context_returns {i j : Nat} {next : Place} {ret ret' : Word} (hij : i ≤ j) (hj : j < n)
    (hi : r.label i = .yield next ret) (hl : r.label j = .yield (r.world i).current ret')
    (haway : r.Away (r.world i).current i j) :
    contextOf (r.world (j + 1)).cpu = { contextOf (r.world i).cpu with
      rip := ret
      rdi := (r.world i).current.tcb } := by
  have hallowed := r.allowed i (by omega)
  have hnext := r.next i (by omega)
  rw [hi] at hallowed hnext
  have hsaved : contextAt (r.world (i + 1)).cpu.mem (r.world i).current.tcb =
      { contextOf (r.world i).cpu with
        rip := ret
        rdi := (r.world i).current.tcb } := by
    rw [hnext]
    exact context_saved hallowed.2
  rw [← hsaved]
  rcases Nat.eq_or_lt_of_le hij with rfl | hlt
  · -- It has switched to itself.
    rw [hi, Label.yield.injEq] at hl
    rw [hnext, ← hl.1]
    exact context_callYield
  · refine context_run r hlt hj (fun k hik => haway k (by omega)) ?_ hl ?_
    · rw [hnext]
      refine ⟨(good_run r (by omega)).current, ?_⟩
      rintro heq
      exact (haway i (Nat.le_refl i) hlt).1 ret (by rw [hi, heq]; rfl)
    · rw [hsaved]
      exact hallowed.2

theorem context_starts {i j : Nat} {t : Place} {work info ret : Word} (hij : i ≤ j) (hj : j < n)
    (hi : r.label i = .create t work info) (hl : r.label j = .yield t ret) (haway : r.Away t i j) :
    let c := (r.world (j + 1)).cpu
    c.rip = work ∧ c.reg .rdi = info ∧ c.mem.load (c.reg .rsp) = thread_terminate := by
  intro c
  have hallowed := r.allowed i (by omega)
  have hnext := r.next i (by omega)
  have hlt : i < j := by
    refine Nat.lt_of_le_of_ne hij ?_
    rintro rfl
    exact Label.noConfusion (hi.symm.trans hl)
  rw [hi] at hallowed hnext
  obtain ⟨hsize, hfresh⟩ := hallowed
  have hbig : STACK_SIZE.toNat = 65536 := rfl
  have hwaits : (r.world (i + 1)).Waits t := by
    rw [hnext]
    exact ⟨List.mem_cons_self, (hfresh _ (good_run r (by omega)).current).ne⟩
  obtain ⟨hrip, hrdi, hterminate, htop⟩ :=
    context_created thread_terminate work info (r.world i).cpu.mem hsize
  have hmem : (r.world (i + 1)).cpu.mem = thread_create thread_terminate t.tcb
      (BitVec.ofNat 64 t.lo) work info (r.world i).cpu.mem := by rw [hnext]; rfl
  rw [← hmem] at hrip hrdi hterminate htop
  have haway' : r.Away t (i + 1) j := fun k hik => haway k (by omega)
  have hroom : t.Room (contextAt (r.world (i + 1)).cpu.mem t.tcb).rsp := ⟨by omega, by omega⟩
  have hcontext := context_run r hlt hj haway' hwaits hl hroom
  have hrsp : c.reg .rsp = (contextAt (r.world (i + 1)).cpu.mem t.tcb).rsp :=
    congrArg Context.rsp hcontext
  refine ⟨(congrArg Context.rip hcontext).trans hrip, (congrArg Context.rdi hcontext).trans hrdi, ?_⟩
  rw [hrsp]
  refine Eq.trans ?_ hterminate
  refine load_congr fun k hk => kept_run r hlt hj haway' hwaits ?_
  exact keeps_word (by omega) (by omega) hk

end

/-- A thread comes back to where it called `asm_yield`, as if the call had done nothing. The first
switch to a new thread is like a call of `work` by `thread_terminate`. -/
theorem switches_transparent {thread_terminate : Word} {n : Nat} (r : Run thread_terminate n) :
    (∀ i j next ret ret', i ≤ j → j < n → r.label i = .yield next ret →
      r.label j = .yield (r.world i).current ret' → r.Away (r.world i).current i j →
      let c := (r.world i).cpu
      let c' := (r.world (j + 1)).cpu
      c'.rip = ret ∧ ∀ q ∈ calleeSaved, c'.reg q = c.reg q) ∧
    (∀ i j t work info ret, i ≤ j → j < n → r.label i = .create t work info →
      r.label j = .yield t ret → r.Away t i j →
      let c := (r.world (j + 1)).cpu
      c.rip = work ∧ c.reg .rdi = info ∧ c.mem.load (c.reg .rsp) = thread_terminate) := by
  constructor
  · intro i j next ret ret' hij hj hi hl haway
    have hcontext := context_returns r hij hj hi hl haway
    exact ⟨congrArg Context.rip hcontext, calleeSaved_of_context hcontext⟩
  · intro i j t work info ret hij hj hi hl haway
    exact context_starts r hij hj hi hl haway

/-! A thread creates another one, switches to it, and gets back. -/

def parent : Place := ⟨0x1000, 0x100000, 0x200000, by decide, by decide, by decide⟩

def child : Place := ⟨0x2000, 0x300000, 0x310000, by decide, by decide, by decide⟩

def startWorld : World where
  cpu := ⟨fun q => if q = .rsp then 0x180000 else 5, 0, fun _ => 0⟩
  current := parent
  live := [parent]

def childWorld : World :=
  after 11 (.yield child 66) (after 11 (.create child 7 9) startWorld)

def backLabel : Nat → Label
  | 0 => .create child 7 9
  | 1 => .yield child 66
  | 2 => .compute { childWorld.cpu with reg := fun q => if q = .rsp then 0x30ff00 else 3 }
  | _ => .yield parent 67

def backWorld : Nat → World
  | 0 => startWorld
  | k + 1 => after 11 (backLabel k) (backWorld k)

theorem child_separate : child.Separate parent := by
  intro x hchild hparent
  have h₁ : 0x2000 ≤ x.toNat ∧ x.toNat < 0x2000 + 120 ∨ 0x300000 ≤ x.toNat ∧ x.toNat < 0x310000 :=
    hchild
  have h₂ : 0x1000 ≤ x.toNat ∧ x.toNat < 0x1000 + 120 ∨ 0x100000 ≤ x.toNat ∧ x.toNat < 0x200000 :=
    hparent
  omega

def back : Run 11 4 where
  world := backWorld
  label := backLabel
  good := ⟨List.mem_singleton_self parent, List.pairwise_singleton _ _⟩
  allowed := by
    intro k hk
    match k, hk with
    | 0, _ =>
      refine ⟨rfl, fun u hu => ?_⟩
      rw [List.mem_singleton.mp hu]
      exact child_separate
    | 1, _ => exact ⟨List.mem_cons_self, by decide⟩
    | 2, _ => exact fun t _ _ x _ => rfl
    | 3, _ => exact ⟨List.mem_cons_of_mem _ List.mem_cons_self, by decide⟩
  next := fun _ _ => rfl

theorem switches_transparent_back :
    (back.world 4).cpu.rip = 66 ∧ (back.world 4).cpu.reg .rbx = 5 ∧
      (back.world 2).cpu.rip = 7 ∧ (back.world 2).cpu.reg .rdi = 9 := by
  obtain ⟨hreturns, hstarts⟩ := switches_transparent back
  obtain ⟨hret, hregs⟩ := hreturns 1 3 child 66 67 (by decide) (by decide) rfl rfl (by
    intro k hik hkj
    match k, hik, hkj with
    | 1, _, _ => exact ⟨fun ret h => by injection h with h; exact absurd h (by decide), nofun⟩
    | 2, _, _ => exact ⟨nofun, nofun⟩)
  obtain ⟨hwork, hinfo, -⟩ := hstarts 0 1 child 7 9 66 (by decide) (by decide) rfl rfl (by
    intro k _ hk
    match k, hk with
    | 0, _ => exact ⟨nofun, nofun⟩)
  exact ⟨hret, hregs .rbx (by decide), hwork, hinfo⟩

end Cs720.Threads.Switch
