import Mathlib.Data.BitVec

/-! # Some instructions of x86-64, on the registers and the bytes of memory -/

namespace Cs720.Lib.X86

abbrev Word := BitVec 64

/-! ## Memory -/

abbrev Memory := Word → BitVec 8

/-- The word at `a`, the low byte first. -/
def Memory.load (m : Memory) (a : Word) : Word :=
  m (a + 7) ++ m (a + 6) ++ m (a + 5) ++ m (a + 4) ++ m (a + 3) ++ m (a + 2) ++ m (a + 1) ++ m a

def Memory.store (m : Memory) (a v : Word) : Memory := fun x =>
  if (x - a).toNat < 8 then v.extractLsb' (8 * (x - a).toNat) 8 else m x

/-- The words at `a` and `b` have no byte in common. -/
def Apart (a b : Word) : Prop := 8 ≤ (a - b).toNat ∧ 8 ≤ (b - a).toNat

instance (a b : Word) : Decidable (Apart a b) := inferInstanceAs (Decidable (_ ∧ _))

theorem Apart.symm {a b : Word} (h : Apart a b) : Apart b a := ⟨h.2, h.1⟩

theorem apart_of_add_le {a b : Word} (hab : a.toNat + 8 ≤ b.toNat) (hb : b.toNat + 8 ≤ 2 ^ 64) :
    Apart a b := by
  constructor <;> bv_omega

theorem add_sub_self (a k : Word) : a + k - a = k := by
  rw [BitVec.add_comm, BitVec.add_sub_cancel]

/-- Words at two offsets. -/
theorem apart_offsets {i j : Word} (a : Word) (h : Apart i j) : Apart (a + i) (a + j) := by
  unfold Apart at h ⊢
  constructor <;> bv_omega

theorem store_of_apart {m : Memory} {a v x : Word} (h : 8 ≤ (x - a).toNat) :
    m.store a v x = m x := by
  rw [Memory.store, if_neg (by omega)]

theorem load_congr {m m' : Memory} {a : Word} (h : ∀ k < 8, m (a + k) = m' (a + k)) :
    m.load a = m'.load a := by
  have h0 : m a = m' a := by simpa using h 0 (by decide)
  unfold Memory.load
  rw [h 7 (by decide), h 6 (by decide), h 5 (by decide), h 4 (by decide), h 3 (by decide),
    h 2 (by decide), h 1 (by decide), h0]

@[simp] theorem load_store (m : Memory) (a v : Word) : (m.store a v).load a = v := by
  have hbytes : ∀ k : Word, k.toNat < 8 →
      m.store a v (a + k) = v.extractLsb' (8 * k.toNat) 8 := by
    intro k hk
    simp only [Memory.store, add_sub_self, hk, if_true]
  have h0 : m.store a v a = v.extractLsb' 0 8 := by simpa using hbytes 0 (by decide)
  have hjoin (i n : Nat) : v.extractLsb' (i + 8) n ++ v.extractLsb' i 8 = v.extractLsb' i (n + 8) :=
    BitVec.extractLsb'_append_extractLsb'_eq_extractLsb' rfl
  unfold Memory.load
  rw [hbytes 7 (by decide), hbytes 6 (by decide), hbytes 5 (by decide), hbytes 4 (by decide),
    hbytes 3 (by decide), hbytes 2 (by decide), hbytes 1 (by decide), h0]
  refine Eq.trans ?_ BitVec.extractLsb'_eq_self
  rw [← hjoin 0 56, ← hjoin 8 48, ← hjoin 16 40, ← hjoin 24 32, ← hjoin 32 24, ← hjoin 40 16,
    ← hjoin 48 8]
  rfl

theorem load_store_of_apart {m : Memory} {a b v : Word} (h : Apart a b) :
    (m.store b v).load a = m.load a := by
  obtain ⟨hab, hba⟩ := h
  refine load_congr fun k hk => store_of_apart ?_
  bv_omega

theorem load_store_offset {m : Memory} {a v i j : Word} (h : Apart i j) :
    (m.store (a + j) v).load (a + i) = m.load (a + i) :=
  load_store_of_apart (apart_offsets a h)

/-! ## Instructions -/

inductive Reg where
  | rax | rbx | rcx | rdx | rsi | rdi | rbp | rsp
  | r8 | r9 | r10 | r11 | r12 | r13 | r14 | r15
  deriving DecidableEq, Repr

structure Machine where
  reg : Reg → Word
  rip : Word
  mem : Memory

/-- The operands are in the order of the AT&T syntax. -/
inductive Instr where
  | push (src : Reg)
  | pop (dst : Reg)
  | mov (src dst : Reg)
  /-- `mov src, disp(base)` -/
  | store (src : Reg) (disp : Word) (base : Reg)
  /-- `mov disp(base), dst` -/
  | load (disp : Word) (base dst : Reg)
  | ret

def Machine.set (c : Machine) (r : Reg) (v : Word) : Machine :=
  { c with reg := fun q => if q = r then v else c.reg q }

def Machine.write (c : Machine) (a v : Word) : Machine := { c with mem := c.mem.store a v }

def Machine.pushed (c : Machine) (v : Word) : Machine :=
  (c.write (c.reg .rsp - 8) v).set .rsp (c.reg .rsp - 8)

/-- A call that returns to `ret`. Where it goes to is not in the model. -/
def Machine.call (c : Machine) (ret : Word) : Machine := c.pushed ret

def Machine.step (c : Machine) : Instr → Machine
  | .push src => c.pushed (c.reg src)
  | .pop dst => (c.set .rsp (c.reg .rsp + 8)).set dst (c.mem.load (c.reg .rsp))
  | .mov src dst => c.set dst (c.reg src)
  | .store src disp base => c.write (c.reg base + disp) (c.reg src)
  | .load disp base dst => c.set dst (c.mem.load (c.reg base + disp))
  | .ret => { c.set .rsp (c.reg .rsp + 8) with rip := c.mem.load (c.reg .rsp) }

/-- Instructions one after the other. Only `ret` changes `rip`. -/
def exec (c : Machine) (code : List Instr) : Machine := code.foldl Machine.step c

section
variable {c : Machine}

@[simp] theorem exec_nil : exec c [] = c := rfl

@[simp] theorem exec_cons (i : Instr) (code : List Instr) :
    exec c (i :: code) = exec (c.step i) code := rfl

theorem exec_append (code rest : List Instr) : exec c (code ++ rest) = exec (exec c code) rest :=
  List.foldl_append

@[simp] theorem reg_set_self (r : Reg) (v : Word) : (c.set r v).reg r = v := by simp [Machine.set]

@[simp] theorem mem_set (r : Reg) (v : Word) : (c.set r v).mem = c.mem := rfl
@[simp] theorem rip_set (r : Reg) (v : Word) : (c.set r v).rip = c.rip := rfl
@[simp] theorem reg_write (a v : Word) : (c.write a v).reg = c.reg := rfl
@[simp] theorem mem_write (a v : Word) : (c.write a v).mem = c.mem.store a v := rfl
@[simp] theorem rip_write (a v : Word) : (c.write a v).rip = c.rip := rfl

end

end Cs720.Lib.X86
