import Cs720.Alloc.GetBlock
import Cs720.Alloc.MarkRun
import Cs720.Lib.Run

/-! # The dump of memory (`memDump` in `A4/alloc.c`)

A line is the arguments of its `printf`. What the dump skips are zeros, so every word can be read off
it.
-/

namespace Cs720.Alloc

open Cs720.Lib

/-! ## The code -/

inductive Line where
  /-- `%20p: %16lx%s` -/
  | word (addr value : Word) (mark : String)
  /-- `... <skipped %d words of 0> ...` -/
  | skipped (words : Nat)
  deriving DecidableEq

/-- `Stack frame #%d (start=%p, end=%p):`, and its words if it is scanned. -/
structure FrameLines where
  frame_count : Nat
  top : Word
  bottom : Word
  lines : List Line
  deriving DecidableEq

/-- `Block %d (%s): %ld words.`, and the finalizer and the words if it is allocated. -/
structure BlockLines where
  block_count : Nat
  alloc : Bool
  cur_size : Word
  payload : Option (Word × List Line)
  deriving DecidableEq

structure Dump where
  globals : List Line
  frames : List FrameLines
  rbx : Word
  rsi : Word
  rdi : Word
  blocks : List BlockLines
  deriving DecidableEq

/-- `i++` for an `int`. -/
def intSucc (i : Nat) : C Nat := if i + 1 < 2 ^ 31 then .ok (i + 1) else .error .fault

section
variable (e : Env) (g : Statics) (n : Nat) (m : Mem)

def pointsToAllocatedData (ptr : Word) : C Bool := do
  let block ← getBlock g n m ptr
  if block = 0 then .ok false else .ok (isAlloc (m block))

/-- The word at `addr`, marked if it points to allocated data, or else with `blank`. -/
def wordLine (blank : String) (addr : Word) : C Line := do
  let points ← pointsToAllocatedData g n m (readLong m addr)
  .ok (.word addr (readLong m addr) (if points then " *" else blank))

/-- The word of a global at `addr`. -/
def globalLine (addr : Word) : C Line :=
  if readLong m addr = g.heap then .ok (.word addr (readLong m addr) " * <- block_t *heap")
  else wordLine g n m "  " addr

def dumpGlobalsStep : Nat × List Line → C (Flow (Nat × List Line) (List Line))
  | (i, out) =>
    if i < globalLength e then do
      let line ← globalLine g n m (globalAddr e i)
      .ok (.next (← intSucc i, out ++ [line]))
    else .ok (.done out)

def dumpFrameStep (bottom : Word) : Word × List Line → C (Flow (Word × List Line) (List Line))
  | (addr, out) =>
    if addr ≤ bottom then do
      let line ← wordLine g n m "  " addr
      .ok (.next (addr + 8, out ++ [line]))
    else .ok (.done out)

def dumpStackStep : Nat × Word × Word × List FrameLines →
    C (Flow (Nat × Word × Word × List FrameLines) (List FrameLines))
  | (frame_count, top, bottom, out) => do
    let frame_count := frame_count + 1
    if bottom ≤ top ∨ bottom = 0 then .ok (.done (out ++ [⟨frame_count, top, bottom, []⟩]))
    else if bottom = top ∨ frame_count > 128 then
      .ok (.done (out ++ [⟨frame_count, top, bottom, []⟩]))
    else if bottom &&& 7 ≠ 0 then .ok (.done (out ++ [⟨frame_count, top, bottom, []⟩]))
    else
      let lines ← loop (dumpFrameStep g n m bottom) n (top, [])
      .ok (.next (frame_count, bottom, readLong m bottom,
        out ++ [⟨frame_count, top, bottom, lines⟩]))

/-- The end of the cluster of zeros that starts at `start`. -/
def zerosStep (cur : Word) (cur_size : Nat) (e : Nat) : C (Lib.Flow Nat Nat) :=
  if e < cur_size ∧ readLong m (payloadAddr cur e) = 0 then do .ok (.next (← intSucc e))
  else .ok (.done e)

/-- The lines of a cluster of zeros. -/
def clusterLines (start_ptr : Word) (zeros : Nat) : List Line :=
  if zeros = 1 then [.word start_ptr 0 ""]
  else [.word start_ptr 0 ""] ++ (if zeros > 2 then [.skipped (zeros - 2)] else []) ++
    [.word (start_ptr + 8 * BitVec.ofNat 64 (zeros - 1)) 0 ""]

def dumpPayloadStep (cur : Word) (cur_size : Nat) :
    Nat × List Line → C (Flow (Nat × List Line) (List Line))
  | (i, out) =>
    if i < cur_size then
      if readLong m (payloadAddr cur i) = 0 then do
        let stop ← loop (zerosStep m cur cur_size) n i
        .ok (.next (stop, out ++ clusterLines (payloadAddr cur i) (stop - i)))
      else do
        let line ← wordLine g n m " " (payloadAddr cur i)
        .ok (.next (← intSucc i, out ++ [line]))
    else .ok (.done out)

/-- The finalizer and the words of the block at `cur`, if it is allocated. -/
def dumpPayload (cur : Word) : C (Option (Word × List Line)) :=
  if isAlloc (m cur) then do
    let lines ← loop (dumpPayloadStep g n m cur (m cur &&& SIZE_MASK).toNat) n (0, [])
    .ok (some (finalizerOf m cur, lines))
  else .ok none

def dumpBlocksStep : Word × Nat × List BlockLines →
    C (Flow (Word × Nat × List BlockLines) (List BlockLines))
  | (cur, block_count, out) =>
    if cur = 0 then .ok (.done out)
    else do
      let block_count ← intSucc block_count
      let payload ← dumpPayload g n m cur
      .ok (.next (next m cur, block_count,
        out ++ [⟨block_count, isAlloc (m cur), m cur &&& SIZE_MASK, payload⟩]))

end

/-- What the dump shows, if the heap is there. -/
def memDump (e : Env) (n : Nat) (rbx rsi rdi : Word) (s : State) : C (Option Dump) := do
  if s.initialized ≠ 1 then .ok none
  else
    let globals ← loop (dumpGlobalsStep e s.toStatics n s.mem) n (0, [])
    let frames ← loop (dumpStackStep s.toStatics n s.mem) n (0, s.stack_top, s.frame_bottom, [])
    let blocks ← loop (dumpBlocksStep s.toStatics n s.mem) n (s.heap, 0, [])
    .ok (some ⟨globals, frames, rbx, rsi, rdi, blocks⟩)

/-! ## What is marked -/

/-- The address is in an allocated block or one behind it, but not in the last block, or it is the
first header and the first block is allocated. -/
def Points (g : Statics) (bs : List Block) (p : Word) : Prop :=
  ∃ b ∈ bs, b.alloc = true ∧ (p = g.heap ∧ b.addr = g.heap ∨
    b.start < p.toNat ∧ p.toNat ≤ b.stop ∧ ∃ c ∈ bs, p.toNat ≤ c.start)

section
variable {e : Env} {g : Statics} {m : Mem} {bs : List Block} {n : Nat} {p : Word}

theorem Points.inHeap (h : Points g bs p) (hok : HeapOk g m bs) : inHeapRange g p = true := by
  rw [inHeapRange_iff hok]
  obtain ⟨b, hb, -, ⟨rfl, hheap⟩ | ⟨hlt, -, c, hc, hle⟩⟩ := h
  · have hbounds := fill_bounds hok.fill hb
    have hstop := b.start_lt_stop
    unfold Block.start at *
    rw [hheap] at hbounds hstop
    exact ⟨le_rfl, by omega⟩
  · have hbounds := fill_bounds hok.fill hb
    have hbounds' := fill_bounds hok.fill hc
    have hstop := c.start_lt_stop
    omega

theorem locate_points (hok : HeapOk g m bs) (hp : inHeapRange g p = true) {b : Block}
    (hb : b ∈ bs) : locate g.heap bs p = b.addr ↔ p = g.heap ∧ b.addr = g.heap ∨
      b.start < p.toNat ∧ p.toNat ≤ b.stop ∧ ∃ c ∈ bs, p.toNat ≤ c.start := by
  have hnull : locate g.heap bs p = 0 ↔ ∀ c ∈ bs, c.addr < p :=
    locate_null hok.nonnull fun c hc => linked_nonnull hok.linked hc
  constructor
  · intro hloc
    have h0 : locate g.heap bs p ≠ 0 := by
      rw [hloc]
      exact linked_nonnull hok.linked hb
    rcases locate_owner hok.fill h0 with ⟨hheap, hall⟩ | ⟨c, hc, hc', hlt, hle⟩
    · have haddr : b.addr = g.heap := hloc.symm.trans hheap
      have hle := hall b hb
      have hrange := (inHeapRange_iff hok p).mp hp
      unfold Block.start at hle
      rw [haddr] at hle
      exact Or.inl ⟨BitVec.eq_of_toNat_eq (by omega), haddr⟩
    · obtain rfl : b = c := addr_inj hok.fill hb hc (hloc.symm.trans hc')
      rw [Ne, hnull] at h0
      push Not at h0
      obtain ⟨d, hd, hle'⟩ := h0
      exact Or.inr ⟨hlt, hle, d, hd, Nat.le_of_not_lt fun h => hle' (BitVec.lt_def.mpr h)⟩
  · rintro (⟨rfl, haddr⟩ | ⟨hlt, hle, c, hc, hle'⟩)
    · obtain ⟨d, rest, rfl, hd⟩ := heap_cons hok
      rw [locate, if_neg (by rw [hd]; exact BitVec.lt_irrefl _), haddr]
    · refine (locate_inside g.heap hok.fill hb hlt hle).resolve_right fun h => ?_
      have hlt' := hnull.mp h c hc
      rw [BitVec.lt_def] at hlt'
      unfold Block.start at hle'
      omega

theorem pointsTo_run (hok : HeapOk g m bs) (hn : bs.length < n) :
    ∃ points, pointsToAllocatedData g n m p = .ok points ∧ (points = true ↔ Points g bs p) := by
  unfold pointsToAllocatedData
  by_cases hp : inHeapRange g p = true
  · rw [getBlock_run hok hp hn, ok_bind]
    split
    · rename_i h0
      refine ⟨false, rfl, iff_of_false Bool.false_ne_true ?_⟩
      rintro ⟨b, hb, -, h⟩
      exact linked_nonnull hok.linked hb (((locate_points hok hp hb).mpr h).symm.trans h0)
    · rename_i h0
      obtain ⟨b, hb, hloc⟩ : ∃ b ∈ bs, locate g.heap bs p = b.addr := by
        rcases locate_owner hok.fill h0 with ⟨hheap, -⟩ | ⟨b, hb, hloc, -⟩
        · obtain ⟨d, rest, rfl, hd⟩ := heap_cons hok
          exact ⟨d, by simp, hheap.trans hd.symm⟩
        · exact ⟨b, hb, hloc⟩
      refine ⟨_, rfl, ?_⟩
      rw [hloc, linked_info hok.linked hb]
      constructor
      · exact fun halloc => ⟨b, hb, halloc, (locate_points hok hp hb).mp hloc⟩
      · rintro ⟨c, hc, halloc, h⟩
        obtain rfl : c = b :=
          addr_inj hok.fill hc hb (((locate_points hok hp hc).mpr h).symm.trans hloc)
        exact halloc
  · refine ⟨false, ?_, iff_of_false Bool.false_ne_true fun h => hp (h.inHeap hok)⟩
    have hout : p < g.heap ∨ p ≥ heapEnd g := by
      simpa [inHeapRange, or_iff_not_imp_left] using hp
    unfold getBlock
    rw [if_neg (not_or.mpr ⟨not_not.mpr hok.initialized, hok.nonnull⟩), if_pos hout, ok_bind,
      if_pos rfl]

end

/-! ## What the lines show -/

/-- The lines are about the words at the addresses. Those that point to allocated data are marked,
and those that are skipped are zeros. -/
inductive Shows (g : Statics) (m : Mem) (bs : List Block) : List Line → List Word → Prop where
  | nil : Shows g m bs [] []
  | word {addr : Word} {mark : String} {lines : List Line} {addrs : List Word}
      (points : mark = " *" → Points g bs (readLong m addr))
      (marked : Points g bs (readLong m addr) →
        mark = " *" ∨ readLong m addr = g.heap ∧ mark = " * <- block_t *heap")
      (rest : Shows g m bs lines addrs) :
      Shows g m bs (.word addr (readLong m addr) mark :: lines) (addr :: addrs)
  | skipped {zeros : List Word} {lines : List Line} {addrs : List Word}
      (zero : ∀ addr ∈ zeros, readLong m addr = 0) (rest : Shows g m bs lines addrs) :
      Shows g m bs (.skipped zeros.length :: lines) (zeros ++ addrs)

section
variable {e : Env} {g : Statics} {m : Mem} {bs : List Block} {n i : Nat} {addr cur : Word}
  {lines lines' : List Line} {addrs addrs' : List Word}

theorem Shows.append (h : Shows g m bs lines addrs) (h' : Shows g m bs lines' addrs') :
    Shows g m bs (lines ++ lines') (addrs ++ addrs') := by
  induction h with
  | nil => exact h'
  | word points marked _ ih => exact .word points marked ih
  | skipped zero _ ih =>
    rw [List.append_assoc]
    exact .skipped zero ih

theorem not_points_zero (hok : HeapOk g m bs) : ¬ Points g bs 0 := by
  intro h
  have hle := ((inHeapRange_iff hok 0).mp (h.inHeap hok)).1
  exact hok.nonnull (BitVec.eq_of_toNat_eq (Nat.le_zero.mp hle))

theorem shows_zero (hok : HeapOk g m bs) (h : readLong m addr = 0) :
    Shows g m bs [.word addr 0 ""] [addr] := by
  have hword : Shows g m bs [.word addr (readLong m addr) ""] [addr] := by
    refine .word (fun hmark => absurd hmark (by decide)) (fun hp => ?_) .nil
    rw [h] at hp
    exact absurd hp (not_points_zero hok)
  rwa [h] at hword

theorem wordLine_run (hok : HeapOk g m bs) (hn : bs.length < n) {blank : String}
    (hblank : blank ≠ " *") (addr : Word) :
    ∃ line, wordLine g n m blank addr = .ok line ∧ Shows g m bs [line] [addr] := by
  obtain ⟨points, hrun, hpoints⟩ := pointsTo_run (p := readLong m addr) hok hn
  refine ⟨_, by rw [wordLine, hrun, ok_bind], .word (fun hmark => ?_) (fun hp => Or.inl ?_) .nil⟩
  · by_cases h : points = true
    · exact hpoints.mp h
    · rw [if_neg h] at hmark
      exact absurd hmark hblank
  · exact if_pos (hpoints.mpr hp)

theorem intSucc_ok (h : i + 1 < 2 ^ 31) : intSucc i = .ok (i + 1) := if_pos h

/-! ## Globals and stack frames -/

def globalAddrs (e : Env) : List Word := (List.range (globalLength e)).map (globalAddr e)

theorem globalLine_run (hok : HeapOk g m bs) (hn : bs.length < n) (addr : Word) :
    ∃ line, globalLine g n m addr = .ok line ∧ Shows g m bs [line] [addr] := by
  unfold globalLine
  by_cases hheap : readLong m addr = g.heap
  · rw [if_pos hheap]
    exact ⟨_, rfl, .word (fun h => absurd h (by decide)) (fun _ => Or.inr ⟨hheap, rfl⟩) .nil⟩
  · rw [if_neg hheap]
    exact wordLine_run hok hn (by decide) addr

theorem dumpGlobals_run (hok : HeapOk g m bs) (hn : bs.length < n) (hlen : globalLength e < 2 ^ 31)
    {k : Nat} (hk : globalLength e < k) :
    ∃ lines, loop (dumpGlobalsStep e g n m) k (0, []) = .ok lines ∧
      Shows g m bs lines (globalAddrs e) := by
  refine loop_total (fun (i, out) => i ≤ globalLength e ∧
    Shows g m bs out ((List.range i).map (globalAddr e)))
    _ (fun (i, _) => globalLength e - i) ?_ hk ⟨Nat.zero_le _, .nil⟩
  rintro ⟨i, out⟩ ⟨hle, hout⟩
  unfold dumpGlobalsStep
  dsimp only
  rcases Nat.lt_or_eq_of_le hle with hlt | rfl
  · obtain ⟨line, hrun, hshows⟩ := globalLine_run hok hn (globalAddr e i)
    refine Or.inl ⟨(i + 1, out ++ [line]), ?_, ⟨hlt, ?_⟩, by omega⟩
    · rw [if_pos hlt, hrun, ok_bind, intSucc_ok (by omega), ok_bind]
    · rw [List.range_succ, List.map_append]
      exact hout.append hshows
  · exact Or.inr ⟨out, if_neg (Nat.lt_irrefl _), hout⟩

/-- The addresses of the words from `top` to `bottom`. -/
def frameAddrs (top bottom : Word) : List Word :=
  (List.range ((bottom.toNat - top.toNat) / 8 + 1)).map fun i => top + 8 * BitVec.ofNat 64 i

/-- The frames after the first `i`. The last one is not scanned: it is no valid frame, or there were
128 before it. -/
inductive Frames (g : Statics) (m : Mem) (bs : List Block) :
    Nat → Word → Word → List FrameLines → Prop where
  | last {i : Nat} {top bottom : Word} (stop : ValidFrame top bottom → 128 ≤ i) :
      Frames g m bs i top bottom [⟨i + 1, top, bottom, []⟩]
  | scan {i : Nat} {top bottom : Word} {lines : List Line} {fs : List FrameLines}
      (valid : ValidFrame top bottom) (more : i < 128)
      (shows : Shows g m bs lines (frameAddrs top bottom))
      (rest : Frames g m bs (i + 1) bottom (readLong m bottom) fs) :
      Frames g m bs i top bottom (⟨i + 1, top, bottom, lines⟩ :: fs)

/-- The ends of the frame that `k` saved frame pointers lead to. -/
def frameAt (g : Statics) (m : Mem) (k : Nat) : Word × Word :=
  (fun (_, bottom) => (bottom, readLong m bottom))^[k] (g.stack_top, g.frame_bottom)

/-- The frame and all before it are valid, and there are fewer than 128 before it. -/
def FrameScanned (g : Statics) (m : Mem) (k : Nat) : Prop :=
  k < 128 ∧ ∀ j ≤ k, ValidFrame (frameAt g m j).1 (frameAt g m j).2

theorem frameAt_succ (k : Nat) :
    frameAt g m (k + 1) = ((frameAt g m k).2, readLong m (frameAt g m k).2) :=
  Function.iterate_succ_apply' _ k _

theorem bottom_bound {bottom : Word} (haligned : bottom &&& 7 = 0) (hlast : bottom ≠ -8) :
    bottom.toNat + 8 < 2 ^ 64 := by
  have hmod := aligned_of_and haligned
  have hne : bottom.toNat ≠ 2 ^ 64 - 8 := fun h => hlast (BitVec.eq_of_toNat_eq h)
  omega

theorem dumpFrame_run (hok : HeapOk g m bs) (hn : bs.length < n) {top bottom : Word}
    (hlt : top < bottom) (hbound : bottom.toNat + 8 < 2 ^ 64) {k : Nat} (hk : 2 ^ 62 ≤ k) :
    ∃ lines, loop (dumpFrameStep g n m bottom) k (top, []) = .ok lines ∧
      Shows g m bs lines (frameAddrs top bottom) := by
  rw [BitVec.lt_def] at hlt
  refine loop_total (fun (addr, out) => ∃ j, addr = top + 8 * BitVec.ofNat 64 j ∧
      addr.toNat = top.toNat + 8 * j ∧ addr.toNat ≤ bottom.toNat + 8 ∧
      Shows g m bs out ((List.range j).map fun i => top + 8 * BitVec.ofNat 64 i))
    _ (fun (addr, _) => (bottom.toNat + 8 - addr.toNat) / 8) ?_ (by dsimp only; omega)
    ⟨0, by simp, rfl, by omega, .nil⟩
  rintro ⟨addr, out⟩ ⟨j, haddr, hj, hle, hout⟩
  unfold dumpFrameStep
  dsimp only
  by_cases hin : addr ≤ bottom
  · obtain ⟨line, hrun, hshows⟩ := wordLine_run hok hn (by decide : "  " ≠ " *") addr
    have hin' := BitVec.le_def.mp hin
    have hnext : (addr + 8).toNat = addr.toNat + 8 := by bv_omega
    refine Or.inl ⟨(addr + 8, out ++ [line]), ?_, ⟨j + 1, ?_, ?_, ?_, ?_⟩, ?_⟩
    · rw [if_pos hin, hrun, ok_bind]
    · rw [haddr]
      bv_omega
    · rw [hnext, hj]
      omega
    · rw [hnext]
      omega
    · rw [List.range_succ, List.map_append]
      rw [haddr] at hshows ⊢
      exact hout.append hshows
    · rw [hnext]
      omega
  · rw [if_neg hin]
    rw [BitVec.le_def] at hin
    have hcount : (bottom.toNat - top.toNat) / 8 + 1 = j := by omega
    refine Or.inr ⟨out, rfl, ?_⟩
    unfold frameAddrs
    rw [hcount]
    exact hout

theorem dumpStackStep_last {top bottom : Word} (h : ValidFrame top bottom → 128 ≤ i)
    (out : List FrameLines) :
    dumpStackStep g n m (i, top, bottom, out) =
      .ok (.done (out ++ [⟨i + 1, top, bottom, []⟩])) := by
  unfold dumpStackStep
  dsimp only
  split_ifs with h1 h2 h3
  · rfl
  · rfl
  · rfl
  · obtain ⟨hne, hmore⟩ := not_or.mp h2
    exact absurd (h ⟨h1, hne, not_not.mp h3⟩) (by omega)

theorem dumpStackStep_scan {top bottom : Word} (h : ValidFrame top bottom) (hmore : i < 128)
    (out : List FrameLines) :
    dumpStackStep g n m (i, top, bottom, out) = (do
      let lines ← loop (dumpFrameStep g n m bottom) n (top, [])
      .ok (.next (i + 1, bottom, readLong m bottom, out ++ [⟨i + 1, top, bottom, lines⟩]))) := by
  have hcount : ¬ (bottom = top ∨ i + 1 > 128) := not_or.mpr ⟨h.2.1, by omega⟩
  unfold dumpStackStep
  dsimp only
  rw [if_neg h.1, if_neg hcount, if_neg (not_not.mpr h.2.2)]

theorem dumpStack_run (hok : HeapOk g m bs) (hn : bs.length < n) (hbig : 2 ^ 62 ≤ n)
    (hstack : ∀ k, FrameScanned g m k → (frameAt g m k).2 ≠ -8) {k : Nat} (hk : 129 < k) :
    ∃ fs, loop (dumpStackStep g n m) k (0, g.stack_top, g.frame_bottom, []) = .ok fs ∧
      Frames g m bs 0 g.stack_top g.frame_bottom fs := by
  refine loop_total (fun ((i, top, bottom, out) : Nat × Word × Word × List FrameLines) =>
      frameAt g m i = (top, bottom) ∧
      (∀ j < i, ValidFrame (frameAt g m j).1 (frameAt g m j).2) ∧
      ∀ fs, Frames g m bs i top bottom fs → Frames g m bs 0 g.stack_top g.frame_bottom (out ++ fs))
    (fun fs => Frames g m bs 0 g.stack_top g.frame_bottom fs)
    (fun (i, _) => 129 - i) (s := (0, g.stack_top, g.frame_bottom, [])) ?_ hk
    ⟨rfl, fun j h => absurd h (Nat.not_lt_zero j), fun fs h => h⟩
  rintro ⟨i, top, bottom, out⟩ ⟨hi, hbefore, hout⟩
  by_cases h : ValidFrame top bottom ∧ i < 128
  · obtain ⟨hvalid, hmore⟩ := h
    have hupto : ∀ j ≤ i, ValidFrame (frameAt g m j).1 (frameAt g m j).2 := by
      intro j hj
      rcases Nat.lt_or_eq_of_le hj with h | rfl
      · exact hbefore j h
      · rwa [hi]
    have hlast := hstack i ⟨hmore, hupto⟩
    rw [hi] at hlast
    have hbound := bottom_bound hvalid.2.2 hlast
    obtain ⟨lines, hrun, hshows⟩ := dumpFrame_run hok hn
      (BitVec.not_le.mp (not_or.mp hvalid.1).1) hbound hbig
    refine Or.inl ⟨(i + 1, bottom, readLong m bottom, out ++ [⟨i + 1, top, bottom, lines⟩]),
      ?_, ⟨?_, fun j hj => hupto j (Nat.le_of_lt_succ hj), fun fs hfs => ?_⟩,
      by dsimp only; omega⟩
    · rw [dumpStackStep_scan hvalid hmore, hrun, ok_bind]
    · rw [frameAt_succ, hi]
    · rw [List.append_assoc]
      exact hout _ (.scan hvalid hmore hshows hfs)
  · have hstop : ValidFrame top bottom → 128 ≤ i := fun hvalid =>
      Nat.le_of_not_lt fun hmore => h ⟨hvalid, hmore⟩
    exact Or.inr ⟨_, dumpStackStep_last hstop out, hout _ (.last hstop)⟩

/-! ## Blocks -/

/-- The addresses of the first `k` payload words of the block at `cur`. -/
def payloadAddrs (cur : Word) (k : Nat) : List Word := (List.range k).map (payloadAddr cur)

theorem payloadAddrs_add (i k : Nat) : payloadAddrs cur (i + k) =
    payloadAddrs cur i ++ (List.range k).map fun j => payloadAddr cur (i + j) := by
  unfold payloadAddrs
  rw [List.range_add, List.map_append, List.map_map]
  rfl

theorem payloadAddr_add (i k : Nat) :
    payloadAddr cur i + 8 * BitVec.ofNat 64 k = payloadAddr cur (i + k) := by
  unfold payloadAddr
  rw [BitVec.ofNat_add, BitVec.mul_add, BitVec.add_assoc]

/-- The lines of a cluster are about all its zeros. -/
theorem shows_cluster (hok : HeapOk g m bs) {k : Nat} (hk : 0 < k)
    (h : ∀ j < k, readLong m (payloadAddr cur (i + j)) = 0) :
    Shows g m bs (clusterLines (payloadAddr cur i) k)
      ((List.range k).map fun j => payloadAddr cur (i + j)) := by
  have hfirst : Shows g m bs [.word (payloadAddr cur i) 0 ""] [payloadAddr cur i] :=
    shows_zero hok (h 0 hk)
  obtain rfl | ⟨j, rfl⟩ : k = 1 ∨ ∃ j, k = j + 2 := by
    rcases Nat.lt_or_ge k 2 with hlt | hge
    · exact Or.inl (by omega)
    · exact Or.inr ⟨k - 2, by omega⟩
  · exact hfirst
  · have hlast : Shows g m bs [.word (payloadAddr cur i + 8 * BitVec.ofNat 64 (j + 2 - 1)) 0 ""]
        [payloadAddr cur (i + (j + 1))] := by
      rw [payloadAddr_add]
      exact shows_zero hok (h (j + 1) (by omega))
    have hskipped : Shows g m bs (if j + 2 > 2 then [.skipped (j + 2 - 2)] else [])
        ((List.range j).map fun t => payloadAddr cur (i + (t + 1))) := by
      by_cases hj : j + 2 > 2
      · rw [if_pos hj]
        have hzeros : ∀ addr ∈ (List.range j).map fun t => payloadAddr cur (i + (t + 1)),
            readLong m addr = 0 := by
          intro addr haddr
          obtain ⟨t, ht, rfl⟩ := List.mem_map.mp haddr
          exact h (t + 1) (by rw [List.mem_range] at ht; omega)
        have hshows : Shows g m bs _ _ := .skipped hzeros .nil
        rwa [List.length_map, List.length_range, List.append_nil] at hshows
      · rw [if_neg hj]
        obtain rfl : j = 0 := by omega
        exact .nil
    have haddrs : (List.range (j + 2)).map (fun t => payloadAddr cur (i + t)) =
        [payloadAddr cur i] ++ ((List.range j).map fun t => payloadAddr cur (i + (t + 1))) ++
          [payloadAddr cur (i + (j + 1))] := by
      rw [List.range_succ, List.range_succ_eq_map, List.map_append, List.map_cons, List.map_map]
      rfl
    unfold clusterLines
    rw [if_neg (by omega), haddrs]
    exact (hfirst.append hskipped).append hlast

theorem zeros_run {size : Nat} (hlt : i < size) (hsize : size < 2 ^ 31)
    (hzero : readLong m (payloadAddr cur i) = 0) {k : Nat} (hk : size < k) :
    ∃ stop, loop (zerosStep m cur size) k i = .ok stop ∧ i < stop ∧ stop ≤ size ∧
      ∀ j < stop - i, readLong m (payloadAddr cur (i + j)) = 0 := by
  refine loop_total (fun stop => i ≤ stop ∧ stop ≤ size ∧
      ∀ j < stop - i, readLong m (payloadAddr cur (i + j)) = 0) _ (fun stop => size - stop)
    (s := i) ?_ (by omega) ⟨le_rfl, hlt.le, by simp⟩
  rintro stop ⟨hge, hle, hall⟩
  unfold zerosStep
  by_cases hmore : stop < size ∧ readLong m (payloadAddr cur stop) = 0
  · refine Or.inl ⟨stop + 1, ?_, ⟨by omega, hmore.1, fun j hj => ?_⟩, by omega⟩
    · rw [if_pos hmore, intSucc_ok (by omega), ok_bind]
    · rcases Nat.lt_or_eq_of_le (Nat.le_of_lt_succ (by omega : j < stop - i + 1)) with hj | rfl
      · exact hall j hj
      · rw [Nat.add_sub_cancel' hge]
        exact hmore.2
  · refine Or.inr ⟨stop, if_neg hmore, ?_, hle, hall⟩
    rcases Nat.lt_or_eq_of_le hge with h | rfl
    · exact h
    · exact absurd ⟨hlt, hzero⟩ hmore

theorem payload_run (hok : HeapOk g m bs) (hn : bs.length < n) {size : Nat} (hsize : size < 2 ^ 31)
    (hbig : size < n) {k : Nat} (hk : size < k) :
    ∃ lines, loop (dumpPayloadStep g n m cur size) k (0, []) = .ok lines ∧
      Shows g m bs lines (payloadAddrs cur size) := by
  refine loop_total (fun ((i, out) : Nat × List Line) => i ≤ size ∧
      Shows g m bs out (payloadAddrs cur i)) _ (fun (i, _) => size - i) (s := (0, [])) ?_ hk
    ⟨Nat.zero_le _, .nil⟩
  rintro ⟨i, out⟩ ⟨hle, hout⟩
  unfold dumpPayloadStep
  dsimp only
  rcases Nat.lt_or_eq_of_le hle with hlt | rfl
  · rw [if_pos hlt]
    by_cases hzero : readLong m (payloadAddr cur i) = 0
    · obtain ⟨stop, hrun, hgt, hstop, hall⟩ := zeros_run hlt hsize hzero hbig
      refine Or.inl ⟨(stop, out ++ clusterLines (payloadAddr cur i) (stop - i)), ?_,
        ⟨hstop, ?_⟩, ?_⟩
      · rw [if_pos hzero, hrun, ok_bind]
      · have haddrs : payloadAddrs cur (i + (stop - i)) = _ := payloadAddrs_add i (stop - i)
        rw [Nat.add_sub_cancel' hgt.le] at haddrs
        rw [haddrs]
        exact hout.append (shows_cluster hok (by omega) hall)
      · dsimp only
        omega
    · obtain ⟨line, hrun, hshows⟩ :=
        wordLine_run hok hn (by decide : " " ≠ " *") (payloadAddr cur i)
      refine Or.inl ⟨(i + 1, out ++ [line]), ?_, ⟨hlt, ?_⟩, by dsimp only; omega⟩
      · rw [if_neg hzero, hrun, ok_bind, intSucc_ok (by omega), ok_bind]
      · unfold payloadAddrs
        rw [List.range_succ, List.map_append]
        exact hout.append hshows
  · exact Or.inr ⟨out, if_neg (Nat.lt_irrefl _), hout⟩

/-- The lines of a block show its header and, if it is allocated, its words. -/
structure ShowsBlock (g : Statics) (m : Mem) (bs : List Block) (b : Block) (l : BlockLines) :
    Prop where
  alloc : l.alloc = b.alloc
  size : l.cur_size.toNat = b.size
  free : b.alloc = false → l.payload = none
  payload : b.alloc = true → ∃ lines, l.payload = some (b.finalizer, lines) ∧
    Shows g m bs lines (payloadAddrs b.addr b.size)

theorem dumpPayload_run (hok : HeapOk g m bs) (hn : bs.length < n) {b : Block} (hb : b ∈ bs)
    (hsize : b.size < 2 ^ 31) (hbig : b.size < n) :
    ∃ payload, dumpPayload g n m b.addr = .ok payload ∧
      (b.alloc = false → payload = none) ∧
      (b.alloc = true → ∃ lines, payload = some (b.finalizer, lines) ∧
        Shows g m bs lines (payloadAddrs b.addr b.size)) := by
  obtain ⟨-, hinfo, hfinalizer⟩ := linked_block hok.linked hb
  have hdump : dumpPayload g n m b.addr = if b.alloc = true then do
      let lines ← loop (dumpPayloadStep g n m b.addr b.size) n (0, [])
      .ok (some (b.finalizer, lines))
      else .ok none := by
    unfold dumpPayload
    rw [hinfo, hfinalizer]
    rfl
  rw [hdump]
  by_cases halloc : b.alloc = true
  · obtain ⟨lines, hrun, hshows⟩ := payload_run hok hn hsize hbig hbig
    refine ⟨some (b.finalizer, lines), ?_, fun h => ?_, fun _ => ⟨lines, rfl, hshows⟩⟩
    · rw [if_pos halloc, hrun, ok_bind]
    · exact absurd (h.symm.trans halloc) Bool.false_ne_true
  · exact ⟨none, if_neg halloc, fun _ => rfl, fun h => absurd h halloc⟩

/-- The blocks `bs` of the heap `all` are shown one after another, numbered from `i + 1` on. -/
theorem dumpBlocks_run {all : List Block} (hok : HeapOk g m all) (hn : all.length < n)
    (hsize : ∀ b ∈ all, b.size < 2 ^ 31 ∧ b.size < n) (hsub : ∀ b ∈ bs, b ∈ all)
    (hl : Linked m cur bs) (hcount : i + bs.length < 2 ^ 31) (out : List BlockLines) {k : Nat}
    (hk : bs.length < k) :
    ∃ ls, loop (dumpBlocksStep g n m) k (cur, i, out) = .ok (out ++ ls) ∧
      List.Forall₂ (ShowsBlock g m all) bs ls ∧
      ls.map BlockLines.block_count = List.range' (i + 1) bs.length := by
  obtain ⟨k, rfl⟩ : ∃ j, k = j + 1 := ⟨k - 1, by omega⟩
  induction bs generalizing cur i out k with
  | nil =>
    obtain rfl : cur = 0 := hl
    refine ⟨[], ?_, .nil, rfl⟩
    rw [List.append_nil, loop, dumpBlocksStep, if_pos rfl]
  | cons b bs ih =>
    obtain ⟨h0, ⟨rfl, hinfo, -⟩, hl⟩ := hl
    rw [List.length_cons] at hcount hk
    have hb := hsub b (by simp)
    obtain ⟨payload, hrun, hfree, hpayload⟩ :=
      dumpPayload_run hok hn hb (hsize b hb).1 (hsize b hb).2
    let line : BlockLines := ⟨i + 1, isAlloc (m b.addr), m b.addr &&& SIZE_MASK, payload⟩
    obtain ⟨j, rfl⟩ : ∃ j, k = j + 1 := ⟨k - 1, by omega⟩
    obtain ⟨ls, hloop, hshows, hnumbers⟩ := ih (i := i + 1)
      (fun c hc => hsub c (List.mem_cons_of_mem _ hc)) hl (by omega) (out ++ [line]) j (by omega)
    refine ⟨line :: ls, ?_, .cons ⟨?_, ?_, hfree, hpayload⟩ hshows, ?_⟩
    · rw [loop, dumpBlocksStep, if_neg h0, intSucc_ok (by omega), ok_bind, hrun, ok_bind]
      rw [List.append_assoc] at hloop
      exact hloop
    · exact congrArg isAlloc hinfo
    · exact congrArg (fun info => (info &&& SIZE_MASK).toNat) hinfo
    · rw [List.map_cons, hnumbers, List.length_cons, List.range'_succ]

/-- A block is at least its header. -/
theorem fill_length {lo hi : Nat} (h : Tiles Block.start Block.stop lo bs hi) :
    lo + 24 * bs.length ≤ hi := by
  induction bs generalizing lo with
  | nil => exact le_of_eq h
  | cons b bs ih =>
    obtain ⟨rfl, h⟩ := h
    have hle := ih h
    unfold Block.stop at hle
    rw [List.length_cons]
    omega

end

/-- The dump of a heap of less than 2^31 words comes to an end, unless a frame that is scanned ends
at the last word of the address space. It has every word of the globals, of the frames and of the
allocated blocks, and marks those that point to allocated data. -/
theorem memDump_shows {e : Env} {s : State} {bs : List Block} (hok : HeapOk s.toStatics s.mem bs)
    (hheap : s.total_heap_size.toNat < 2 ^ 31) (hglobals : globalLength e < 2 ^ 31)
    (hstack : ∀ k, FrameScanned s.toStatics s.mem k → (frameAt s.toStatics s.mem k).2 ≠ -8)
    (rbx rsi rdi : Word) {n : Nat}
    (hn : 2 ^ 62 ≤ n) :
    ∃ d, memDump e n rbx rsi rdi s = .ok (some d) ∧
      Shows s.toStatics s.mem bs d.globals (globalAddrs e) ∧
      Frames s.toStatics s.mem bs 0 s.stack_top s.frame_bottom d.frames ∧
      List.Forall₂ (ShowsBlock s.toStatics s.mem bs) bs d.blocks ∧
      d.blocks.map BlockLines.block_count = List.range' 1 bs.length := by
  have hlength := fill_length hok.fill.1
  have hsize : ∀ b ∈ bs, b.size < 2 ^ 31 ∧ b.size < n := fun b hb => by
    have hbounds := fill_bounds hok.fill hb
    unfold Block.stop at hbounds
    omega
  obtain ⟨globals, hg, hshows⟩ := dumpGlobals_run (e := e) (n := n) (k := n) hok (by omega)
    hglobals (by omega)
  obtain ⟨frames, hf, hframes⟩ := dumpStack_run (n := n) (k := n) hok (by omega) hn hstack
    (by omega)
  obtain ⟨blocks, hb, hblocks, hnumbers⟩ := dumpBlocks_run (n := n) (i := 0) (k := n) hok
    (by omega) hsize (fun _ h => h) hok.linked (by omega) [] (by omega)
  refine ⟨⟨globals, frames, rbx, rsi, rdi, blocks⟩, ?_, hshows, hframes, hblocks, hnumbers⟩
  unfold memDump
  rw [if_neg (not_not.mpr hok.initialized), hg, ok_bind, hf, ok_bind, hb, ok_bind]
  rfl

/-- An allocated block with a cluster of zeros, and a free block. -/
def clustered : State where
  initialized := 1
  heap := 0x1000
  total_heap_size := 11
  mem a := if a = 0x1000 then infoMake 1#32 0#32 4 else if a = 0x1008 then 0x1038
    else if a = 0x1018 then 0x1018 else if a = 0x1038 then 1 else 0

def clusteredBlocks : List Block := [⟨0x1000, infoMake 1#32 0#32 4, 0⟩, ⟨0x1038, 1, 0⟩]

theorem clustered_ok : HeapOk clustered.toStatics clustered.mem clusteredBlocks :=
  ⟨rfl, by decide, by decide, ⟨by decide, ⟨rfl, rfl, rfl⟩, by decide, ⟨rfl, rfl, rfl⟩, rfl⟩,
    ⟨rfl, by decide, rfl⟩, by decide⟩

theorem memDump_shows_clustered : ∃ d,
    memDump ⟨0x800, 0x808, 0x800, fun _ m => m⟩ (2 ^ 62) 0 0 0 clustered = .ok (some d) ∧
      Shows clustered.toStatics clustered.mem clusteredBlocks d.globals [0x800] ∧
      d.blocks.map BlockLines.block_count = [1, 2] := by
  have hstack : ∀ k, FrameScanned clustered.toStatics clustered.mem k →
      (frameAt clustered.toStatics clustered.mem k).2 ≠ -8 := by
    intro k hk
    have hfirst := (hk.2 0 (Nat.zero_le k)).1
    exact absurd (Or.inr rfl) hfirst
  obtain ⟨d, hrun, hglobals, -, -, hnumbers⟩ := memDump_shows
    (e := ⟨0x800, 0x808, 0x800, fun _ m => m⟩) clustered_ok (by decide) (by decide) hstack 0 0 0
    le_rfl
  exact ⟨d, hrun, hglobals, hnumbers⟩

example : memDump ⟨0x800, 0x808, 0x800, fun _ m => m⟩ 9 0 0 0 clustered = .ok (some {
    globals := [.word 0x800 0 "  "]
    frames := [⟨1, 0, 0, []⟩]
    rbx := 0
    rsi := 0
    rdi := 0
    blocks := [
      ⟨1, true, 4, some (0, [.word 0x1018 0x1018 " *", .word 0x1020 0 "", .skipped 1,
        .word 0x1030 0 ""])⟩,
      ⟨2, false, 1, none⟩] }) := by
  rfl

end Cs720.Alloc
