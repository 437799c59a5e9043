import Cs720.Vm.ParseCode

/-! # The scan of `parse_code` ends, and when it stays in its array -/

namespace Cs720.Vm

open Cs720.Lib

/-- At the start of the loop. -/
def scanStart (code : List Word) : Scan := ⟨0, (List.replicate (code.length + 1) D_DATA).set 0 D_INS⟩

/-- One iteration of the loop. -/
def ScanStep (code : List Word) (s s' : Scan) : Prop :=
  scanLine code code.length s = .ok (.next s')

def ScanRun (code : List Word) : Scan → Scan → Prop := Relation.ReflTransGen (ScanStep code)

/-- On the way to `s` there was an iteration at line `j`, and it began with the line marked. -/
def Processed (code : List Word) (s : Scan) (j : Nat) : Prop :=
  ∃ t t', ScanRun code (scanStart code) t ∧ t.pc = j ∧ Marked t.data j ∧ ScanStep code t t' ∧
    ScanRun code t' s

/-- The targets of the lines that the scan comes to have entries, or are -1. -/
def TargetsFit (code : List Word) : Prop := ∀ i, Seen code i → LineFits code i

/-! ## The end of the scan -/

/-- What has happened on the way to `s`. -/
structure ScanPast (code : List Word) (s : Scan) : Prop where
  inv : ScanInv code s
  run : ScanRun code (scanStart code) s
  processed : ∀ j : Nat, j < s.pc → Marked s.data j → Processed code s j

section
variable {code : List Word} {s s' : Scan} {j : Nat}

theorem Processed.step (h : Processed code s j) (hs : ScanStep code s s') : Processed code s' j := by
  obtain ⟨t, t', hrun, hpc, hm, hstep, hrest⟩ := h
  exact ⟨t, t', hrun, hpc, hm, hstep, hrest.tail hs⟩

theorem ScanPast.step (h : ScanPast code s) (hs : Advances code s s') : ScanPast code s' := by
  refine ⟨hs.inv, h.run.tail hs.line, fun j hj hm => ?_⟩
  obtain ⟨hm, hle⟩ := hs.behind j hj hm
  rcases Int.lt_or_eq_of_le hle with hlt | heq
  · exact (h.processed j hlt hm).step hs.line
  · exact ⟨s, s', h.run, heq.symm, hm, hs.line, .refl⟩

theorem scanPast_start (code : List Word) : ScanPast code (scanStart code) := by
  refine ⟨scanInv_start code, .refl, fun j hj _ => ?_⟩
  have hj : (j : Int) < 0 := hj
  omega

theorem ScanInv.fits (hs : ScanInv code s) (hfit : TargetsFit code) (hlt : s.pc < code.length)
    (i : Nat) (hi : s.pc = i) (hm : Marked s.data i) : LineFits code i :=
  hfit i (hs.seen i (by omega) hm)

theorem scan_ends (hn : code.length < 2 ^ 31) (hfit : TargetsFit code) :
    ∃ n s, loop (scanLine code code.length) n (scanStart code) = .ok s.data ∧
      scanLine code code.length s = .ok (.done s.data) ∧ ScanPast code s ∧ code.length ≤ s.pc := by
  have hstep : ∀ s, ScanPast code s →
      (∃ s', scanLine code code.length s = .ok (.next s') ∧ ScanPast code s' ∧
        scanMeasure code s' < scanMeasure code s) ∨
      ∃ data, scanLine code code.length s = .ok (.done data) ∧
        ∃ s, scanLine code code.length s = .ok (.done s.data) ∧ data = s.data ∧ ScanPast code s ∧
          code.length ≤ s.pc := by
    intro s hs
    by_cases hlt : s.pc < code.length
    · obtain ⟨s', hadv⟩ := scanInv_step hn (hs.inv.fits hfit hlt) hs.inv hlt
      exact Or.inl ⟨s', hadv.line, hs.step hadv, hadv.measure⟩
    · have hdone : scanLine code code.length s = .ok (.done s.data) := if_neg hlt
      exact Or.inr ⟨s.data, hdone, s, hdone, rfl, hs, Int.not_lt.mp hlt⟩
  obtain ⟨_, hloop, s, hdone, rfl, hs, hge⟩ := loop_total _ _ (scanMeasure code) hstep
    (Nat.lt_succ_self _) (scanPast_start code)
  exact ⟨_, s, hloop, hdone, hs, hge⟩

end

/-- The loop ends, and each line that is marked in the end was scanned when it was marked. -/
theorem parse_code_terminates {code : List Word} {count : Word} (hcount : count.toInt = code.length)
    (hfit : TargetsFit code) : ∃ n s,
      loop (scanLine code count.toInt) n (scanStart code) = .ok s.data ∧
      (code.length + 1 < 2 ^ 31 → parse_code n code count = .ok s.data) ∧
      ScanRun code (scanStart code) s ∧ scanLine code count.toInt s = .ok (.done s.data) ∧
      ∀ j < code.length, Marked s.data j → Processed code s j := by
  have hlt : count.toInt < 2 ^ 31 := BitVec.toInt_lt
  have hlen : code.length = count.toNat := by
    rw [BitVec.toInt_eq_toNat_cond] at hcount
    split at hcount <;> omega
  rw [hcount] at hlt ⊢
  obtain ⟨n, s, hloop, hdone, hs, hge⟩ := scan_ends (by omega) hfit
  refine ⟨n, s, hloop, fun hn => ?_, hs.run, hdone, fun j hj => hs.processed j (by omega)⟩
  rw [parse_code_eq hlen hn]
  exact hloop

theorem targetsFit_of_within {code : List Word} (h : ∀ i w t, Reached code i → code[i]? = some w →
    target? w i = some t → 0 ≤ t ∧ t ≤ code.length) : TargetsFit code :=
  fun i hi w t hw ht => Or.inr (h i w t hi.reached hw ht)

theorem jmpAround_fit : TargetsFit jmpAround :=
  targetsFit_of_within fun i w t hi hw ht => (jmpAround_targets i w t hi hw ht).imp_right Int.le_of_lt

theorem parse_code_terminates_jmpAround : ∃ n data, parse_code n jmpAround 3 = .ok data := by
  have hcount : (3 : Word).toInt = jmpAround.length := by decide
  obtain ⟨n, s, -, hparse, -⟩ := parse_code_terminates hcount jmpAround_fit
  exact ⟨n, s.data, hparse (by decide)⟩

/-! ## The scan stays in its array -/

theorem markTarget_outside {data : List (BitVec 8)} {t : Int} {i : Nat} (hi : i < data.length)
    (ht : t < 0 ∨ data.length ≤ t) : markTarget t i data = .error .fault := by
  have hstore : storeAt data t D_INS = .error .fault := if_pos ht
  unfold markTarget goesBack
  by_cases hlt : t < i
  · have hentry : entry data t = .error .fault := if_pos (by omega)
    rw [if_pos hlt, hentry]
    rfl
  · rw [if_neg hlt, hstore]
    rfl

/-- A target behind the largest `int` wraps around or is too large. -/
theorem scanTarget_wraps {w : Word} {i : Nat} (h : jumps w = true) (hi : i + 1 < 2 ^ 31)
    (ht : 2 ^ 31 ≤ i + 1 + (displacement w).toInt) :
    scanTarget w i ≠ -1 ∧ (scanTarget w i < 0 ∨ 2 ^ 31 ≤ scanTarget w i) := by
  have hd : (displacement w).toInt < 2 ^ 31 := BitVec.toInt_lt
  have hz : displacement w ≠ 0 := by
    intro hz
    rw [hz] at ht
    simp at ht
    omega
  unfold jumps at h
  unfold displacement op_format at *
  unfold scanTarget op_format
  rw [mask_op] at *
  cases hop : ins (w.setWidth 8) <;> simp [hop] at h <;>
    simp only [hop, if_true, if_false, reduceCtorEq] at ht hd hz ⊢
  case call | jmp =>
    have hwrap : (i + 1 + (disp20 w).toInt).bmod (2 ^ 32) = i + 1 + (disp20 w).toInt - 2 ^ 32 := by
      rw [Int.bmod_def]
      split <;> omega
    rw [if_neg (mt disp20_eq_zero.mpr hz), addr_value, hwrap]
    omega
  all_goals
    rw [if_neg (mt disp16_eq_zero.mpr hz), toInt_int16]
    omega

theorem scanTarget_outside {code : List Word} {w : Word} {i : Nat} (hn : code.length < 2 ^ 31)
    (hw : code[i]? = some w) (hbad : ¬ LineFits code i) :
    jumps w = true ∧ scanTarget w i ≠ -1 ∧
      (scanTarget w i < 0 ∨ code.length + 1 ≤ scanTarget w i) := by
  have hi : i < code.length := (List.getElem?_eq_some_iff.mp hw).1
  unfold LineFits at hbad
  push Not at hbad
  obtain ⟨w', t, hw', ht, hminus, hout⟩ := hbad
  obtain rfl : w = w' := Option.some.inj (hw.symm.trans hw')
  have hj : jumps w = true := jumps_of_target ht
  obtain rfl : i + 1 + (displacement w).toInt = t :=
    Option.some.inj ((target_of_jumps i hj).symm.trans ht)
  refine ⟨hj, ?_⟩
  rcases Int.lt_or_le (i + 1 + (displacement w).toInt) (2 ^ 31) with hlt | hge
  · have hz : displacement w ≠ 0 := by
      intro hz
      rw [hz] at hout
      simp at hout
      omega
    rw [scanTarget_of_jumps hj hlt, if_neg hz]
    omega
  · have hwraps := scanTarget_wraps hj (by omega) hge
    omega

/-- A marked line whose target has no entry. -/
theorem scanLine_fault {code : List Word} {data : List (BitVec 8)} {i : Nat}
    (hn : code.length < 2 ^ 31) (hi : i < code.length) (hlen : data.length = code.length + 1)
    (hm : Marked data i) (hbad : ¬ LineFits code i) : scanLine code code.length ⟨i, data⟩ = .error .fault := by
  have hw := List.getElem?_eq_getElem hi
  obtain ⟨hj, hminus, hout⟩ := scanTarget_outside hn hw hbad
  obtain ⟨data', hnext, hg⟩ := next_marked code[i] data (by omega : i + 1 < data.length)
  have hfault : markTarget (scanTarget code[i] i) i data' = .error .fault := by
    have hlen' : data'.length = code.length + 1 := hg.length.trans hlen
    exact markTarget_outside (by omega) (by omega)
  unfold scanLine scanIns
  simp only [entry_nat hw, entry_nat hm]
  rw [if_pos (by simpa using hi)]
  simp only [bind, Except.bind]
  rw [if_pos (Or.inr trivial), hnext]
  simp only
  rw [if_pos ⟨hj, hminus⟩, hfault]

/-- The lines behind the scan have targets that fit, if no later iteration is going to fault. -/
structure ScanSafe (code : List Word) (s : Scan) : Prop where
  inv : ScanInv code s
  fits : ∀ j : Nat, j < s.pc → Marked s.data j → LineFits code j
  safe : ∀ n, loop (scanLine code code.length) n s ≠ .error .fault

section
variable {code : List Word} {s : Scan}

theorem ScanSafe.here (h : ScanSafe code s) (hn : code.length < 2 ^ 31) (hlt : s.pc < code.length)
    (i : Nat) (hi : s.pc = i) (hm : Marked s.data i) : LineFits code i := by
  by_contra hbad
  obtain ⟨pc, data⟩ := s
  obtain rfl : pc = i := hi
  have hi : i < code.length := by simpa using hlt
  exact h.safe 1 (loop_error (scanLine_fault hn hi h.inv.length hm hbad))

theorem ScanSafe.step (h : ScanSafe code s) (hn : code.length < 2 ^ 31) (hlt : s.pc < code.length) :
    ∃ s', scanLine code code.length s = .ok (.next s') ∧ ScanSafe code s' ∧
      scanMeasure code s' < scanMeasure code s := by
  obtain ⟨s', hadv⟩ := scanInv_step hn (h.here hn hlt) h.inv hlt
  refine ⟨s', hadv.line, ⟨hadv.inv, fun j hj hm => ?_, fun n hfault => ?_⟩, hadv.measure⟩
  · obtain ⟨hm, hle⟩ := hadv.behind j hj hm
    rcases Int.lt_or_eq_of_le hle with hlt' | heq
    · exact h.fits j hlt' hm
    · exact h.here hn hlt j heq.symm hm
  · apply h.safe (n + 1)
    simp only [loop, hadv.line]
    exact hfault

/-- If the scan does not fault, the targets of the lines that it comes to fit. -/
theorem targetsFit_of_safe (hn : code.length < 2 ^ 31)
    (h : ∀ n, loop (scanLine code code.length) n (scanStart code) ≠ .error .fault) :
    TargetsFit code := by
  have hstart : ScanSafe code (scanStart code) := by
    refine ⟨scanInv_start code, fun j hj _ => ?_, h⟩
    have hj : (j : Int) < 0 := hj
    omega
  have hstep : ∀ s, ScanSafe code s →
      (∃ s', scanLine code code.length s = .ok (.next s') ∧ ScanSafe code s' ∧
        scanMeasure code s' < scanMeasure code s) ∨
      ∃ data, scanLine code code.length s = .ok (.done data) ∧ TargetsFit code := by
    intro s hs
    by_cases hlt : s.pc < code.length
    · exact Or.inl (hs.step hn hlt)
    · refine Or.inr ⟨s.data, if_neg hlt, fun i hseen w t hw => ?_⟩
      have hi : i < code.length := (List.getElem?_eq_some_iff.mp hw).1
      have hm : Marked s.data i := (scanInv_done hs.inv (Int.not_lt.mp hlt) hi).mpr hseen
      exact hs.fits i (by omega) hm w t hw
  obtain ⟨-, -, hfit⟩ := loop_total _ _ (scanMeasure code) hstep (Nat.lt_succ_self _) hstart
  exact hfit

end

/-- The accesses to the array are in it, if and only if it could be allocated and the targets of the
lines that the scan comes to have entries, or are -1. -/
theorem parse_code_safe_iff {code : List Word} {count : Word} (hcount : count.toInt = code.length) :
    (∀ n, parse_code n code count ≠ .error .fault) ↔ code.length + 1 < 2 ^ 31 ∧ TargetsFit code := by
  have hlen : code.length = count.toNat := by
    rw [BitVec.toInt_eq_toNat_cond] at hcount
    split at hcount <;> omega
  constructor
  · intro hsafe
    have hn : code.length + 1 < 2 ^ 31 := by
      by_contra hn
      exact hsafe 0 (parse_code_fault (by omega) 0)
    refine ⟨hn, targetsFit_of_safe (by omega) fun n hfault => hsafe n ?_⟩
    rw [parse_code_eq hlen hn]
    exact hfault
  · rintro ⟨hn, hfit⟩ n hfault
    obtain ⟨k, s, hloop, -⟩ := scan_ends (by omega) hfit
    rw [parse_code_eq hlen hn] at hfault
    cases loop_budget hloop hfault

theorem parse_code_safe_jmpAround :
    jmpAround.length = 3 ∧ ∀ n, parse_code n jmpAround 3 ≠ .error .fault := by
  have hcount : (3 : Word).toInt = jmpAround.length := by decide
  exact ⟨rfl, (parse_code_safe_iff hcount).mpr ⟨by decide, jmpAround_fit⟩⟩

/-- `jmp` to the line -4, and `jmp` to the line 100 of one. -/
theorem parse_code_outside :
    target? 0xffffb014 0 = some (-4) ∧ parse_code 1 [0xffffb014] 1 = .error .fault ∧
    target? 0x00063014 0 = some 100 ∧ parse_code 1 [0x00063014] 1 = .error .fault := by
  decide

end Cs720.Vm
