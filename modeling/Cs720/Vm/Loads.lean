import Cs720.Lib.Interleave
import Cs720.Vm.Executable

/-! # Loads one after another

The list of symbols is never emptied, and a load that returns 0 can have changed the memory.
-/

namespace Cs720.Vm

open Cs720.Lib Cs720.Link

/-- A call of `loadExecutableFile`. -/
structure Load where
  file : Option File
  junk : Nat → Word

/-- The VM, and the file of the last load that returned 1. -/
structure Session where
  vm : VM
  current : Option File

def loadStep (l : Load) (s : Session) : C Session := do
  let r ← loadExecutableFile l.junk s.vm l.file
  return ⟨r.vm, if r.success = 1 then l.file else s.current⟩

/-! ## The current executable -/

/-- The program is in memory, and its symbols are those that are found. -/
structure VM.Has (vm : VM) (p : Program) : Prop where
  memory : ∀ k w, p.code[k]? = some w → vm.memory (BitVec.ofNat 32 k) = w
  progEnd : vm.progEnd.toNat = p.code.length
  entryPoint : vm.entryPoint = p.entry
  symbols : ∀ label,
    (∃ e ∈ p.insyms, e.name.bytes = label ∧ getAddress vm label = .ok (some e.address)) ∨
      (∀ e ∈ p.insyms, e.name.bytes ≠ label) ∧ getAddress vm label = .ok none

/-- The VM has the current executable. Before the first there is no symbol. -/
def Session.Right (s : Session) : Prop :=
  match s.current with
  | none => ∀ label, getAddress s.vm label = .ok none
  | some fp => ∃ p : Program, p.In fp ∧ s.vm.Has p

/-! ## Loads that keep it right -/

/-- There is no such file, or it has outsymbols. -/
def Rejected (l : Load) : Prop := ∀ fp, l.file = some fp → lengths fp 1 ≠ 0

/-- The load returns 0 before it has parsed an insymbol: the code is cut short, or there are none.
-/
structure NoSymbols (fp : File) : Prop where
  outsyms : lengths fp 1 = 0
  buffer : ¬ NoBuffer fp
  fits : wordsRead fp ≤ MEM_SIZE
  none : wordsRead fp ≠ codeCount fp ∨ (lengths fp 0).toInt ≤ 0

/-- The file holds a program whose names are short, and which has each label that is found now. -/
structure Replaces (fp : File) (vm : VM) (p : Program) : Prop where
  file : p.In fp
  short : Short p.insyms
  labels : ∀ label a, getAddress vm label = .ok (some a) → ∃ e ∈ p.insyms, e.name.bytes = label

/-- The load changes nothing, or there is nothing to change yet, or it replaces all symbols. -/
def Clean (l : Load) (s : Session) : Prop :=
  Rejected l ∨ (∃ fp, l.file = some fp ∧ (s.current = none ∧ NoSymbols fp ∨
    ∃ p, Replaces fp s.vm p))

section
variable {l : Load} {s : Session} {fp : File} {p : Program}

variable (vm : VM) in
theorem load_rejected (h : Rejected l) : ∃ errorNumber,
    loadExecutableFile l.junk vm l.file = .ok ⟨0, errorNumber, vm⟩ := by
  unfold Rejected at h
  cases hfile : l.file with
  | none => exact ⟨_, rfl⟩
  | some fp =>
    rw [load_eq, if_pos (h fp hfile)]
    exact ⟨_, rfl⟩

variable (junk : Nat → Word) (vm : VM) in
theorem load_noSymbols (h : NoSymbols fp) : ∃ errorNumber,
    loadExecutableFile junk vm (some fp) = .ok ⟨0, errorNumber, vm.withRead fp⟩ := by
  rw [load_eq, if_neg (not_not_intro h.outsyms), if_neg h.buffer, if_neg (Nat.not_lt.mpr h.fits)]
  by_cases hcount : wordsRead fp = codeCount fp
  · have hle : (lengths fp 0).toInt ≤ 0 := h.none.resolve_left (not_not_intro hcount)
    have hoffsets : offsets (lengths fp 0).toInt = [] := by
      unfold offsets
      rw [Int.toNat_of_nonpos hle]
      rfl
    rw [if_neg (not_not_intro hcount), hoffsets]
    exact ⟨_, rfl⟩
  · rw [if_pos hcount]
    exact ⟨_, rfl⟩

theorem has_withProgram {vm : VM} (hlabels : ∀ label a, getAddress vm label = .ok (some a) →
    ∃ e ∈ p.insyms, e.name.bytes = label) (hfind : ∀ label, ∃ a, getAddress vm label = .ok a) :
    (vm.withProgram p).Has p := by
  refine ⟨fun _ _ => withProgram_memory, withProgram_progEnd, rfl, ?_⟩
  intro label
  rcases find_push p.insyms label vm.symbols with hnew | ⟨hne, hold⟩
  · exact .inl hnew
  right
  refine ⟨hne, hold.trans ?_⟩
  obtain ⟨_ | a, ha⟩ := hfind label
  · exact ha
  · obtain ⟨e, he, hname⟩ := hlabels label a ha
    exact absurd hname (hne e he)

/-- Each label has an answer. -/
theorem find_right (h : s.Right) (label : List Byte) : ∃ a, getAddress s.vm label = .ok a := by
  unfold Session.Right at h
  split at h
  · exact ⟨_, h label⟩
  · obtain ⟨p, -, hp⟩ := h
    rcases hp.symbols label with ⟨e, -, -, hfind⟩ | ⟨-, hfind⟩
    · exact ⟨_, hfind⟩
    · exact ⟨_, hfind⟩

theorem step_program (hfile : l.file = some fp) (hin : p.In fp) (hshort : Short p.insyms) :
    loadStep l s = .ok ⟨s.vm.withProgram p, some fp⟩ := by
  unfold loadStep
  rw [hfile, load_program hin hshort]
  rfl

theorem step_clean (hs : s.Right) (h : Clean l s) : ∃ s', loadStep l s = .ok s' ∧ s'.Right := by
  rcases h with hrejected | ⟨fp, hfile, ⟨hnone, hno⟩ | ⟨p, hp⟩⟩
  · obtain ⟨errorNumber, hload⟩ := load_rejected s.vm hrejected
    unfold loadStep
    rw [hload]
    exact ⟨s, rfl, hs⟩
  · obtain ⟨errorNumber, hload⟩ := load_noSymbols l.junk s.vm hno
    unfold loadStep
    rw [hfile, hload]
    refine ⟨⟨s.vm.withRead fp, s.current⟩, rfl, ?_⟩
    unfold Session.Right at hs ⊢
    rw [hnone] at hs ⊢
    exact hs
  · exact ⟨_, step_program hfile hp.file hp.short, p, hp.file,
      has_withProgram hp.labels (find_right hs)⟩

/-- If the VM has no symbols at first and each load is clean, the VM has the current executable
after any loads. -/
theorem current_executable {block : VM} (hnull : block.symbols = .null) (ls : List Load)
    (h : Along loadStep Clean ls ⟨initVm block, none⟩) :
    ∃ s, playFrom loadStep ls ⟨initVm block, none⟩ = .ok s ∧ s.Right := by
  refine playFrom_along (fun l s => step_clean) ?_ h
  intro label
  unfold getAddress initVm
  rw [hnull]
  rfl

end

def labelF : Name := nameF

/-- One `halt`. -/
def onlyMain : Program where
  insyms := [⟨Link.mainx20, 0⟩]
  code := [0]
  entry := 0
  main := by decide
  fits := oneWord_fits

/-- One `halt`, with the insymbol `f`. -/
def withF : Program where
  insyms := [⟨Link.mainx20, 0⟩, ⟨labelF, 0⟩]
  code := [0]
  entry := 0
  main := by decide
  fits := oneWord_fits

/-- The load of the file of `p`. -/
def loadOf (p : Program) : Load := ⟨some p.file, fun _ => 0⟩

theorem current_executable_two : ∃ s,
    playFrom loadStep [loadOf onlyMain, ⟨none, fun _ => 0⟩, loadOf withF] ⟨initVm blank, none⟩ =
      .ok s ∧ s.Right := by
  have hmain : onlyMain.In onlyMain.file := in_file (by decide)
  have hf : withF.In withF.file := in_file (by decide)
  refine current_executable rfl _ ⟨?_, fun s₁ h₁ => ⟨.inl nofun, fun s₂ h₂ => ⟨?_, fun _ _ => trivial⟩⟩⟩
  · exact .inr ⟨_, rfl, .inr ⟨onlyMain, hmain, by decide, nofun⟩⟩
  · rw [step_program rfl hmain (by decide)] at h₁
    cases h₁
    cases h₂
    refine .inr ⟨_, rfl, .inr ⟨withF, hf, by decide, ?_⟩⟩
    intro label a h
    rcases find_push onlyMain.insyms label Symbols.null with ⟨e, he, hname, -⟩ | ⟨-, hnone⟩
    · exact ⟨e, List.mem_cons.mpr (.inl (List.mem_singleton.mp he)), hname⟩
    · cases hnone.symm.trans h

theorem only_insym {p : Program} (hp : p.In onlyMain.file) {e : Entry} (he : e ∈ p.insyms) :
    e.name = Link.mainx20 := by
  obtain ⟨n₀, n₂, syms, tail, hw, hs, -, hlists⟩ := hp.layout
  obtain rfl : n₀ = 5 := (List.cons.inj hw).1.symm
  have hlen := hlists.length
  rw [show (5 : Word).toInt = 5 from rfl] at hs
  have hone : p.insyms.length = 1 := by omega
  obtain ⟨d, hd⟩ := List.length_eq_one_iff.mp hone
  have hmain := p.main
  rw [hd] at hmain he
  obtain rfl := List.mem_singleton.mp he
  have hmem : (⟨Link.mainx20, p.entry⟩ : Entry) ∈ [e].filter fun e => e.name.bytes = mainx20 := by
    rw [hmain]
    exact List.mem_singleton_self _
  rw [← List.mem_singleton.mp (List.mem_of_mem_filter hmem)]

/-- `f` is found after a load of a file that does not have it. -/
theorem stale_symbol : ∃ s,
    playFrom loadStep [loadOf withF, loadOf onlyMain] ⟨initVm blank, none⟩ = .ok s ∧
      s.current = some onlyMain.file ∧ getAddress s.vm labelF.bytes = .ok (some 0) ∧ ¬ s.Right := by
  have hmain : onlyMain.In onlyMain.file := in_file (by decide)
  have hf : withF.In withF.file := in_file (by decide)
  refine ⟨⟨(((initVm blank).withProgram withF).withProgram onlyMain), some onlyMain.file⟩, ?_, rfl,
    rfl, ?_⟩
  · rw [playFrom, step_program rfl hf (by decide), ok_bind, playFrom,
      step_program rfl hmain (by decide)]
    rfl
  rintro ⟨p, hp, hhas⟩
  rcases hhas.symbols labelF.bytes with ⟨e, he, hname, -⟩ | ⟨-, hnone⟩
  · rw [only_insym hp he] at hname
    exact absurd hname (by decide)
  · cases hnone

end Cs720.Vm
