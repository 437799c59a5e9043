import Cs720.Vm.Locked
import Cs720.Vm.Commute

/-! # The threads of `execute` refine the cores

What the cores do one instruction at a time is what their threads do one access at a time.
-/

namespace Cs720.Vm.Locked

open Cs720.Lib

/-! ## The threads -/

/-- The next call of `executeInstruction` by the thread of the core `i`, if it is in its loop. -/
def code (vm : VM) (fpu : Fpu) (i : Nat) (core : Core) : Option (Call Word Word Core) :=
  if i < vm.numProcessors.toNat ∧ core.status = 1 then
    some ((executeInstruction vm fpu (core.reg PC) core).bind fun r => .ret r.2)
  else none

/-- What the threads share, and what each has of its own. -/
def shared (s : Sys) : Shared Nat Word Word Core := ⟨s.vm.memory, s.core⟩

/-- The threads, one access at a time. -/
abbrev play (vm : VM) (fpu : Fpu) :
    List Nat → Midway Nat Word Word Core → C (Midway Nat Word Word Core) :=
  playFrom (oneAccess (code vm fpu))

/-- No core is about to write the word that another one is about to fetch. -/
def NoRace (fpu : Fpu) (s : Sys) : Prop :=
  ∀ i j, i ≠ j → s.Running i → ¬ Wrote (footprint fpu j s) (s.pc i)

section
variable {vm : VM} {fpu : Fpu} {s s' : Sys} {i : Nat} {core : Core} {q : Call Word Word Core}
  {word : Word}

theorem steps_executeWord : Steps .ready (executeWord vm fpu word) (· ≠ .inside) := by
  refine steps_bind steps_reg fun _ => steps_then (steps_instruction fpu) fun ph hph next => ?_
  obtain ⟨_, _ | c⟩ := next
  · exact steps_bind steps_setReg fun _ => steps_pure _ hph
  · exact steps_bind (steps_setStatus c) fun _ => steps_bind steps_setReg fun _ => steps_pure _ hph

theorem sect_code (h : code vm fpu i core = some q) : q.Sect .outside := by
  unfold code at h
  split at h
  · cases h
    exact steps_bind steps_fetch (fun _ => steps_executeWord) core Core _ fun _ _ hph => hph
  · cases h

/-- Outside the lock a thread reads its instruction and nothing else. -/
theorem peeks_code {memory : Word → Word} (h : code vm fpu i core = some q) :
    q.peeks memory ⊆ [core.reg PC] := by
  unfold code at h
  split at h
  · obtain rfl := Option.some.inj h
    unfold executeInstruction
    rw [run_bind_T, Call.bind_assoc]
    by_cases hpc : (core.reg PC).toNat < MEM_SIZE
    · have hfetch : fetch (core.reg PC) core = .load (core.reg PC) fun word => .ret (word, core) :=
        if_pos hpc
      have hrest (word : Word) : (((executeWord vm fpu word) core).bind fun r =>
          (.ret r.2 : Call Word Word Core)).Sect .ready :=
        steps_executeWord core Core _ fun _ _ hph => hph
      rw [hfetch]
      refine List.cons_subset_cons _ ?_
      change (((executeWord vm fpu (memory (core.reg PC))) core).bind _).peeks memory ⊆ []
      rw [(hrest _).peeks]
      exact List.Subset.refl _
    · have hfetch : fetch (core.reg PC) core = .fail .fault := if_neg hpc
      rw [hfetch]
      exact List.nil_subset _
  · cases h

/-- A call that is made at once is a step. -/
theorem wholeCall_step (hvm : s.vm = { vm with memory := s.vm.memory }) :
    wholeCall (code vm fpu) i (shared s) = step fpu i s >>= fun s' => .ok (shared s') := by
  have hnum : s.vm.numProcessors = vm.numProcessors := by rw [hvm]
  by_cases hi : s.Running i
  · have hcode : code vm fpu i ((shared s).own i) = some
        ((executeInstruction vm fpu (s.pc i) (s.core i)).bind fun r => .ret r.2) :=
      if_pos ⟨hnum ▸ hi.1, hi.2⟩
    have hrun := (erases_executeInstruction fpu (s.pc i) (s.machine i) hvm).run
    unfold wholeCall
    rw [hcode]
    dsimp only
    rw [Call.run_bind, step_running hi]
    change ((executeInstruction vm fpu (s.pc i) (s.machine i).core).run (s.machine i).vm.memory >>= _)
      >>= _ = _
    rw [hrun]
    cases Vm.executeInstruction fpu (s.pc i) (s.machine i) <;> rfl
  · have hcode : code vm fpu i ((shared s).own i) = none := if_neg fun h => hi ⟨hnum ▸ h.1, h.2⟩
    unfold wholeCall
    rw [hcode, step_idle hi]
    rfl

theorem vm_step (hvm : s.vm = { vm with memory := s.vm.memory }) (h : step fpu i s = .ok s') :
    s'.vm = { vm with memory := s'.vm.memory } := by
  obtain ⟨hkeep, -⟩ := step_keeps h
  rw [hkeep, hvm]

theorem wholeCall_run {js : List Nat} (hvm : s.vm = { vm with memory := s.vm.memory }) :
    playFrom (wholeCall (code vm fpu)) js (shared s) =
      Vm.play fpu js s >>= fun s' => .ok (shared s') := by
  induction js generalizing s with
  | nil => rfl
  | cons j js ih =>
    rw [playFrom, wholeCall_step hvm, Vm.play, playFrom]
    cases hstep : step fpu j s with
    | error e => rfl
    | ok u => exact ih (vm_step hvm hstep)

/-- A core writes under the lock what its footprint says. -/
theorem writes_code {j : Nat} {a : Word} (hvm : s.vm = { vm with memory := s.vm.memory })
    (h : code vm fpu j (s.core j) = some q) (ha : a ∈ q.writes s.vm.memory) :
    Wrote (footprint fpu j s) a := by
  have hsect := sect_code h
  unfold code at h
  split at h
  · rename_i hj
    obtain rfl := Option.some.inj h
    have hnum : s.vm.numProcessors = vm.numProcessors := by rw [hvm]
    have herased := erases_executeInstruction fpu (s.pc j) (s.machine j) hvm
    have hrun : (executeInstruction vm fpu (s.pc j) (s.core j)).run s.vm.memory = _ := herased.run
    unfold footprint
    rw [if_pos ⟨hnum ▸ hj.1, hj.2⟩]
    cases hx : Vm.executeInstruction fpu (s.pc j) (s.machine j) with
    | error e =>
      rw [hx] at hrun
      rw [hsect.writes_error (e := e)] at ha
      · cases ha
      · rw [Call.run_bind]
        change (executeInstruction vm fpu (s.pc j) (s.core j)).run s.vm.memory >>= _ = _
        rw [hrun]
        rfl
    | ok r =>
      rw [hx] at hrun
      obtain ⟨l, hl, hwrites⟩ := herased.writes r.1 r.2 hx
      obtain rfl : r.2.log = l := hl
      refine hwrites a ?_
      change a ∈ ((executeInstruction vm fpu (s.pc j) (s.core j)).bind _).writes s.vm.memory at ha
      rw [Call.writes_bind _ _ hrun, Call.writes, List.append_nil] at ha
      exact ha
  · cases h

theorem raceFree_of_noRace (hvm : s.vm = { vm with memory := s.vm.memory })
    (h : NoRace fpu s) : RaceFree (code vm fpu) (shared s) := by
  intro i j q r hij hq hr a ha hw
  obtain rfl : a = s.pc i := List.mem_singleton.mp (peeks_code hq ha)
  refine h i j hij ?_ (writes_code hvm hr hw)
  unfold code at hq
  split at hq
  · rename_i hi
    have hnum : s.vm.numProcessors = vm.numProcessors := by rw [hvm]
    exact ⟨hnum ▸ hi.1, hi.2⟩
  · cases hq

/-! ## Runs -/

/-- The threads of a system whose cores have not begun an instruction. -/
def begin (s : Sys) : Midway Nat Word Word Core := (shared s).rest

section
variable (hrace : ∀ js s', Vm.play fpu js s = .ok s' → NoRace fpu s')
include hrace

theorem raceFree_run (js : List Nat) (u : Shared Nat Word Word Core)
    (h : playFrom (wholeCall (code s.vm fpu)) js (shared s) = .ok u) :
    RaceFree (code s.vm fpu) u := by
  rw [wholeCall_run rfl, bind_ok] at h
  obtain ⟨s', hs', h⟩ := h
  cases h
  refine raceFree_of_noRace ?_ (hrace js s' hs')
  exact playFrom_inv (P := fun u => u.vm = { s.vm with memory := u.vm.memory })
    (fun _ _ _ hu hstep => vm_step hu hstep) rfl hs'

/-- If no core is ever about to write what another one is about to fetch, the threads come to where
the cores come, with no other accesses in between, and fail if they do. -/
theorem instructions_atomic (t : Midway Nat Word Word Core) (ht : t.AtRest) :
    ((∃ is, play s.vm fpu is (begin s) = .ok t) ↔
      ∃ js s', Vm.play fpu js s = .ok s' ∧ t = begin s') := by
  constructor
  · rintro ⟨is, h⟩
    obtain ⟨js, u, hu, hF⟩ := follows_run (fun _ _ _ => sect_code) (raceFree_run hrace) h
    rw [wholeCall_run rfl, bind_ok] at hu
    obtain ⟨s', hs', hu⟩ := hu
    cases hu
    exact ⟨js, s', hs', hF.eq_of_rest ht⟩
  · rintro ⟨js, s', hs', rfl⟩
    have hwhole : playFrom (wholeCall (code s.vm fpu)) js (shared s) = .ok (shared s') := by
      rw [wholeCall_run rfl, hs']
      rfl
    exact whole_run (fun _ _ _ => sect_code) hwhole

theorem instructions_fail (e : Stop) : (∃ is, play s.vm fpu is (begin s) = .error e) ↔
    ∃ js, Vm.play fpu js s = .error e := by
  constructor
  · rintro ⟨is, h⟩
    obtain ⟨js, hjs⟩ := follows_error (fun _ _ _ => sect_code) (raceFree_run hrace) h
    rw [wholeCall_run rfl, bind_error] at hjs
    rcases hjs with hjs | ⟨_, -, hjs⟩
    · exact ⟨js, hjs⟩
    · cases hjs
  · rintro ⟨js, h⟩
    have hwhole : playFrom (wholeCall (code s.vm fpu)) js (shared s) = .error e := by
      rw [wholeCall_run rfl, h]
      rfl
    exact whole_error (fun _ _ _ => sect_code) hwhole

end

end

/-- One access at a time, the threads of `execute` have the results that the cores have one
instruction at a time, unless a core can be about to write what another one is about to fetch. -/
theorem threads_refine_cores (fpu : Fpu) (s : Sys)
    (hrace : ∀ js s', Vm.play fpu js s = .ok s' → NoRace fpu s') :
    (∀ t : Midway Nat Word Word Core, t.AtRest → ((∃ is, play s.vm fpu is (begin s) = .ok t) ↔
      ∃ js s', Vm.play fpu js s = .ok s' ∧ t = begin s')) ∧
    ∀ e, (∃ is, play s.vm fpu is (begin s) = .error e) ↔ ∃ js, Vm.play fpu js s = .error e :=
  ⟨fun t ht => instructions_atomic hrace t ht, fun e => instructions_fail hrace e⟩

/-! ## The lock -/

/-- A thread writes only while it has `memLock`, and does not end or fail before it has given it
back; and the threads can always go on until no instruction is under way or one fails. -/
theorem lock_discipline (fpu : Fpu) (s : Sys) (is : List Nat) (t : Midway Nat Word Word Core)
    (h : play s.vm fpu is (begin s) = .ok t) :
    (∀ i p, t.call i = some p → (∀ a v k, p = .store a v k → t.holder = some i) ∧
      ((∃ core, p = .ret core) ∨ (∃ e, p = .fail e) → t.holder ≠ some i)) ∧
    Finishes (code s.vm fpu) t := by
  refine ⟨fun i p hp => ?_, finish_run (fun _ _ _ => sect_code) h⟩
  obtain ⟨ph, hph, hheld⟩ := (orderly_run (fun _ _ _ => sect_code) h).sect i p hp
  constructor
  · rintro a v k rfl
    exact hheld.mp hph.1
  · rintro (⟨core, rfl⟩ | ⟨e, rfl⟩) hi
    · exact hph (hheld.mpr hi)
    · obtain rfl := hheld.mpr hi
      exact absurd (Call.sect_fail.mp hph) (by decide)

end Cs720.Vm.Locked
