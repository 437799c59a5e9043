import Cs720.Threads.Runs

/-! # What most calls leave alone -/

namespace Cs720.Threads

open Cs720.Lib

/-- The event is not the end of a thread, nor of a call. -/
def Aside : Event → Prop
  | .returned _ _ _ => False
  | .terminated _ => False
  | _ => True

/-- No thread begins or ends, no join begins, and no call ends. -/
structure Minor (s s₁ : State) : Prop where
  live : s₁.live = s.live
  next : s₁.next_to_destroy = s.next_to_destroy
  table : s₁.all_threads = s.all_threads
  pending : s₁.pending = s.pending
  tid : ∀ p, (s₁.tcb p).tid = (s.tcb p).tid
  observer : ∀ p, (s₁.tcb p).observer = (s.tcb p).observer
  done : ∀ p, (s₁.tcb p).status = .DONE ↔ (s.tcb p).status = .DONE
  log : ∃ es, s₁.log = s.log ++ es ∧ ∀ e ∈ es, Aside e

section
variable {b : Blocks} {s s₁ s₂ : State} {T : Table} {loc : Ptr → Option (Place Wait)}
variable {c : Call} {o : Outcome} {m p : Ptr}

theorem minor_same (hl : s₁.live = s.live) (hn : s₁.next_to_destroy = s.next_to_destroy)
    (ht : s₁.all_threads = s.all_threads) (hp : s₁.pending = s.pending) (htcb : s₁.tcb = s.tcb)
    (hlog : s₁.log = s.log) : Minor s s₁ :=
  ⟨hl, hn, ht, hp, by simp [htcb], by simp [htcb], by simp [htcb], [], by simp [hlog]⟩

theorem minor_refl : Minor s s := minor_same rfl rfl rfl rfl rfl rfl

theorem minor_trans (h₁ : Minor s s₁) (h₂ : Minor s₁ s₂) : Minor s s₂ := by
  obtain ⟨es, hes, hall⟩ := h₁.log
  obtain ⟨fs, hfs, hall'⟩ := h₂.log
  refine ⟨h₂.live.trans h₁.live, h₂.next.trans h₁.next, h₂.table.trans h₁.table,
    h₂.pending.trans h₁.pending, fun p => (h₂.tid p).trans (h₁.tid p),
    fun p => (h₂.observer p).trans (h₁.observer p), fun p => (h₂.done p).trans (h₁.done p),
    es ++ fs, ?_, ?_⟩
  · rw [hfs, hes, List.append_assoc]
  · intro e he
    rcases List.mem_append.mp he with he | he
    · exact hall e he
    · exact hall' e he

theorem minor_note {e : Event} (he : Aside e) : Minor s (s.note e) :=
  ⟨rfl, rfl, rfl, rfl, fun _ => rfl, fun _ => rfl, fun _ => Iff.rfl, [e], rfl, by simpa using he⟩

theorem minor_putMutex (M : Mutex) : Minor s (s.putMutex m M) := minor_same rfl rfl rfl rfl rfl rfl

theorem minor_putCond (d : Ptr) (q : List CondInfo) : Minor s (s.putCond d q) :=
  minor_same rfl rfl rfl rfl rfl rfl

theorem minor_enready : Minor s (s.enready p) := minor_same rfl rfl rfl rfl rfl rfl

/-- A thread that is not done gets a status other than `DONE`. -/
theorem minor_status {x : Status} (hp : (s.tcb p).status ≠ .DONE) (hx : x ≠ .DONE) :
    Minor s (s.setStatus p x) := by
  refine ⟨rfl, rfl, rfl, rfl, by simp, by simp, fun q => ?_, [], by simp⟩
  by_cases hq : q = p <;> simp [hq, hp, hx]

theorem minor_enqueue : Minor s (s.enqueue m p) :=
  minor_trans (minor_putMutex (m := m) _) (minor_note trivial)

theorem minor_unwait (d : Ptr) (i : CondInfo) (rest : List CondInfo) :
    Minor s (s.unwait d i rest) := minor_trans (minor_putCond d rest) (minor_note trivial)

theorem minor_unlocks (h : Inv s T loc) (hu : Unlocks s m s₁) : Minor s s₁ := by
  cases hu with
  | release hq => exact minor_putMutex _
  | hand x xs hq =>
    have hx := (mutex_waiting h (m := m) (p := x) (by simp [Mutex.waiters, hq])).2
    refine minor_trans (minor_putMutex (m := m) _) (minor_trans (minor_status (p := x) ?_ ?_)
      (minor_trans minor_enready (minor_note trivial)))
    · simp [hx]
    · simp

/-- What the calls do that are not minor. -/
inductive Major (b : Blocks) (s : State) (T : Table) : Call → State → Prop where
  | create (work info : BitVec 64) : Major b s T (.create work info) (s.created b info T)
  | join (id : BitVec 64) (t : Ptr) : s.live t = true → ((s.tcb t).tid : Int) = id.toInt →
      (s.tcb t).status ≠ .DONE → (s.tcb t).observer = 0 → t ≠ s.current_thread →
      ¬ Endless (s.observe t s.current_thread).link s.current_thread →
      Major b s T (.join id) (s.observe t s.current_thread)
  | cleanup (s₁ : State) : Off s₁ → Major b s T .cleanup s₁
  | terminate (s₁ : State) : Steady s s₁ → Ends s s₁ → Major b s T .terminate s₁

theorem does_minor (h : Calm s T loc) (hd : Does b s T c o s₁) :
    Minor s s₁ ∨ Major b s T c s₁ := by
  have hw : (s.tcb s.current_thread).status ≠ .DONE := by simp [h.works]
  have hblock := minor_status (x := .WAITING) hw (by simp)
  cases hd with
  | quiet c v => exact Or.inl minor_refl
  | create work info => exact Or.inr (.create work info)
  | yield => exact Or.inl minor_refl
  | joinDone id t => exact Or.inl minor_refl
  | join id t ht hid hdone ho htc he => exact Or.inr (.join id t ht hid hdone ho htc he)
  | mutexInit m => exact Or.inl (minor_same rfl rfl rfl rfl rfl rfl)
  | acquire m => exact Or.inl (minor_putMutex _)
  | enqueue m => exact Or.inl (minor_trans hblock minor_enqueue)
  | unlock m s₁ ho hu => exact Or.inl (minor_unlocks h.toInv hu)
  | condInit d => exact Or.inl (minor_same rfl rfl rfl rfl rfl rfl)
  | wait d m s₁ ho hu =>
    left
    have hm := minor_unlocks h.toInv hu
    have hw₁ : (s₁.tcb s.current_thread).status ≠ .DONE := fun hdone => hw ((hm.done _).mp hdone)
    have hst := minor_status (x := .WAITING) hw₁ (by simp)
    exact minor_trans hm (minor_trans hst (minor_trans (minor_putCond d _) (minor_note trivial)))
  | signalFree d i rest hd hl =>
    left
    have hx := (cond_waiting h.toInv (d := d) (i := i) (by simp [hd])).2
    refine minor_trans (minor_unwait d i rest) (minor_trans (minor_putMutex _)
      (minor_trans (minor_status (p := i.thread) ?_ ?_) minor_enready))
    · simp [hx]
    · simp
  | signalHeld d i rest hd hl => exact Or.inl (minor_trans (minor_unwait d i rest) minor_enqueue)
  | cleanup s₁ hoff => exact Or.inr (.cleanup s₁ hoff)
  | terminate s₁ s₂ ht hdes =>
    obtain ⟨-, hst, he⟩ := terminate_spec h.toInv h.works h.returned ht hdes
    exact Or.inr (.terminate _ hst he)

end

end Cs720.Threads
