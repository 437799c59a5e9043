import Cs720.Lib.History
import Cs720.Threads.Blocked

/-! # Mutexes -/

namespace Cs720.Threads

open Cs720.Lib

/-! ## What the log says -/

/-- The threads that were pushed on the queue of the mutex. -/
def queuedOn (m : Ptr) (l : List Event) : List Nat :=
  l.filterMap fun
    | .queued j k => if j = m then some k else none
    | _ => none

/-- The threads that were popped from it, and got the mutex. -/
def handedOn (m : Ptr) (l : List Event) : List Nat :=
  l.filterMap fun
    | .handed j k => if j = m then some k else none
    | _ => none

/-- A return from a call that gives the mutex to its caller. -/
def Gains (m : Ptr) (k : Nat) : Event → Prop
  | .returned j c v => j = k ∧ c.wants = some m ∧ v = 1
  | _ => False

/-- An unlock of the mutex, or a wait that releases it. -/
def Loses (m : Ptr) (k : Nat) : Event → Prop
  | .returned j c v => j = k ∧ c = .unlock m ∧ v = 1
  | .waited _ i j => i = m ∧ j = k
  | _ => False

instance (m : Ptr) (k : Nat) : DecidablePred (Gains m k) := fun e => by
  unfold Gains
  split <;> infer_instance

instance (m : Ptr) (k : Nat) : DecidablePred (Loses m k) := fun e => by
  unfold Loses
  split <;> infer_instance

/-- The thread `k` is between a return that gave it the mutex and its next unlock or wait. -/
def Holds (l : List Event) (m : Ptr) (k : Nat) : Prop := Since (Gains m k) (Loses m k) l

instance (l : List Event) (m : Ptr) (k : Nat) : Decidable (Holds l m k) :=
  inferInstanceAs (Decidable (Since _ _ l))

/-- The event gives no thread a mutex, and is not about a queue. -/
structure Neutral (e : Event) : Prop where
  gains : ∀ m k, ¬ Gains m k e
  queued : ∀ m, queuedOn m [e] = []
  handed : ∀ m, handedOn m [e] = []

section
variable {l : List Event} {e : Event} {m : Ptr} {k : Nat}

theorem queuedOn_concat : queuedOn m (l ++ [e]) = queuedOn m l ++ queuedOn m [e] :=
  List.filterMap_append

theorem handedOn_concat : handedOn m (l ++ [e]) = handedOn m l ++ handedOn m [e] :=
  List.filterMap_append

theorem holds_concat : Holds (l ++ [e]) m k ↔ Gains m k e ∨ ¬ Loses m k e ∧ Holds l m k :=
  since_concat

theorem holds_neutral (hg : ¬ Gains m k e) (hl : ¬ Loses m k e) :
    Holds (l ++ [e]) m k ↔ Holds l m k := since_skip hg hl

theorem holds_of_concat (hg : ¬ Gains m k e) (h : Holds (l ++ [e]) m k) : Holds l m k :=
  ((holds_concat.mp h).resolve_left hg).2

theorem neutral_returned {c : Call} {v : Int} (hc : c.wants = none ∨ v ≠ 1) :
    Neutral (.returned k c v) := by
  refine ⟨?_, fun m => rfl, fun m => rfl⟩
  rintro m j ⟨-, hw, rfl⟩
  simp [hw] at hc

theorem neutral_quiet {s : State} {c : Call} {v : Int} (h : Quiet s c v) :
    Neutral (.returned k c v) := by
  apply neutral_returned
  cases c with
  | lock m => exact Or.inr (by rw [h.2]; decide)
  | wait d m => exact Or.inr (by rw [h.2]; decide)
  | _ => exact Or.inl rfl

end

/-! ## The invariant -/

/-- The thread `k` owns the mutex. -/
structure Keeps (s : State) (m : Ptr) (k : Nat) : Prop where
  locked : (s.mutex m).locked = true
  owner : (s.mutex m).owner = k
  init : (s.mutex m).q ≠ none

structure Locks (s : State) : Prop where
  locked : ∀ {m}, (s.mutex m).waiters ≠ [] → (s.mutex m).locked = true
  order : ∀ m, queuedOn m s.log = handedOn m s.log ++ (s.mutex m).waiters.map fun p => (s.tcb p).tid
  keeps : ∀ {m k}, Holds s.log m k → Keeps s m k
  granted : ∀ {p c v m}, s.live p = true → s.pending p = some (c, v) → c.wants = some m →
    (s.mutex m).q ≠ none ∧ ¬ Holds s.log m (s.tcb p).tid ∧
      ((s.tcb p).status = .WORKING → Owns s m p)

section
variable {P : State → Blocks → Call → Prop} {b : Blocks} {s s₁ : State} {T : Table}
  {loc : Ptr → Option (Place Wait)} {m d p x : Ptr} {e : Event} {c : Call}

theorem keeps_of_owns (ho : Owns s m p) (hq : (s.mutex m).q ≠ none) : Keeps s m (s.tcb p).tid :=
  ⟨ho.1, ho.2, hq⟩

theorem keeps_one {j k : Nat} (hj : Keeps s m j) (hk : Keeps s m k) : j = k :=
  Int.ofNat_inj.mp (hj.owner.symm.trans hk.owner)

theorem not_holds (h : Locks s) (ho : ¬ Owns s m p) : ¬ Holds s.log m (s.tcb p).tid :=
  fun hh => ho ⟨(h.keeps hh).locked, (h.keeps hh).owner⟩

/-! ## Writes -/

theorem locks_congr (h : Locks s) (hm : s₁.mutex = s.mutex) (hlog : s₁.log = s.log)
    (htid : ∀ {m p}, p ∈ (s.mutex m).waiters → (s₁.tcb p).tid = (s.tcb p).tid)
    (hg : ∀ {p c v m}, s₁.live p = true → s₁.pending p = some (c, v) → c.wants = some m →
      (s.mutex m).q ≠ none ∧ ¬ Holds s.log m (s₁.tcb p).tid ∧
        ((s₁.tcb p).status = .WORKING → Owns s₁ m p)) : Locks s₁ := by
  refine ⟨?_, ?_, ?_, ?_⟩
  · rw [hm]
    exact h.locked
  · intro m
    rw [hlog, hm, h.order m, List.map_congr_left fun p hp => htid hp]
  · intro m k hh
    rw [hlog] at hh
    have hk := h.keeps hh
    exact ⟨hm ▸ hk.locked, hm ▸ hk.owner, hm ▸ hk.init⟩
  · intro p c v m hl hp hw
    rw [hm, hlog]
    exact hg hl hp hw

/-- What has nothing to do with mutexes. -/
theorem locks_same (h : Locks s) (hm : s₁.mutex = s.mutex) (hlog : s₁.log = s.log)
    (hlive : s₁.live = s.live) (hp : s₁.pending = s.pending)
    (htcb : ∀ p, (s₁.tcb p).tid = (s.tcb p).tid ∧ (s₁.tcb p).status = (s.tcb p).status) :
    Locks s₁ := by
  refine locks_congr h hm hlog (fun _ => (htcb _).1) ?_
  intro p c v m hl hpend hw
  rw [hlive] at hl
  rw [hp] at hpend
  unfold Owns
  rw [(htcb p).1, (htcb p).2, hm]
  exact h.granted hl hpend hw

theorem locks_note (h : Locks s) (he : Neutral e) : Locks (s.note e) := by
  refine ⟨h.locked, ?_, ?_, ?_⟩
  · intro m
    rw [State.note_log, queuedOn_concat, handedOn_concat, he.queued, he.handed, List.append_nil,
      List.append_nil]
    exact h.order m
  · intro m k hk
    have hk := h.keeps (holds_of_concat (he.gains m k) hk)
    exact ⟨hk.locked, hk.owner, hk.init⟩
  · intro p c v m hp hpend hc
    obtain ⟨h1, h2, h3⟩ := h.granted hp hpend hc
    exact ⟨h1, fun hh => h2 (holds_of_concat (he.gains m _) hh), h3⟩

/-- The current thread returns with the mutex. -/
theorem locks_gain (h : Locks s) (ht : TableOk s T) (hl : s.live p = true) (ho : Owns s m p)
    (hq : (s.mutex m).q ≠ none) (hpend : s.pending p = none) (hc : c.wants = some m) :
    Locks (s.note (.returned (s.tcb p).tid c 1)) := by
  have hholds : ∀ {i k}, Holds (s.log ++ [.returned (s.tcb p).tid c 1]) i k →
      (i = m ∧ k = (s.tcb p).tid) ∨ Holds s.log i k := by
    intro i k hk
    rw [holds_concat] at hk
    rcases hk with ⟨rfl, hw, -⟩ | ⟨-, hk⟩
    · rw [hc, Option.some_inj] at hw
      exact Or.inl ⟨hw.symm, rfl⟩
    · exact Or.inr hk
  refine ⟨h.locked, ?_, ?_, ?_⟩
  · intro k
    rw [State.note_log, queuedOn_concat, handedOn_concat]
    simpa [queuedOn, handedOn] using h.order k
  · intro i k hk
    have hik : Keeps s i k := by
      rcases hholds hk with ⟨rfl, rfl⟩ | hk
      · exact keeps_of_owns ho hq
      · exact h.keeps hk
    exact ⟨hik.locked, hik.owner, hik.init⟩
  · intro q c' v i hlq hqp hw
    obtain ⟨h1, h2, h3⟩ := h.granted hlq hqp hw
    refine ⟨h1, fun hh => ?_, h3⟩
    rcases hholds hh with ⟨-, hid⟩ | hh
    · have hqp' : s.pending q = some (c', v) := hqp
      rw [tid_inj ht hlq hl hid, hpend] at hqp'
      contradiction
    · exact h2 hh

theorem locks_pend (h : Locks s) {v : Option (Call × Int)}
    (hv : ∀ c v' m, v = some (c, v') → c.wants = some m → (s.mutex m).q ≠ none ∧
      ¬ Holds s.log m (s.tcb p).tid ∧ ((s.tcb p).status = .WORKING → Owns s m p)) :
    Locks (s.pend p v) := by
  refine locks_congr h rfl rfl (fun _ => rfl) ?_
  intro q c v' m hq hqp hw
  rw [State.pend_pending] at hqp
  by_cases hqp' : q = p
  · subst hqp'
    rw [Function.update_self] at hqp
    exact hv c v' m hqp hw
  · rw [Function.update_of_ne hqp'] at hqp
    exact h.granted hq hqp hw

/-- A thread that begins to work must own the mutex that it wants. -/
theorem locks_status (h : Locks s) {y : Status}
    (hy : y = .WORKING → ∀ c v m, s.pending p = some (c, v) → c.wants = some m → Owns s m p) :
    Locks (s.setStatus p y) := by
  refine locks_congr h rfl rfl (fun _ => by simp) ?_
  intro q c v m hq hqp hw
  obtain ⟨h1, h2, h3⟩ := h.granted hq hqp hw
  refine ⟨h1, by simpa using h2, fun hst => ?_⟩
  simp only [Owns, State.setStatus_tcb, State.setStatus_mutex, withStatus_same, withStatus_status]
    at hst ⊢
  by_cases hqp' : q = p
  · subst hqp'
    rw [if_pos rfl] at hst
    exact hy hst c v m hqp hw
  · rw [if_neg hqp'] at hst
    exact h3 hst

/-- `p` gets the mutex, which was free. -/
theorem locks_acquire (h : Locks s) (hl : (s.mutex m).locked = false) (p : Ptr) :
    Locks (s.acquire m p) := by
  have hother : ∀ {i}, (s.mutex i).locked = true → i ≠ m := by
    rintro i hi rfl
    rw [hi] at hl
    contradiction
  refine ⟨?_, ?_, ?_, ?_⟩
  · intro k hk
    by_cases hkm : k = m
    · simp [hkm]
    · simp only [State.acquire_mutex, Function.update_of_ne hkm] at hk ⊢
      exact h.locked hk
  · intro k
    by_cases hkm : k = m
    · simpa [hkm, Mutex.waiters] using h.order m
    · simpa [Function.update_of_ne hkm] using h.order k
  · intro i k hk
    have hk := h.keeps hk
    have him := hother hk.locked
    refine ⟨?_, ?_, ?_⟩
    · simpa [Function.update_of_ne him] using hk.locked
    · simpa [Function.update_of_ne him] using hk.owner
    · simpa [Function.update_of_ne him] using hk.init
  · intro q c v k hq hqp hw
    obtain ⟨h1, h2, h3⟩ := h.granted hq hqp hw
    refine ⟨?_, h2, fun hst => ?_⟩
    · by_cases hkm : k = m
      · simpa [hkm] using hkm ▸ h1
      · simpa [Function.update_of_ne hkm] using h1
    · have ho := h3 hst
      simpa [Owns, Function.update_of_ne (hother ho.1)] using ho

theorem locks_enqueue (h : Locks s) (hl : (s.mutex m).locked = true) (p : Ptr) :
    Locks (s.enqueue m p) := by
  have hholds : ∀ i k, Holds (s.log ++ [.queued m (s.tcb p).tid]) i k ↔ Holds s.log i k :=
    fun i k => holds_neutral id id
  have hsame : ∀ i, ((s.enqueue m p).mutex i).locked = (s.mutex i).locked ∧
      ((s.enqueue m p).mutex i).owner = (s.mutex i).owner ∧
      ((s.mutex i).q ≠ none → ((s.enqueue m p).mutex i).q ≠ none) := by
    intro i
    by_cases him : i = m
    · simp [him]
    · simp [Function.update_of_ne him]
  refine ⟨?_, ?_, ?_, ?_⟩
  · intro k hk
    by_cases hkm : k = m
    · simp [hkm, hl]
    · simp only [State.enqueue_mutex, Function.update_of_ne hkm] at hk ⊢
      exact h.locked hk
  · intro k
    rw [State.enqueue_log, queuedOn_concat, handedOn_concat, h.order k]
    by_cases hkm : k = m
    · subst hkm
      simp [queuedOn, handedOn, Mutex.waiters]
    · simp [queuedOn, handedOn, Function.update_of_ne hkm, Ne.symm hkm]
  · intro i k hk
    rw [State.enqueue_log, hholds] at hk
    have hk := h.keeps hk
    exact ⟨(hsame i).1.trans hk.locked, (hsame i).2.1.trans hk.owner, (hsame i).2.2 hk.init⟩
  · intro q c v k hq hqp hw
    obtain ⟨h1, h2, h3⟩ := h.granted hq hqp hw
    rw [State.enqueue_log, hholds]
    refine ⟨(hsame k).2.2 h1, h2, fun hst => ?_⟩
    exact ⟨(hsame k).1.trans (h3 hst).1, (hsame k).2.1.trans (h3 hst).2⟩

theorem locks_newMutex (h : Locks s) (hq : (s.mutex m).q = none) : Locks (s.newMutex m) := by
  have hother : ∀ {k}, (s.mutex k).q ≠ none → k ≠ m := by
    rintro k hk rfl
    exact hk hq
  refine ⟨?_, ?_, ?_, ?_⟩
  · intro k hk
    by_cases hkm : k = m
    · simp [hkm, Mutex.waiters] at hk
    · simp only [State.newMutex_mutex, State.putMutex_mutex, Function.update_of_ne hkm] at hk ⊢
      exact h.locked hk
  · intro k
    by_cases hkm : k = m
    · simpa [hkm, Mutex.waiters, hq] using h.order m
    · simpa [Function.update_of_ne hkm] using h.order k
  · intro i k hh
    have hk := h.keeps hh
    have him := hother hk.init
    refine ⟨?_, ?_, ?_⟩
    · simpa [Function.update_of_ne him] using hk.locked
    · simpa [Function.update_of_ne him] using hk.owner
    · simpa [Function.update_of_ne him] using hk.init
  · intro q c v k hl hp hw
    obtain ⟨h1, h2, h3⟩ := h.granted hl hp hw
    have hkm := hother h1
    refine ⟨by simpa [Function.update_of_ne hkm] using h1, h2, fun hst => ?_⟩
    simpa [Owns, Function.update_of_ne hkm] using h3 hst

theorem locks_unwait (h : Locks s) (d : Ptr) (i : CondInfo) (rest : List CondInfo) :
    Locks (s.unwait d i rest) := by
  have hput : Locks (s.putCond d rest) := locks_same h rfl rfl rfl rfl fun _ => ⟨rfl, rfl⟩
  exact locks_note hput ⟨fun _ _ => id, fun _ => rfl, fun _ => rfl⟩

/-! ### Unlocking -/

theorem not_granted (h : Locks s) (hcalm : Calm s T loc) (ho : Owns s m s.current_thread)
    {q : Ptr} {v : Int} (hq : s.live q = true) (hp : s.pending q = some (c, v))
    (hw : c.wants = some m) : (s.tcb q).status ≠ .WORKING := by
  intro hst
  have hown := (h.granted hq hp hw).2.2 hst
  have hqc := tid_inj hcalm.table hq (current_live hcalm.toInv)
    (Int.ofNat_inj.mp (hown.2.symm.trans ho.2))
  rw [hqc, hcalm.returned] at hp
  contradiction

/-- After the event `e`, in which the owner gives the mutex away, other mutexes are held as
before. -/
theorem holds_given (h : Locks s) (ho : Owns s m s.current_thread)
    (hlose : Loses m (s.tcb s.current_thread).tid e) (he : Neutral e) {l : List Event} {i : Ptr}
    {k : Nat} (hl : ∀ j r, Holds l j r → Holds s.log j r) (hh : Holds (l ++ [e]) i k) :
    i ≠ m ∧ Holds s.log i k := by
  rw [holds_concat] at hh
  obtain ⟨hn, hh⟩ := hh.resolve_left (he.gains i k)
  refine ⟨?_, hl i k hh⟩
  rintro rfl
  have hk := h.keeps (hl i k hh)
  rw [keeps_one hk (keeps_of_owns ho hk.init)] at hn
  exact hn hlose

theorem locks_release (h : Locks s) (hcalm : Calm s T loc) (ho : Owns s m s.current_thread)
    (hq : (s.mutex m).waiters = []) (hlose : Loses m (s.tcb s.current_thread).tid e)
    (he : Neutral e) : Locks ((s.release m).note e) := by
  have hlast : ∀ {i k}, Holds (s.log ++ [e]) i k → i ≠ m ∧ Holds s.log i k :=
    holds_given h ho hlose he fun _ _ => id
  refine ⟨?_, ?_, ?_, ?_⟩
  · intro k hk
    by_cases hkm : k = m
    · simp [hkm, Mutex.waiters] at hk
    · simp only [State.note_mutex, State.release_mutex, Function.update_of_ne hkm] at hk ⊢
      exact h.locked hk
  · intro k
    rw [State.note_log, queuedOn_concat, handedOn_concat, he.queued, he.handed, List.append_nil,
      List.append_nil, State.release_log, h.order k]
    by_cases hkm : k = m
    · subst hkm
      rw [hq]
      simp [Mutex.waiters]
    · simp [Function.update_of_ne hkm]
  · intro i k hh
    obtain ⟨him, hh⟩ := hlast hh
    have hk := h.keeps hh
    refine ⟨?_, ?_, ?_⟩
    · simpa [Function.update_of_ne him] using hk.locked
    · simpa [Function.update_of_ne him] using hk.owner
    · simpa [Function.update_of_ne him] using hk.init
  · intro q c v k hl hp hw
    obtain ⟨h1, h2, h3⟩ := h.granted hl hp hw
    refine ⟨?_, fun hh => h2 (hlast hh).2, fun hst => ?_⟩
    · by_cases hkm : k = m
      · simp [hkm]
      · simpa [Function.update_of_ne hkm] using h1
    · have hkm : k ≠ m := by
        rintro rfl
        exact not_granted h hcalm ho hl hp hw hst
      simpa [Owns, Function.update_of_ne hkm] using h3 hst

theorem locks_hand (h : Locks s) (hb : Blocked s) (hcalm : Calm s T loc)
    (ho : Owns s m s.current_thread) {xs : List Ptr} (hq : (s.mutex m).waiters = x :: xs)
    (hlose : Loses m (s.tcb s.current_thread).tid e) (he : Neutral e) :
    Locks ((s.hand m x xs).note e) := by
  have hlast : ∀ {i k}, Holds (s.log ++ [.handed m (s.tcb x).tid] ++ [e]) i k →
      i ≠ m ∧ Holds s.log i k :=
    holds_given h ho hlose he fun _ _ => (holds_neutral id id).mp
  obtain ⟨c₀, hx, hcx⟩ := hb.mutex (m := m) (p := x) (by simp [hq])
  refine ⟨?_, ?_, ?_, ?_⟩
  · intro k hk
    by_cases hkm : k = m
    · simp [hkm, ho.1]
    · simp only [State.note_mutex, State.hand_mutex, Function.update_of_ne hkm] at hk ⊢
      exact h.locked hk
  · intro k
    rw [State.note_log, queuedOn_concat, handedOn_concat, he.queued, he.handed, List.append_nil,
      List.append_nil, State.hand_log, queuedOn_concat, handedOn_concat, h.order k]
    by_cases hkm : k = m
    · simp only [hkm, hq]
      simp [Mutex.waiters, queuedOn, handedOn]
    · simp [Function.update_of_ne hkm, queuedOn, handedOn, Ne.symm hkm]
  · intro i k hh
    obtain ⟨him, hh⟩ := hlast hh
    have hk := h.keeps hh
    refine ⟨?_, ?_, ?_⟩
    · simpa [Function.update_of_ne him] using hk.locked
    · simpa [Function.update_of_ne him] using hk.owner
    · simpa [Function.update_of_ne him] using hk.init
  · intro q c v k hl hp hw
    obtain ⟨h1, h2, h3⟩ := h.granted hl hp hw
    refine ⟨?_, ?_, fun hst => ?_⟩
    · by_cases hkm : k = m
      · simp [hkm]
      · simpa [Function.update_of_ne hkm] using h1
    · simp only [State.note_tcb, State.hand_tcb, withStatus_same]
      exact fun hh => h2 (hlast hh).2
    · by_cases hqx : q = x
      · subst hqx
        have hck : c₀ = c := by
          have := hx.symm.trans hp
          simp only [Option.some.injEq, Prod.mk.injEq] at this
          exact this.1
        rw [← hck, hcx, Option.some_inj] at hw
        subst hw
        simp [Owns, ho.1]
      · simp only [State.note_tcb, State.hand_tcb, withStatus_status, if_neg hqx] at hst
        have hkm : k ≠ m := by
          rintro rfl
          exact not_granted h hcalm ho hl hp hw hst
        simpa [Owns, Function.update_of_ne hkm] using h3 hst

/-- The owner gives the mutex away, which is the event `e`. -/
theorem locks_unlocks (h : Locks s) (hb : Blocked s) (hcalm : Calm s T loc)
    (ho : Owns s m s.current_thread) (hu : Unlocks s m s₁)
    (hlose : Loses m (s.tcb s.current_thread).tid e) (he : Neutral e) : Locks (s₁.note e) := by
  cases hu with
  | release hq => exact locks_release h hcalm ho (by simp [Mutex.waiters, hq]) hlose he
  | hand x xs hq => exact locks_hand h hb hcalm ho (by simp [Mutex.waiters, hq]) hlose he

/-- A thread ends. Its observer waits for no mutex. -/
theorem locks_terminate (h : Locks s) (hb : Blocked s) (hcalm : Calm s T loc)
    (hst : Steady s s₁) (he : Ends s s₁) : Locks (s₁.pend s.current_thread none) := by
  have hneutral : Neutral (.terminated (s.tcb s.current_thread).tid) :=
    ⟨fun _ _ => id, fun _ => rfl, fun _ => rfl⟩
  refine locks_congr (locks_note h hneutral) hst.mutex he.log (fun _ => he.tid _) ?_
  intro q c v k hl hp hw
  rw [State.pend_live, he.live] at hl
  rw [State.pend_pending, hst.pending] at hp
  have hqc : q ≠ s.current_thread := by
    rintro rfl
    rw [Function.update_self] at hp
    contradiction
  rw [Function.update_of_ne hqc] at hp
  obtain ⟨h1, h2, h3⟩ := (locks_note h hneutral).granted hl.1 hp hw
  refine ⟨h1, ?_, fun hstat => ?_⟩
  · rw [State.pend_tcb, he.tid]
    exact h2
  · rw [State.pend_tcb, he.status, if_neg hqc] at hstat
    split at hstat
    · rename_i hobs
      obtain ⟨id, hjoin, -⟩ := hb.join (current_live hcalm.toInv) (hobs.1 ▸ hobs.2)
      rw [← hobs.1, hp] at hjoin
      cases hjoin
      simp [Call.wants] at hw
    · simpa [Owns, hst.mutex, he.tid] using h3 hstat

theorem locks_created (h : Locks s) (hinv : Inv s T loc) (hb : Spare s b) (info : BitVec 64) :
    Locks (s.created b info T) := by
  have hne : ∀ {q}, s.live q = true → q ≠ b.thread.addr := by
    rintro q hq rfl
    exact (thread_spare hb).2 hq
  refine locks_congr h rfl rfl ?_ ?_
  · intro m p hp
    rw [State.created_tcb, Function.update_of_ne (hne (mutex_waiting hinv hp).1)]
  · intro q c v k hl hp hw
    have hqb : q ≠ b.thread.addr := by
      rintro rfl
      simp at hp
    rw [State.created_live, Function.update_of_ne hqb] at hl
    rw [State.created_pending, Function.update_of_ne hqb] at hp
    simp only [Owns, State.created_tcb, Function.update_of_ne hqb]
    exact h.granted hl hp hw

theorem neutral_waited {k : Nat} : Neutral (.waited d m k) :=
  ⟨fun _ _ => id, fun _ => rfl, fun _ => rfl⟩

theorem locks_started (h : Off s) : Locks (s.started b) := by
  refine ⟨?_, ?_, fun hh => absurd hh id, ?_⟩
  · intro m hm
    simp [Mutex.waiters, h.mutex] at hm
  · intro m
    simp [queuedOn, handedOn, Mutex.waiters, h.mutex]
  · intro p c v m hp hpend
    rw [pending_started h hp] at hpend
    contradiction

/-- A free mutex is taken. -/
theorem locks_gets (h : Locks s) (hcalm : Calm s T loc) (hl : (s.mutex m).locked = false)
    (hinit : (s.mutex m).q ≠ none) :
    Locks ((s.acquire m s.current_thread).note
      (.returned (s.tcb s.current_thread).tid (.lock m) 1)) := by
  have htab : TableOk (s.acquire m s.current_thread) T :=
    table_congr hcalm.table rfl rfl rfl (by simp)
  have hlive : (s.acquire m s.current_thread).live s.current_thread = true := by
    simpa using current_live hcalm.toInv
  refine locks_gain (locks_acquire h hl _) htab hlive ?_ ?_ hcalm.returned rfl
  · simp [Owns]
  · simpa using hinit

/-- A locked mutex is waited for. -/
theorem locks_queue (h : Locks s) (hl : (s.mutex m).locked = true)
    (ho : ¬ Owns s m s.current_thread) :
    Locks (((s.setStatus s.current_thread .WAITING).enqueue m s.current_thread).pend
      s.current_thread (some (.lock m, 1))) := by
  have hwait := locks_status (p := s.current_thread) (y := .WAITING) h (by simp)
  refine locks_pend (locks_enqueue hwait hl s.current_thread) ?_
  intro c v k hc hw
  cases hc
  rw [Call.wants, Option.some_inj] at hw
  subst hw
  refine ⟨by simp, fun hh => ?_, fun hst => ?_⟩
  · simp only [State.enqueue_tcb, State.setStatus_tcb, withStatus_same] at hh
    exact not_holds h ho (holds_of_concat id hh)
  · simp at hst

/-- The mutex is released, and the thread waits for the condition. -/
theorem locks_wait (h : Locks s) (hb : Blocked s) (hcalm : Calm s T loc)
    (ho : Owns s m s.current_thread) (hu : Unlocks s m s₁) :
    Locks ((s₁.await d m s.current_thread).pend s.current_thread (some (.wait d m, 1))) := by
  have htid : (s₁.tcb s.current_thread).tid = (s.tcb s.current_thread).tid := by
    cases hu <;> simp
  have hgive := locks_unlocks (e := .waited d m (s₁.tcb s.current_thread).tid) h hb hcalm ho hu
    (by rw [htid]; exact ⟨rfl, rfl⟩) neutral_waited
  have hwait := locks_status (p := s.current_thread) (y := .WAITING) hgive (by simp)
  have hput : Locks (s₁.await d m s.current_thread) :=
    locks_same hwait rfl rfl rfl rfl fun _ => ⟨rfl, rfl⟩
  refine locks_pend hput ?_
  intro c v k hc hw
  cases hc
  rw [Call.wants, Option.some_inj] at hw
  subst hw
  refine ⟨?_, fun hh => ?_, fun hst => ?_⟩
  · exact (inv_unlocks hcalm.toInv hcalm.works hu).2.2
  · rw [State.await_log, holds_concat] at hh
    refine hh.elim id fun hh => hh.1 ⟨rfl, ?_⟩
    simp
  · simp at hst

/-- The first wait on the condition ends, and its thread takes the mutex, which is free. -/
theorem locks_signalFree (h : Locks s) (hb : Blocked s) {i : CondInfo} {rest : List CondInfo}
    (hd : s.cond d = some (i :: rest)) (hl : (s.mutex i.mutex).locked = false) :
    Locks ((((s.unwait d i rest).acquire i.mutex i.thread).setStatus i.thread .WORKING).enready
      i.thread) := by
  have hi : i ∈ (s.cond d).getD [] := by simp [hd]
  have hgot := locks_acquire (locks_unwait h d i rest) hl i.thread
  have hwake : Locks (((s.unwait d i rest).acquire i.mutex i.thread).setStatus i.thread
      .WORKING) := by
    refine locks_status hgot ?_
    intro _ c v k hp hw
    have hp : s.pending i.thread = some (c, v) := hp
    rw [hb.cond hi] at hp
    cases hp
    rw [Call.wants, Option.some_inj] at hw
    subst hw
    simp [Owns]
  exact locks_same hwake rfl rfl rfl rfl fun _ => ⟨rfl, rfl⟩

/-- A thread returns from a call. If it waited for a mutex, it has it now. -/
theorem locks_resume (h : Locks s) (hinv : Inv s T loc)
    (hw : (s.tcb s.current_thread).status = .WORKING) {v : Int}
    (hp : s.pending s.current_thread = some (c, v)) :
    Locks ((s.pend s.current_thread none).note
      (.returned (s.tcb s.current_thread).tid c v)) := by
  have hpend := locks_pend (p := s.current_thread) (v := none) h (by simp)
  by_cases hv : c.wants = none ∨ v ≠ 1
  · exact locks_note hpend (neutral_returned hv)
  · obtain ⟨hwants, rfl⟩ : c.wants ≠ none ∧ v = 1 := by simpa using hv
    obtain ⟨m, hm⟩ := Option.ne_none_iff_exists'.mp hwants
    have hlive := current_live hinv
    obtain ⟨hq, -, hown⟩ := h.granted hlive hp hm
    have htab : TableOk (s.pend s.current_thread none) T :=
      table_congr hinv.table rfl rfl rfl (by simp)
    exact locks_gain hpend htab hlive (hown hw) hq (by simp) hm

/-! ## Runs -/

theorem locks_stable : Stable Proper fun s => Blocked s ∧ Locks s := by
  have hblocked : Stable Proper Blocked := blocked_stable proper_rules
  refine ⟨⟨fun h => ⟨hblocked.cpu h.1, ?_⟩, ?_, ?_, ?_⟩,
    fun h hb hj => ⟨hblocked.start h hb hj, locks_started h⟩⟩
  · exact locks_same h.2 rfl rfl rfl rfl fun _ => ⟨rfl, rfl⟩
  · rintro s T loc b c o s₁ hcalm hb ha hp ⟨hbl, h⟩ hd hr
    refine ⟨hblocked.call hcalm hb ha hp hbl hd hr, ?_⟩
    cases hd with
    | quiet c v hq => exact locks_note h (neutral_quiet hq)
    | create work info =>
      exact locks_note (locks_created h hcalm.toInv hb info) (neutral_returned (Or.inl rfl))
    | yield => exact locks_pend h fun c v m hc hw => by cases hc; contradiction
    | joinDone id t => exact locks_pend h fun c v m hc hw => by cases hc; contradiction
    | join id t =>
      have hwait := locks_status (p := s.current_thread) (y := .WAITING) h (by simp)
      have hobs : Locks (s.observe t s.current_thread) :=
        locks_same hwait rfl rfl rfl rfl (by simp)
      refine locks_pend hobs ?_
      intro c v m hc hw
      cases hc
      contradiction
    | mutexInit m hm => exact locks_note (locks_newMutex h ha) (neutral_returned (Or.inl rfl))
    | acquire m hm hl => exact locks_gets h hcalm hl (hp.2.resolve_left hm)
    | enqueue m hl ho hq => exact locks_queue h hl ho
    | unlock m s₁ ho hu =>
      have htid : (s₁.tcb s.current_thread).tid = (s.tcb s.current_thread).tid := by
        cases hu <;> simp
      simp only [State.after, (unlocks_same hu).2.1, htid]
      exact locks_unlocks h hbl hcalm ho hu ⟨rfl, rfl, rfl⟩ (neutral_returned (Or.inl rfl))
    | condInit d hd =>
      have hnew : Locks (s.newCond d) := locks_same h rfl rfl rfl rfl fun _ => ⟨rfl, rfl⟩
      exact locks_note hnew (neutral_returned (Or.inl rfl))
    | wait d m s₁ ho hu hd =>
      have hcur : (s₁.await d m s.current_thread).current_thread = s.current_thread :=
        (unlocks_same hu).2.1
      simp only [State.after, hcur]
      exact locks_wait h hbl hcalm ho hu
    | signalFree d i rest hd hl =>
      exact locks_note (locks_signalFree h hbl hd hl) (neutral_returned (Or.inl rfl))
    | signalHeld d i rest hd hl =>
      exact locks_note (locks_enqueue (locks_unwait h d i rest) hl i.thread)
        (neutral_returned (Or.inl rfl))
    | cleanup s₁ hoff =>
      rw [hoff.ready] at hr
      contradiction
    | terminate s₁ s₂ ht hdes =>
      obtain ⟨-, hst, he⟩ := terminate_spec hcalm.toInv hcalm.works hcalm.returned ht hdes
      simp only [State.after, hst.current]
      exact locks_terminate h hbl hcalm hst he
  · rintro s T loc x xs hinv hrl ⟨hbl, h⟩
    exact ⟨hblocked.switch hinv hrl hbl, locks_same h rfl rfl rfl rfl (by simp)⟩
  · rintro s T loc c v hinv hw hp ⟨hbl, h⟩
    exact ⟨hblocked.resume hinv hw hp hbl, locks_resume h hinv hw hp⟩

end

/-- Whoever a lock or a wait has returned 1 to owns the mutex until it unlocks or waits, and nobody
else does. A mutex with a queue is locked, and is handed over in the order of the queue. -/
theorem mutual_exclusion {s : State} (h : Reachable Proper s) (hr : s.ready = true) :
    (∀ k c m, s.log.getLast? = some (.returned k c 1) → c.wants = some m →
      (s.mutex m).locked = true ∧ (s.mutex m).owner = k) ∧
    (∀ m k, Holds s.log m k → (s.mutex m).locked = true ∧ (s.mutex m).owner = k) ∧
    (∀ m j k, Holds s.log m j → Holds s.log m k → j = k) ∧
    (∀ m, (s.mutex m).waiters ≠ [] → (s.mutex m).locked = true) ∧
    ∀ m, queuedOn m s.log =
      handedOn m s.log ++ (s.mutex m).waiters.map fun p => (s.tcb p).tid := by
  rcases reach proper_rules locks_stable h with hoff | ⟨-, -, hl⟩
  · rw [hoff.ready] at hr
    contradiction
  · have hkeeps : ∀ m k, Holds s.log m k → (s.mutex m).locked = true ∧ (s.mutex m).owner = k :=
      fun m k hk => ⟨(hl.keeps hk).locked, (hl.keeps hk).owner⟩
    refine ⟨?_, hkeeps, fun m j k hj hk => keeps_one (hl.keeps hj) (hl.keeps hk), fun m => hl.locked,
      hl.order⟩
    intro k c m hlast hw
    obtain ⟨l, hlog⟩ := List.getLast?_eq_some_iff.mp hlast
    apply hkeeps m k
    rw [hlog, holds_concat]
    exact Or.inl ⟨rfl, hw, rfl⟩

/-- A thread gets the mutex that another has unlocked. -/
def handoverRun : List Call :=
  [.mutexInit 100, .lock 100, .create 0 0, .yield, .lock 100, .unlock 100, .yield]

theorem mutual_exclusion_handover :
    ∃ s, play Proper 9 noRegs (fresh handoverRun) booted = .ok s ∧ Holds s.log 100 1 ∧
      (s.mutex 100).owner = 1 ∧ ¬ Holds s.log 100 0 := by
  obtain ⟨s, hs, hp⟩ := ok_and (x := play Proper 9 noRegs (fresh handoverRun) booted)
    (p := fun s => s.ready && decide (Holds s.log 100 1)) (by decide +kernel)
  rw [Bool.and_eq_true, decide_eq_true_iff] at hp
  have hme := mutual_exclusion (play_reachable (.boot booted_boot) hs) hp.1
  refine ⟨s, hs, hp.2, (hme.2.1 100 1 hp.2).2, fun h0 => ?_⟩
  exact absurd (hme.2.2.1 100 1 0 hp.2 h0) (by decide)

/-- The third TCB has the address of the second one where its observer is. -/
def stale (cs : List Call) : List (Blocks × Call) :=
  (fresh cs).map fun x => if x.1.thread.addr = 18 then
      ({ x.1 with thread := ⟨18, { zeros with observer := 13 }⟩ }, x.2)
    else x

/-- The third thread ends, and wakes the second one, which waits for the mutex of the first. -/
def staleLockRun : List Call :=
  [.mutexInit 100, .lock 100, .create 0 0, .create 0 0, .yield, .lock 100, .terminate, .yield]

theorem two_owners :
    ∃ s, play Unchecked 9 noRegs (stale staleLockRun) booted = .ok s ∧ s.ready = true ∧
      Reachable Unchecked s ∧ s.log.getLast? = some (.returned 1 (.lock 100) 1) ∧
      (s.mutex 100).owner = 0 ∧ Holds s.log 100 0 ∧ Holds s.log 100 1 := by
  obtain ⟨s, hs, hp⟩ := ok_and (x := play Unchecked 9 noRegs (stale staleLockRun) booted)
    (p := fun s => s.ready && decide (s.log.getLast? = some (.returned 1 (.lock 100) 1)) &&
      decide ((s.mutex 100).owner = 0) && decide (Holds s.log 100 0) &&
      decide (Holds s.log 100 1)) (by decide +kernel)
  simp only [Bool.and_eq_true, decide_eq_true_iff] at hp
  obtain ⟨⟨⟨⟨hr, hlast⟩, ho⟩, h0⟩, h1⟩ := hp
  exact ⟨s, hs, hr, play_reachable (.boot booted_boot) hs, hlast, ho, h0, h1⟩

end Cs720.Threads
