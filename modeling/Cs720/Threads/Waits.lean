import Cs720.Threads.Locks

/-! # Conditions -/

namespace Cs720.Threads

open Cs720.Lib

/-! ## What the log says -/

/-- The waits on the condition: who waits, and with which mutex. -/
def waitedOn (d : Ptr) (l : List Event) : List (Nat × Ptr) :=
  l.filterMap fun
    | .waited j m k => if j = d then some (k, m) else none
    | _ => none

/-- The waits that a signal has ended. -/
def signalledOn (d : Ptr) (l : List Event) : List (Nat × Ptr) :=
  l.filterMap fun
    | .signalled j m k => if j = d then some (k, m) else none
    | _ => none

/-- Is the event a part of a wait of the thread `k`? -/
def OfWait (k : Nat) : Event → Prop
  | .waited _ _ j => j = k
  | .signalled _ _ j => j = k
  | .returned j (.wait _ _) v => j = k ∧ v = 1
  | _ => False

instance (k : Nat) : DecidablePred (OfWait k) := fun e => by
  rcases e with ⟨_, _ | _, _⟩ | _ | _ | _ | _ | _ <;> dsimp only [OfWait] <;> infer_instance

def waitsOf (k : Nat) (l : List Event) : List Event := l.filter fun e => OfWait k e

/-- Waits of `k`, one after the other, each with the signal that ended it. -/
inductive Rounds (k : Nat) : List Event → Prop where
  | none : Rounds k []
  | round {l : List Event} (d m : Ptr) : Rounds k l →
      Rounds k (l ++ [.waited d m k, .signalled d m k, .returned k (.wait d m) 1])

/-! ## The invariant -/

/-- Who waits in the queue of the condition, and with which mutex. -/
def State.waits (s : State) (d : Ptr) : List (Nat × Ptr) :=
  ((s.cond d).getD []).map fun i => ((s.tcb i.thread).tid, i.mutex)

/-- The thread `k` has to return from `thread_cond_wait`. -/
def InWait (s : State) (k : Nat) (d m : Ptr) (v : Int) : Prop :=
  ∃ p, s.live p = true ∧ (s.tcb p).tid = k ∧ s.pending p = some (.wait d m, v)

/-- Where `k` is in its last wait. -/
inductive Phase (s : State) (k : Nat) : Prop where
  | idle : Rounds k (waitsOf k s.log) → (∀ d m, (k, m) ∉ s.waits d) →
      (∀ d m v, ¬ InWait s k d m v) → Phase s k
  | waiting (r : List Event) (d m : Ptr) : Rounds k r →
      waitsOf k s.log = r ++ [.waited d m k] → (k, m) ∈ s.waits d → Phase s k
  | released (r : List Event) (d m : Ptr) : Rounds k r →
      waitsOf k s.log = r ++ [.waited d m k, .signalled d m k] → InWait s k d m 1 →
      (∀ d m, (k, m) ∉ s.waits d) → Phase s k

structure Waits (s : State) : Prop where
  order : ∀ d, waitedOn d s.log = signalledOn d s.log ++ s.waits d
  phase : ∀ k, Phase s k

section
variable {P : State → Blocks → Call → Prop} {b : Blocks} {s s₁ : State} {T : Table}
  {loc : Ptr → Option (Place Wait)} {m d p x : Ptr} {k : Nat} {e : Event} {l : List Event}

theorem waitsOf_concat : waitsOf k (l ++ [e]) = waitsOf k l ++ if OfWait k e then [e] else [] := by
  unfold waitsOf
  rw [List.filter_append, List.filter_singleton]
  by_cases h : OfWait k e <;> simp [h]

theorem waitedOn_concat : waitedOn d (l ++ [e]) = waitedOn d l ++ waitedOn d [e] :=
  List.filterMap_append

theorem signalledOn_concat : signalledOn d (l ++ [e]) = signalledOn d l ++ signalledOn d [e] :=
  List.filterMap_append

/-- The event is not about conditions. -/
structure Apart (e : Event) : Prop where
  ofWait : ∀ k, ¬ OfWait k e
  waited : ∀ d, waitedOn d [e] = []
  signalled : ∀ d, signalledOn d [e] = []

theorem apart_returned {c : Call} {v : Int} (h : ∀ d m, c = .wait d m → v ≠ 1) :
    Apart (.returned k c v) := by
  refine ⟨?_, fun _ => rfl, fun _ => rfl⟩
  intro j hj
  cases c with
  | wait d m => exact h d m rfl hj.2
  | _ => exact hj

theorem apart_handed : Apart (.handed m k) := ⟨fun _ => id, fun _ => rfl, fun _ => rfl⟩

theorem apart_queued : Apart (.queued m k) := ⟨fun _ => id, fun _ => rfl, fun _ => rfl⟩

theorem apart_quiet {c : Call} {v : Int} (h : Quiet s c v) : Apart (.returned k c v) := by
  apply apart_returned
  rintro d m rfl
  rw [h.2]
  decide

theorem mem_waits {i : CondInfo} (hi : i ∈ (s.cond d).getD []) :
    ((s.tcb i.thread).tid, i.mutex) ∈ s.waits d :=
  List.mem_map.mpr ⟨i, hi, rfl⟩

/-! ## Writes -/

/-- Where `k` is depends on the events of its waits, its places in the queues and its call. -/
theorem Phase.transfer (h : Phase s k) (hlog : waitsOf k s₁.log = waitsOf k s.log)
    (hwaits : ∀ d m, (k, m) ∈ s₁.waits d ↔ (k, m) ∈ s.waits d)
    (hcall : ∀ d m v, InWait s₁ k d m v ↔ InWait s k d m v) : Phase s₁ k := by
  rcases h with ⟨hr, hn, hc⟩ | ⟨r, d, m, hr, hw, hm⟩ | ⟨r, d, m, hr, hw, hc, hn⟩
  · exact .idle (hlog ▸ hr) (fun d m => mt (hwaits d m).mp (hn d m))
      fun d m v => mt (hcall d m v).mp (hc d m v)
  · exact .waiting r d m hr (hlog.trans hw) ((hwaits d m).mpr hm)
  · exact .released r d m hr (hlog.trans hw) ((hcall d m 1).mpr hc) fun d m =>
      mt (hwaits d m).mp (hn d m)

/-- What is not about waits. -/
theorem waits_congr (h : Waits s) (hlog : s₁.log = s.log) (hw : ∀ d, s₁.waits d = s.waits d)
    (hc : ∀ k d m v, InWait s₁ k d m v ↔ InWait s k d m v) : Waits s₁ := by
  refine ⟨fun d => by rw [hlog, hw, h.order d], fun k => ?_⟩
  exact (h.phase k).transfer (by rw [hlog]) (fun d m => by rw [hw]) (hc k)

theorem waits_same (h : Waits s) (hlog : s₁.log = s.log) (hcond : s₁.cond = s.cond)
    (hlive : s₁.live = s.live) (hp : s₁.pending = s.pending)
    (htid : ∀ p, (s₁.tcb p).tid = (s.tcb p).tid) : Waits s₁ := by
  refine waits_congr h hlog (fun d => ?_) fun k d m v => ?_
  · simp [State.waits, hcond, htid]
  · simp [InWait, hlive, hp, htid]

theorem waits_note (h : Waits s) (he : Apart e) : Waits (s.note e) := by
  have hsame : ∀ k, waitsOf k (s.log ++ [e]) = waitsOf k s.log := by
    intro k
    rw [waitsOf_concat, if_neg (he.ofWait k), List.append_nil]
  refine ⟨?_, ?_⟩
  · intro d
    rw [State.note_log, waitedOn_concat, signalledOn_concat, he.waited, he.signalled, List.append_nil,
      List.append_nil]
    exact h.order d
  · exact fun k => (h.phase k).transfer (hsame k) (fun _ _ => Iff.rfl) fun _ _ _ => Iff.rfl

/-- A thread in a queue has the id of `p` only if it is `p`. -/
theorem not_waits (hinv : Inv s T loc) (hp : s.live p = true) (hf : Free s p) :
    ((s.tcb p).tid, m) ∉ s.waits d := by
  intro hmem
  obtain ⟨i, hi, heq⟩ := List.mem_map.mp hmem
  rw [Prod.mk.injEq] at heq
  exact ne_of_cond hf hi (tid_inj hinv.table (cond_waiting hinv hi).1 hp heq.1)

theorem inWait_self (ht : TableOk s T) (hp : s.live p = true) {v : Int} :
    InWait s (s.tcb p).tid d m v ↔ s.pending p = some (.wait d m, v) := by
  refine ⟨?_, fun h => ⟨p, hp, rfl, h⟩⟩
  rintro ⟨q, hq, hid, h⟩
  rwa [← tid_inj ht hq hp hid]

theorem inWait_other {v : Option (Call × Int)} {w : Int} (hk : k ≠ (s.tcb p).tid) :
    InWait (s.pend p v) k d m w ↔ InWait s k d m w := by
  have hne : ∀ {q}, (s.tcb q).tid = k → q ≠ p := by
    rintro q hq rfl
    exact hk hq.symm
  constructor
  · rintro ⟨q, hq, hid, hp⟩
    rw [State.pend_pending, Function.update_of_ne (hne hid)] at hp
    exact ⟨q, hq, hid, hp⟩
  · rintro ⟨q, hq, hid, hp⟩
    refine ⟨q, hq, hid, ?_⟩
    rw [State.pend_pending, Function.update_of_ne (hne hid)]
    exact hp

/-- A thread that can work, and is in no call, is not in a wait. -/
theorem phase_idle (h : Waits s) (hinv : Inv s T loc) (hlive : s.live p = true) (hf : Free s p)
    (hp : ∀ d m v, s.pending p ≠ some (.wait d m, v)) :
    Rounds (s.tcb p).tid (waitsOf (s.tcb p).tid s.log) := by
  rcases h.phase (s.tcb p).tid with ⟨hr, -, -⟩ | ⟨r, d, m, -, -, hm⟩ | ⟨r, d, m, -, -, hc, -⟩
  · exact hr
  · exact absurd hm (not_waits hinv hlive hf)
  · exact absurd ((inWait_self hinv.table hlive).mp hc) (hp d m 1)

theorem waits_pend (h : Waits s) (hinv : Inv s T loc) (hlive : s.live p = true) (hf : Free s p)
    (hp : ∀ d m v, s.pending p ≠ some (.wait d m, v)) {v : Option (Call × Int)}
    (hv : ∀ d m w, v ≠ some (.wait d m, w)) : Waits (s.pend p v) := by
  have hidle := phase_idle h hinv hlive hf hp
  have htab : TableOk (s.pend p v) T := table_congr hinv.table rfl rfl rfl (by simp)
  refine ⟨h.order, fun k => ?_⟩
  by_cases hk : k = (s.tcb p).tid
  · subst hk
    refine .idle hidle (fun d m => not_waits (s := s) hinv hlive hf) fun d m w hc => ?_
    have hpend := (inWait_self (s := s.pend p v) htab hlive).mp hc
    rw [State.pend_pending, Function.update_self] at hpend
    exact hv d m w hpend
  · exact (h.phase k).transfer rfl (fun _ _ => Iff.rfl) fun _ _ _ => inWait_other hk

/-- A wait begins. -/
theorem waits_await (h : Waits s) (hinv : Inv s T loc) (hlive : s.live p = true) (hf : Free s p)
    (hp : ∀ d m v, s.pending p ≠ some (.wait d m, v)) :
    Waits ((s.await d m p).pend p (some (.wait d m, 1))) := by
  have hwaits : ∀ j, ((s.await d m p).pend p (some (.wait d m, 1))).waits j =
      s.waits j ++ if j = d then [((s.tcb p).tid, m)] else [] := by
    intro j
    by_cases hj : j = d <;> simp [State.waits, hj]
  refine ⟨?_, fun k => ?_⟩
  · intro j
    rw [hwaits, State.pend_log, State.await_log, waitedOn_concat, signalledOn_concat, h.order j]
    by_cases hj : j = d
    · simp [waitedOn, signalledOn, hj]
    · simp [waitedOn, signalledOn, hj, Ne.symm hj]
  · by_cases hk : k = (s.tcb p).tid
    · subst hk
      refine .waiting _ d m (phase_idle h hinv hlive hf hp) ?_ ?_
      · rw [State.pend_log, State.await_log, waitsOf_concat, if_pos (by simp [OfWait])]
      · rw [hwaits, if_pos rfl]
        simp
    · refine (h.phase k).transfer ?_ ?_ ?_
      · rw [State.pend_log, State.await_log, waitsOf_concat,
          if_neg (show ¬ OfWait k (.waited d m (s.tcb p).tid) from Ne.symm hk), List.append_nil]
      · intro j i
        rw [hwaits]
        by_cases hj : j = d <;> simp [hj, hk]
      · intro j i v
        have hother := inWait_other (s := s.await d m p) (p := p) (k := k) (d := j) (m := i) (w := v)
          (v := some (.wait d m, 1)) (by simpa using hk)
        rw [hother]
        simp [InWait]

/-- The first wait on the condition ends. -/
theorem waits_unwait (h : Waits s) (hb : Blocked s) (hinv : Inv s T loc) {i : CondInfo}
    {rest : List CondInfo} (hd : s.cond d = some (i :: rest)) : Waits (s.unwait d i rest) := by
  have hi : i ∈ (s.cond d).getD [] := by simp [hd]
  have hlive := (cond_waiting hinv hi).1
  have hnodup : (i.thread :: rest.map CondInfo.thread).Nodup := by
    have hn := hinv.sched.located.nodup (.wait (.cond d))
    rwa [queue_cond hd] at hn
  have hfront : s.waits d = ((s.tcb i.thread).tid, i.mutex) :: (s.unwait d i rest).waits d := by
    simp [State.waits, hd]
  have hother : ∀ {j}, j ≠ d → (s.unwait d i rest).waits j = s.waits j := by
    intro j hj
    simp [State.waits, Function.update_of_ne hj]
  have honly : ∀ {j i'}, ((s.tcb i.thread).tid, i') ∈ s.waits j → j = d ∧ i' = i.mutex := by
    intro j i' hmem
    obtain ⟨a, ha, heq⟩ := List.mem_map.mp hmem
    rw [Prod.mk.injEq] at heq
    have hthread := tid_inj hinv.table (cond_waiting hinv ha).1 hlive heq.1
    have hpend := hb.cond ha
    rw [hthread, hb.cond hi] at hpend
    simp only [Option.some.injEq, Prod.mk.injEq, Call.wait.injEq] at hpend
    exact ⟨hpend.1.1.symm, heq.2.symm.trans hpend.1.2.symm⟩
  have hgone : ∀ {j i'}, ((s.tcb i.thread).tid, i') ∉ (s.unwait d i rest).waits j := by
    intro j i' hmem
    by_cases hj : j = d
    · subst hj
      obtain ⟨a, ha, heq⟩ := List.mem_map.mp hmem
      simp only [State.unwait_cond, Function.update_self, Option.getD_some] at ha
      rw [State.unwait_tcb, Prod.mk.injEq] at heq
      have hal : s.live a.thread = true := (cond_waiting hinv (d := j) (by simp [hd, ha])).1
      have hthread := tid_inj hinv.table hal hlive heq.1
      exact (List.nodup_cons.mp hnodup).1 (hthread ▸ List.mem_map_of_mem ha)
    · rw [hother hj] at hmem
      exact hj (honly hmem).1
  refine ⟨?_, fun k => ?_⟩
  · intro j
    rw [State.unwait_log, waitedOn_concat, signalledOn_concat, h.order j]
    by_cases hj : j = d
    · subst hj
      simp [waitedOn, signalledOn, hfront]
    · simp [waitedOn, signalledOn, hother hj, Ne.symm hj]
  · by_cases hk : k = (s.tcb i.thread).tid
    · subst hk
      have hmem : ((s.tcb i.thread).tid, i.mutex) ∈ s.waits d := mem_waits hi
      have hcall : InWait (s.unwait d i rest) (s.tcb i.thread).tid d i.mutex 1 :=
        ⟨i.thread, hlive, rfl, hb.cond hi⟩
      rcases h.phase (s.tcb i.thread).tid with
        ⟨hr, hn, -⟩ | ⟨r, j, i', hr, hw, hm⟩ | ⟨r, j, i', hr, hw, hc, hn⟩
      · exact absurd hmem (hn d i.mutex)
      · obtain ⟨rfl, rfl⟩ := honly hm
        refine .released r j i.mutex hr ?_ hcall fun _ _ => hgone
        rw [State.unwait_log, waitsOf_concat, if_pos (by simp [OfWait]), hw]
        simp
      · exact absurd hmem (hn d i.mutex)
    · refine (h.phase k).transfer ?_ ?_ fun _ _ _ => Iff.rfl
      · rw [State.unwait_log, waitsOf_concat,
          if_neg (show ¬ OfWait k (.signalled d i.mutex (s.tcb i.thread).tid) from Ne.symm hk),
          List.append_nil]
      · intro j i'
        by_cases hj : j = d
        · subst hj
          simp [hfront, hk]
        · rw [hother hj]

/-- A thread ends. It is in no wait, nor is the thread that is freed. -/
theorem waits_terminate (h : Waits s) (hcalm : Calm s T loc) (hst : Steady s s₁) (he : Ends s s₁) :
    Waits (s₁.pend s.current_thread none) := by
  have hap : Apart (.terminated (s.tcb s.current_thread).tid) :=
    ⟨fun _ => id, fun _ => rfl, fun _ => rfl⟩
  refine waits_congr (waits_note h hap) he.log (fun d => ?_) fun k d m v => ?_
  · simp [State.waits, hst.cond, he.tid]
  · constructor
    · rintro ⟨p, hl, hid, hp⟩
      rw [State.pend_live, he.live] at hl
      rw [State.pend_tcb, he.tid] at hid
      rw [State.pend_pending, hst.pending] at hp
      by_cases hpc : p = s.current_thread
      · simp [hpc] at hp
      · rw [Function.update_of_ne hpc] at hp
        exact ⟨p, hl.1, hid, hp⟩
    · rintro ⟨p, hl, hid, hp⟩
      have hp : s.pending p = some (.wait d m, v) := hp
      refine ⟨p, (he.live p).mpr ⟨hl, ?_⟩, (he.tid p).trans hid, ?_⟩
      · rintro rfl
        rw [hcalm.pending_done hl (he.next_done hl)] at hp
        contradiction
      · rw [State.pend_pending, hst.pending, Function.update_of_ne]
        · exact hp
        · rintro rfl
          rw [hcalm.returned] at hp
          contradiction

/-- A thread comes. It is in no wait. -/
theorem waits_created (h : Waits s) (hinv : Inv s T loc) (hb : Spare s b) (info : BitVec 64) :
    Waits (s.created b info T) := by
  have hne : ∀ {q}, s.live q = true → q ≠ b.thread.addr := by
    rintro q hq rfl
    exact (thread_spare hb).2 hq
  refine waits_congr h rfl (fun d => ?_) fun k d m v => ?_
  · refine List.map_congr_left fun i hi => ?_
    have hi : i ∈ (s.cond d).getD [] := hi
    rw [State.created_tcb, Function.update_of_ne (hne (cond_waiting hinv hi).1)]
  · constructor
    · rintro ⟨p, hl, hid, hp⟩
      have hpb : p ≠ b.thread.addr := by
        rintro rfl
        simp at hp
      rw [State.created_live, Function.update_of_ne hpb] at hl
      rw [State.created_tcb, Function.update_of_ne hpb] at hid
      rw [State.created_pending, Function.update_of_ne hpb] at hp
      exact ⟨p, hl, hid, hp⟩
    · rintro ⟨p, hl, hid, hp⟩
      refine ⟨p, ?_, ?_, ?_⟩
      · rwa [State.created_live, Function.update_of_ne (hne hl)]
      · rwa [State.created_tcb, Function.update_of_ne (hne hl)]
      · rwa [State.created_pending, Function.update_of_ne (hne hl)]

/-- A thread returns from a call. -/
theorem waits_resume (h : Waits s) (hinv : Inv s T loc)
    (hw : (s.tcb s.current_thread).status = .WORKING) {c : Call} {v : Int}
    (hp : s.pending s.current_thread = some (c, v)) :
    Waits ((s.pend s.current_thread none).note
      (.returned (s.tcb s.current_thread).tid c v)) := by
  have hf : Free s s.current_thread := free_of_status hinv (by simp [hw])
  have hlive := current_live hinv
  by_cases hc : ∃ d m, c = .wait d m
  · obtain ⟨d, m, rfl⟩ := hc
    rcases h.phase (s.tcb s.current_thread).tid with
      ⟨-, -, hq⟩ | ⟨r, e, k, -, -, hm⟩ | ⟨r, e, k, hr, hlog, hq, hn⟩
    · exact absurd ⟨s.current_thread, hlive, rfl, hp⟩ (hq d m v)
    · exact absurd hm (not_waits hinv hlive hf)
    · rw [inWait_self hinv.table hlive, hp] at hq
      cases hq
      have htab : TableOk (s.pend s.current_thread none) T :=
        table_congr hinv.table rfl rfl rfl (by simp)
      refine ⟨?_, fun k => ?_⟩
      · intro j
        rw [State.note_log, waitedOn_concat, signalledOn_concat, State.pend_log, h.order j]
        simp only [waitedOn, signalledOn, List.filterMap_cons, List.filterMap_nil, List.append_nil]
        rfl
      · by_cases hk : k = (s.tcb s.current_thread).tid
        · subst hk
          refine .idle ?_ hn fun i j w hc => ?_
          · rw [State.note_log, waitsOf_concat, if_pos ⟨rfl, rfl⟩, State.pend_log, hlog,
              List.append_assoc]
            exact .round d m hr
          · have hpend := (inWait_self (s := s.pend s.current_thread none) htab hlive).mp hc
            simp at hpend
        · refine (h.phase k).transfer ?_ (fun _ _ => Iff.rfl) fun _ _ _ => inWait_other hk
          rw [State.note_log, State.pend_log, waitsOf_concat, if_neg fun ho => hk ho.1.symm,
            List.append_nil]
  · have hother : ∀ d m, c ≠ .wait d m := fun d m heq => hc ⟨d, m, heq⟩
    refine waits_note (waits_pend h hinv hlive hf ?_ (by simp))
      (apart_returned fun d m heq => absurd heq (hother d m))
    intro d m k heq
    rw [hp] at heq
    cases heq
    exact hother d m rfl

/-- The mutex is released or handed over. That is no event of a wait. -/
theorem waits_unlocks (h : Waits s) (hu : Unlocks s m s₁) : Waits s₁ := by
  cases hu with
  | release hq => exact waits_same h rfl rfl rfl rfl fun _ => rfl
  | hand x xs hq =>
    have hx : Waits (((s.putMutex m { s.mutex m with q := some xs, owner := (s.tcb x).tid }).setStatus
        x .WORKING).enready x) := waits_same h rfl rfl rfl rfl (by simp)
    exact waits_note hx apart_handed

theorem waits_started (h : Off s) : Waits (s.started b) := by
  refine ⟨?_, fun k => .idle .none ?_ ?_⟩
  · intro d
    simp [waitedOn, signalledOn, State.waits, h.cond]
  · intro d m
    simp [State.waits, h.cond]
  · rintro d m v ⟨p, hl, -, hp⟩
    rw [pending_started h hl] at hp
    contradiction

/-! ## Runs -/

theorem waits_stable (hP : Rules P) : Stable P fun s => Blocked s ∧ Waits s := by
  have hblocked := blocked_stable hP
  refine ⟨⟨fun h => ⟨hblocked.cpu h.1, ?_⟩, ?_, ?_, ?_⟩,
    fun h hb hj => ⟨hblocked.start h hb hj, waits_started h⟩⟩
  · exact waits_same h.2 rfl rfl rfl rfl fun _ => rfl
  · rintro s T loc b c o s₁ hcalm hb ha hp ⟨hbl, h⟩ hd hr
    refine ⟨hblocked.call hcalm hb ha hp hbl hd hr, ?_⟩
    have hf := free_current hcalm
    have hlive := current_live hcalm.toInv
    have hnone : ∀ d m v, s.pending s.current_thread ≠ some (.wait d m, v) := by
      simp [hcalm.returned]
    have hother : ∀ {c : Call} {v : Int} {k : Nat}, (∀ d m, c ≠ .wait d m) →
        Apart (.returned k c v) := fun hc => apart_returned fun d m heq => absurd heq (hc d m)
    have hpend {v : Option (Call × Int)} (hv : ∀ d m w, v ≠ some (.wait d m, w)) :
        Waits (s.pend s.current_thread v) := waits_pend h hcalm.toInv hlive hf hnone hv
    cases hd with
    | quiet c v hq => exact waits_note h (apart_quiet hq)
    | create work info => exact waits_note (waits_created h hcalm.toInv hb info) (hother (by simp))
    | yield => exact hpend (by simp)
    | joinDone id t => exact hpend (by simp)
    | join id t =>
      refine waits_same (hpend (v := some (.join id, 0)) (by simp)) rfl rfl rfl rfl ?_
      simp [State.after]
    | mutexInit m hm => exact waits_note (waits_same h rfl rfl rfl rfl fun _ => rfl) (hother (by simp))
    | acquire m hm hl => exact waits_note (waits_same h rfl rfl rfl rfl fun _ => rfl) (hother (by simp))
    | enqueue m hl ho hq =>
      have hnote := waits_note (hpend (v := some (.lock m, 1)) (by simp))
        (apart_queued (m := m) (k := (s.tcb s.current_thread).tid))
      refine waits_same hnote ?_ rfl rfl rfl ?_
      · simp [State.after]
      · simp [State.after]
    | unlock m s₁ ho hu => exact waits_note (waits_unlocks h hu) (hother (by simp))
    | condInit d hd =>
      have hnew : s.cond d = none := ha
      refine waits_note (waits_congr h rfl (fun k => ?_) fun k e m v => Iff.rfl) (hother (by simp))
      by_cases hk : k = d <;> simp [State.waits, hk, hnew]
    | wait d m s₁ ho hu hd =>
      obtain ⟨hlive₁, hcur, -, -, hpend₁⟩ := unlocks_same hu
      obtain ⟨⟨l, hinv⟩, -⟩ := inv_unlocks hcalm.toInv hcalm.works hu
      have hcur' : (s₁.await d m s.current_thread).current_thread = s.current_thread := hcur
      simp only [State.after, hcur']
      exact waits_await (waits_unlocks h hu) hinv (hlive₁ ▸ hlive) (free_unlocks hf hu)
        (hpend₁ ▸ hnone)
    | signalFree d i rest hd hl =>
      have hfront := waits_unwait h hbl hcalm.toInv hd
      have hwake : Waits ((((s.unwait d i rest).acquire i.mutex i.thread).setStatus i.thread
        .WORKING).enready i.thread) := waits_same hfront rfl rfl rfl rfl (by simp)
      exact waits_note hwake (hother (by simp))
    | signalHeld d i rest hd hl =>
      have hqueued := waits_note (waits_unwait h hbl hcalm.toInv hd)
        (apart_queued (m := i.mutex) (k := (s.tcb i.thread).tid))
      have hput : Waits ((s.unwait d i rest).enqueue i.mutex i.thread) :=
        waits_same hqueued (by simp) rfl rfl rfl (by simp)
      exact waits_note hput (hother (by simp))
    | cleanup s₁ hoff =>
      rw [hoff.ready] at hr
      contradiction
    | terminate s₁ s₂ ht hdes =>
      obtain ⟨-, hst, he⟩ := terminate_spec hcalm.toInv hcalm.works hcalm.returned ht hdes
      simp only [State.after, hst.current]
      exact waits_terminate h hcalm hst he
  · rintro s T loc x xs hinv hrl ⟨hbl, h⟩
    exact ⟨hblocked.switch hinv hrl hbl, waits_same h rfl rfl rfl rfl (by simp)⟩
  · rintro s T loc c v hinv hw hp ⟨hbl, h⟩
    exact ⟨hblocked.resume hinv hw hp hbl, waits_resume h hinv hw hp⟩

end

/-! ## Signals -/

/-- The thread has the mutex of its wait, or is next in line for it. -/
def Released (s : State) (i : CondInfo) : Prop :=
  i.thread ∈ s.ready_list.getD [] ∧ Owns s i.mutex i.thread ∨
    (s.mutex i.mutex).locked = true ∧ i.thread ∈ (s.mutex i.mutex).waiters

/-- The waits of `k` so far, and where `k` is in the last one. -/
inductive Awaits (s : State) (k : Nat) : Prop where
  | nowhere : Rounds k (waitsOf k s.log) → Awaits s k
  | queued (r : List Event) (d m : Ptr) : Rounds k r → waitsOf k s.log = r ++ [.waited d m k] →
      (k, m) ∈ s.waits d → Awaits s k
  | signalled (r : List Event) (d m : Ptr) : Rounds k r →
      waitsOf k s.log = r ++ [.waited d m k, .signalled d m k] → Awaits s k

section
variable {b : Blocks} {s : State} {T : Table} {loc : Ptr → Option (Place Wait)} {d m : Ptr}

variable (b) in
theorem signal_empty (h : Calm s T loc) (hd : d ≠ 0) (hq : s.cond d = some []) (n : Nat) :
    perform b n (.signal d) s = .ok (.ret 1, s) := by
  obtain ⟨o, s₁, hrun, hdoes⟩ : Acts b n s T (.signal d) :=
    acts_signal h.toInv (Or.inr (by simp [hq]))
  cases hdoes with
  | quiet c v hv =>
    rcases hv with ⟨h0, -⟩ | ⟨-, -, rfl⟩
    · exact absurd h0 hd
    · exact hrun
  | signalFree _ i rest hq' _ => simp [hq] at hq'
  | signalHeld _ i rest hq' _ => simp [hq] at hq'

variable (b) in
theorem signal_front (h : Calm s T loc) {i : CondInfo} {rest : List CondInfo}
    (hq : s.cond d = some (i :: rest)) (hd : d ≠ 0) (n : Nat) :
    ∃ s₁, perform b n (.signal d) s = .ok (.ret 1, s₁) ∧ s₁.cond d = some rest ∧
      Released s₁ i ∧ ∀ e, signalledOn e s₁.log = signalledOn e s.log ++
        if e = d then [((s.tcb i.thread).tid, i.mutex)] else [] := by
  obtain ⟨o, s₁, hrun, hdoes⟩ : Acts b n s T (.signal d) :=
    acts_signal h.toInv (Or.inr (by simp [hq]))
  cases hdoes with
  | quiet c v hv =>
    rcases hv with ⟨h0, -⟩ | ⟨-, hempty, -⟩
    · exact absurd h0 hd
    · simp [hq] at hempty
  | signalFree _ j rest' hq' hl =>
    rw [hq] at hq'
    cases hq'
    refine ⟨_, hrun, by simp, Or.inl ⟨by simp, by simp [Owns]⟩, fun e => ?_⟩
    by_cases he : e = d
    · simp [signalledOn, he]
    · simp [signalledOn, he, Ne.symm he]
  | signalHeld _ j rest' hq' hl =>
    rw [hq] at hq'
    cases hq'
    refine ⟨_, hrun, by simp, Or.inr ⟨by simp [hl], by simp [Mutex.waiters]⟩, fun e => ?_⟩
    by_cases he : e = d
    · simp [signalledOn, he]
    · simp [signalledOn, he, Ne.symm he]

variable (b) in
/-- A wait does nothing, or the caller is in the queue as soon as it has released the mutex. -/
theorem wait_queues (h : Calm s T loc) (hs : Safe s (.wait d m)) (n : Nat) :
    perform b n (.wait d m) s = .ok (.ret 0, s) ∨
    ∃ s₁, perform b n (.wait d m) s = .ok (.yield (some 1), s₁) ∧
      s₁.cond d = some ((s.cond d).getD [] ++ [⟨s.current_thread, m⟩]) := by
  obtain ⟨o, s₁, hrun, hdoes⟩ : Acts b n s T (.wait d m) := acts_wait h.toInv hs
  cases hdoes with
  | quiet c v hv =>
    obtain ⟨-, rfl⟩ := hv
    exact Or.inl hrun
  | wait _ _ s₂ ho hu hc =>
    refine Or.inr ⟨_, hrun, ?_⟩
    simp [(unlocks_same hu).2.2.1]

end

/-- Signals end waits in the order in which they began, and nothing else does. A thread whose wait
has not been signalled is in the queue. -/
theorem no_lost_wakeup {s : State} (h : Reachable Tidy s) (hr : s.ready = true) :
    (∀ d, waitedOn d s.log = signalledOn d s.log ++ s.waits d) ∧
    (∀ k, Awaits s k) ∧
    (∀ b n d, d ≠ 0 → s.cond d = some [] → perform b n (.signal d) s = .ok (.ret 1, s)) ∧
    (∀ b n d i rest, d ≠ 0 → s.cond d = some (i :: rest) →
      ∃ s₁, perform b n (.signal d) s = .ok (.ret 1, s₁) ∧ s₁.cond d = some rest ∧
        Released s₁ i ∧ ∀ e, signalledOn e s₁.log = signalledOn e s.log ++
          if e = d then [((s.tcb i.thread).tid, i.mutex)] else []) ∧
    ∀ b n d m, Safe s (.wait d m) →
      perform b n (.wait d m) s = .ok (.ret 0, s) ∨
      ∃ s₁, perform b n (.wait d m) s = .ok (.yield (some 1), s₁) ∧
        s₁.cond d = some ((s.cond d).getD [] ++ [⟨s.current_thread, m⟩]) := by
  rcases reach tidy_rules (waits_stable tidy_rules) h with hoff | ⟨⟨T, loc, hcalm⟩, -, hw⟩
  · rw [hoff.ready] at hr
    contradiction
  · refine ⟨hw.order, fun k => ?_, fun b n d hd hq => signal_empty b hcalm hd hq n,
      fun b n d i rest hd hq => signal_front b hcalm hq hd n,
      fun b n d m hs => wait_queues b hcalm hs n⟩
    rcases hw.phase k with ⟨hp, -, -⟩ | ⟨r, d, m, hp, hl, hc⟩ | ⟨r, d, m, hp, hl, -, -⟩
    · exact .nowhere hp
    · exact .queued r d m hp hl hc
    · exact .signalled r d m hp hl

/-- A thread waits on a condition, and another signals it. -/
def signalRun : List Call :=
  [.mutexInit 100, .condInit 200, .create 0 0, .yield, .lock 100, .wait 200 100, .signal 200, .yield]

theorem no_lost_wakeup_signal :
    ∃ s, play Tidy 9 noRegs (fresh signalRun) booted = .ok s ∧
      signalledOn 200 s.log = [(1, 100)] ∧ waitedOn 200 s.log = [(1, 100)] ++ s.waits 200 := by
  obtain ⟨s, hs, hp⟩ := ok_and (x := play Tidy 9 noRegs (fresh signalRun) booted)
    (p := fun s => s.ready && decide (signalledOn 200 s.log = [(1, 100)])) (by decide +kernel)
  rw [Bool.and_eq_true, decide_eq_true_iff] at hp
  have horder := (no_lost_wakeup (play_reachable (.boot booted_boot) hs) hp.1).1 200
  rw [hp.2] at horder
  exact ⟨s, hs, hp.2, horder⟩

/-- The third thread ends, and wakes the second one, which waits on a condition. -/
def staleWaitRun : List Call :=
  [.mutexInit 100, .condInit 200, .create 0 0, .create 0 0, .yield, .lock 100, .wait 200 100,
    .terminate, .yield]

theorem spurious_wakeup :
    ∃ s, play Unchecked 9 noRegs (stale staleWaitRun) booted = .ok s ∧ s.ready = true ∧
      Reachable Unchecked s ∧ s.log.getLast? = some (.returned 1 (.wait 200 100) 1) ∧
      signalledOn 200 s.log = [] := by
  obtain ⟨s, hs, hp⟩ := ok_and (x := play Unchecked 9 noRegs (stale staleWaitRun) booted)
    (p := fun s => s.ready && decide (s.log.getLast? = some (.returned 1 (.wait 200 100) 1)) &&
      decide (signalledOn 200 s.log = [])) (by decide +kernel)
  simp only [Bool.and_eq_true, decide_eq_true_iff] at hp
  obtain ⟨⟨hr, hlast⟩, hnone⟩ := hp
  exact ⟨s, hs, hr, play_reachable (.boot booted_boot) hs, hlast, hnone⟩

end Cs720.Threads
