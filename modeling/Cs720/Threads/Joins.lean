import Cs720.Lib.History
import Cs720.Threads.Blocked
import Cs720.Threads.Lifetime

/-! # Joins -/

namespace Cs720.Threads

open Cs720.Lib

/-- The thread `x` is blocked in a join with `y`. -/
def JoinsOn (s : State) (x y : Ptr) : Prop :=
  s.live x = true ∧ s.live y = true ∧ (s.tcb x).status = .WAITING ∧
    ∃ id, s.pending x = some (.join id, 0) ∧ ((s.tcb y).tid : Int) = id.toInt

/-- The thread with the id has terminated. -/
def Over (l : List Event) (id : BitVec 64) : Prop := ∃ k ∈ ended l, (k : Int) = id.toInt

/-- A join that returns 0 does so after the thread has terminated. -/
def AfterEnd (l : List Event) (e : Event) : Prop := ∀ k id, e = .returned k (.join id) 0 → Over l id

/-- The thread `p` waits for the one with the id, or that one has terminated. -/
def Awaited (s : State) (p : Ptr) (id : BitVec 64) : Prop :=
  (∃ t, s.live t = true ∧ (s.tcb t).observer = p ∧ ((s.tcb t).tid : Int) = id.toInt) ∨ Over s.log id

structure Joins (s : State) : Prop where
  acyclic : ∀ x, ¬ Endless s.link x
  granted : ∀ {p id v}, s.live p = true → s.pending p = some (.join id, v) → v = 0 ∧ Awaited s p id
  returned : Each AfterEnd s.log

section
variable {P : State → Blocks → Call → Prop} {b : Blocks} {s s₁ : State} {T : Table}
  {loc : Ptr → Option (Place Wait)} {c : Call} {o : Outcome} {p t x y : Ptr} {id : BitVec 64}

/-- The links are the joins that threads are blocked in. -/
theorem link_iff_joinsOn (h : Inv s T loc) (hb : Blocked s) :
    s.link y = some x ↔ JoinsOn s x y := by
  rw [link_eq]
  constructor
  · rintro ⟨hy, rfl, hne⟩
    have hobs := observer_waiting h hy hne
    exact ⟨hobs.1, hy, hobs.2, hb.join hy hne⟩
  · rintro ⟨hx, hy, hw, id, hp, hid⟩
    obtain ⟨w, hcount, -⟩ := Scheduler.wait_place h.sched hx (mode_waiting.mpr hw)
    have hcount : (s.queue (.wait w)).count x = 1 := hcount
    have hmem : x ∈ s.queue (.wait w) := List.count_pos_iff.mp (by omega)
    cases w with
    | mutex m =>
      obtain ⟨c, hc, -⟩ := hb.mutex (m := m) hmem
      rw [hp] at hc
      cases hc
    | cond d =>
      obtain ⟨i, hi, rfl⟩ := List.mem_map.mp hmem
      rw [hb.cond hi] at hp
      cases hp
    | join u =>
      simp only [State.queue] at hmem
      split at hmem
      · rename_i hu
        rw [List.mem_singleton] at hmem
        obtain ⟨id', hp', hid'⟩ := hb.join hu.1 hu.2
        rw [← hmem, hp] at hp'
        cases hp'
        have huy := tid_inj h.table hu.1 hy (Int.ofNat_inj.mp (hid'.trans hid.symm))
        rw [← huy]
        exact ⟨hu.1, hmem.symm, hmem ▸ hu.2⟩
      · contradiction

theorem over_append {l₁ l₂ : List Event} (h : Over l₁ id) : Over (l₁ ++ l₂) id := by
  obtain ⟨k, hk, hid⟩ := h
  refine ⟨k, ?_, hid⟩
  rw [ended_append]
  exact List.mem_append_left _ hk

/-! ## The invariant -/

theorem joins_congr (h : Joins s) (hl : s₁.live = s.live) (hp : s₁.pending = s.pending)
    (htid : ∀ p, (s₁.tcb p).tid = (s.tcb p).tid)
    (ho : ∀ p, (s₁.tcb p).observer = (s.tcb p).observer) {es : List Event}
    (hlog : s₁.log = s.log ++ es) (hes : Each AfterEnd s.log → Each AfterEnd (s.log ++ es)) :
    Joins s₁ := by
  have hlink : s₁.link = s.link := by
    funext p
    unfold State.link
    rw [hl, ho]
  refine ⟨hlink ▸ h.acyclic, ?_, hlog ▸ hes h.returned⟩
  intro p id v hlive hpend
  rw [hl] at hlive
  rw [hp] at hpend
  obtain ⟨hv, hwait⟩ := h.granted hlive hpend
  refine ⟨hv, ?_⟩
  unfold Awaited
  simp only [hl, ho, htid, hlog]
  exact hwait.imp_right over_append

theorem each_aside {l es : List Event} (hes : ∀ e ∈ es, Aside e) (h : Each AfterEnd l) :
    Each AfterEnd (l ++ es) := by
  induction es using List.reverseRecOn with
  | nil => simpa using h
  | append_singleton es e ih =>
    rw [← List.append_assoc, each_concat]
    refine ⟨ih fun x hx => hes x (by simp [hx]), ?_⟩
    rintro k i rfl
    exact absurd (hes (.returned k (.join i) 0) (by simp)) id

theorem joins_minor (h : Joins s) (hm : Minor s s₁) : Joins s₁ := by
  obtain ⟨es, hes, hall⟩ := hm.log
  exact joins_congr h hm.live hm.pending hm.tid hm.observer hes (each_aside hall)

theorem joins_started (h : Off s) (hj : Zeroed b) : Joins (s.started b) := by
  have hlink : ∀ p, (s.started b).link p = none := by
    intro p
    by_cases hp : p = b.parent.addr <;> simp [State.link, hp, hj.1.2, h.live]
  refine ⟨fun x hx => hx 1 (by simp [walk, hlink]), ?_, each_nil⟩
  intro p id v hl hp
  rw [pending_started h hl] at hp
  contradiction

theorem joins_created (h : Joins s) (hb : Spare s b) (hj : Zeroed b) (info : BitVec 64) :
    Joins (s.created b info T) := by
  have hlive : s.live b.thread.addr ≠ true := (thread_spare hb).2
  refine ⟨?_, ?_, h.returned⟩
  · have hlink : (s.created b info T).link = s.link := by
      funext p
      by_cases hp : p = b.thread.addr <;> simp [State.link, hp, hj.2.2, hlive]
    rw [hlink]
    exact h.acyclic
  · intro p id v hl hp
    have hpb : p ≠ b.thread.addr := by
      rintro rfl
      simp at hp
    rw [State.created_live, Function.update_of_ne hpb] at hl
    rw [State.created_pending, Function.update_of_ne hpb] at hp
    obtain ⟨hv, hwait⟩ := h.granted hl hp
    refine ⟨hv, hwait.imp_left ?_⟩
    rintro ⟨t, ht, hobs, hid⟩
    have htb : t ≠ b.thread.addr := by
      rintro rfl
      exact hlive ht
    refine ⟨t, ?_, ?_, ?_⟩
    · rwa [State.created_live, Function.update_of_ne htb]
    · rwa [State.created_tcb, Function.update_of_ne htb]
    · rwa [State.created_tcb, Function.update_of_ne htb]

theorem link_observe (h : Inv s T loc) (ht : s.live t = true) :
    (s.observe t s.current_thread).link = Function.update s.link t (some s.current_thread) := by
  funext p
  by_cases hp : p = t
  · simp [State.link, hp, ht, orNull_ne (current_ne_zero h)]
  · simp [State.link, hp]

theorem joins_observe (h : Joins s) (hinv : Inv s T loc) (ht : s.live t = true)
    (ho : (s.tcb t).observer = 0)
    (he : ¬ Endless (s.observe t s.current_thread).link s.current_thread) :
    Joins (s.observe t s.current_thread) := by
  refine ⟨?_, ?_, h.returned⟩
  · rw [link_observe hinv ht] at he ⊢
    exact not_endless_link (by simp [State.link, ht, ho]) h.acyclic he
  · intro p id v hl hp
    obtain ⟨hv, hwait⟩ := h.granted hl hp
    refine ⟨hv, hwait.imp_left ?_⟩
    rintro ⟨u, hu, hobs, hid⟩
    have hut : u ≠ t := by
      rintro rfl
      exact hinv.table.ne_zero hl (hobs.symm.trans ho)
    exact ⟨u, hu, by simpa [hut] using hobs, by simpa using hid⟩

theorem joins_ends (h : Joins s) (hcalm : Calm s T loc) (hst : Steady s s₁) (he : Ends s s₁) :
    Joins s₁ := by
  refine ⟨?_, ?_, ?_⟩
  · intro x hx
    refine h.acyclic x (endless_of_sub (fun a b hab => ?_) hx)
    obtain ⟨ha, hab, hb⟩ := link_eq.mp hab
    rw [he.observer] at hab
    split at hab
    · exact absurd hab.symm hb
    · exact link_eq.mpr ⟨((he.live a).mp ha).1, hab, hb⟩
  · intro p id v hl hp
    rw [hst.pending] at hp
    have hpl := ((he.live p).mp hl).1
    obtain ⟨hv, hwait⟩ := h.granted hpl hp
    refine ⟨hv, ?_⟩
    rcases hwait with ⟨t, ht, hobs, hid⟩ | hover
    · by_cases htc : t = s.current_thread
      · -- The current thread wakes the one that has joined with it.
        subst htc
        refine Or.inr ⟨_, ?_, hid⟩
        rw [he.log, ended_append]
        exact List.mem_append_right _ (List.mem_singleton_self _)
      · refine Or.inl ⟨t, (he.live t).mpr ⟨ht, ?_⟩, ?_, ?_⟩
        · rintro rfl
          have hnone := hcalm.observer_done ht (he.next_done ht)
          exact hcalm.table.ne_zero hpl (hobs.symm.trans hnone)
        · rw [he.observer, if_neg htc, hobs]
        · rw [he.tid, hid]
    · exact Or.inr (he.log ▸ over_append hover)
  · rw [he.log, each_concat]
    exact ⟨h.returned, by simp [AfterEnd]⟩

/-- What the outcome of a join tells. -/
def Answers (s : State) (c : Call) (o : Outcome) : Prop :=
  ∀ id, c = .join id → (∀ v, o = .ret v → v ≠ 0) ∧
    ∀ v, o = .yield (some v) → v = 0 ∧ Awaited s s.current_thread id

theorem does_answers (hlife : Life s) (hd : Does b s T c o s₁) : Answers s₁ c o := by
  intro id hc
  cases hd with
  | quiet c v hq =>
    subst hc
    refine ⟨?_, by simp⟩
    rintro w ⟨⟩
    exact Int.ne_of_lt hq
  | joinDone id' t ht hid hdone =>
    cases hc
    refine ⟨by simp, ?_⟩
    rintro v ⟨⟩
    exact ⟨rfl, Or.inr ⟨_, hlife.done ht hdone, hid⟩⟩
  | join id' t ht hid =>
    cases hc
    refine ⟨by simp, ?_⟩
    rintro v ⟨⟩
    exact ⟨rfl, Or.inl ⟨t, ht, by simp, by simpa using hid⟩⟩
  | _ => contradiction

theorem joins_after (h : Joins s) (ha : Answers s c o) : Joins (s.after c o) := by
  cases o with
  | ret v =>
    refine joins_congr h rfl rfl (fun _ => rfl) (fun _ => rfl) rfl fun he => ?_
    refine each_concat.mpr ⟨he, ?_⟩
    rintro p id ⟨⟩
    exact absurd rfl ((ha id rfl).1 0 rfl)
  | yield v =>
    refine ⟨h.acyclic, fun {p id w} hl hp => ?_, h.returned⟩
    by_cases hpc : p = s.current_thread
    · subst hpc
      simp only [State.after, State.pend_pending, Function.update_self, Option.map_eq_some_iff,
        Prod.mk.injEq] at hp
      obtain ⟨u, rfl, rfl, rfl⟩ := hp
      exact (ha id rfl).2 u rfl
    · simp only [State.after, State.pend_pending, Function.update_of_ne hpc] at hp
      exact h.granted hl hp

/-- A thread that can work has been woken. -/
theorem awaited_over (hinv : Inv s T loc) (hlive : s.live p = true)
    (hw : (s.tcb p).status = .WORKING) (h : Awaited s p id) : Over s.log id := by
  refine h.resolve_left ?_
  rintro ⟨t, ht, rfl, -⟩
  have hwait := (observer_waiting hinv ht (hinv.table.ne_zero hlive)).2
  rw [hw] at hwait
  contradiction

theorem joins_resume (h : Joins s) (hinv : Inv s T loc)
    (hw : (s.tcb s.current_thread).status = .WORKING) {v : Int}
    (hp : s.pending s.current_thread = some (c, v)) :
    Joins ((s.pend s.current_thread none).note
      (.returned (s.tcb s.current_thread).tid c v)) := by
  refine ⟨h.acyclic, ?_, each_concat.mpr ⟨h.returned, ?_⟩⟩
  · intro p id u hlive hpend
    by_cases hpc : p = s.current_thread
    · simp [hpc] at hpend
    · simp only [State.note_pending, State.pend_pending, Function.update_of_ne hpc] at hpend
      obtain ⟨hu, hwait⟩ := h.granted hlive hpend
      exact ⟨hu, hwait.imp_right over_append⟩
  · rintro p id ⟨⟩
    have hlive := current_live hinv
    exact awaited_over (s := s) hinv hlive hw (h.granted hlive hp).2

theorem joins_stable (hP : Rules P) : Stable P fun s => Blocked s ∧ Life s ∧ Joins s := by
  have hblocked : Stable P Blocked := blocked_stable hP
  have hlife : Stable P Life := life_stable
  have hsame {s s₁ : State} (h : Joins s) (hl : s₁.live = s.live) (hp : s₁.pending = s.pending)
      (htid : ∀ p, (s₁.tcb p).tid = (s.tcb p).tid)
      (ho : ∀ p, (s₁.tcb p).observer = (s.tcb p).observer) (hlog : s₁.log = s.log) : Joins s₁ :=
    joins_congr h hl hp htid ho (hlog.trans (List.append_nil _).symm) (by simp)
  refine ⟨⟨?_, ?_, ?_, ?_⟩, fun h hb hj =>
    ⟨hblocked.start h hb hj, hlife.start h hb hj, joins_started h hj⟩⟩
  · rintro s r ⟨hb, hl, h⟩
    exact ⟨hblocked.cpu hb, hlife.cpu hl, hsame h rfl rfl (fun _ => rfl) (fun _ => rfl) rfl⟩
  · rintro s T loc b c o s₁ hcalm hb ha hp ⟨hbl, hl, h⟩ hd hr
    refine ⟨hblocked.call hcalm hb ha hp hbl hd hr, hlife.call hcalm hb ha hp hl hd hr,
      joins_after ?_ (does_answers hl hd)⟩
    rcases does_minor hcalm hd with hm | hm
    · exact joins_minor h hm
    · cases hm with
      | create work info => exact joins_created h hb (hP.zeroed hp) info
      | join id t ht _ _ ho _ he => exact joins_observe h hcalm.toInv ht ho he
      | cleanup _ hoff =>
        rw [hoff.ready] at hr
        contradiction
      | terminate _ hst he => exact joins_ends h hcalm hst he
  · rintro s T loc x xs hinv hrl ⟨hb, hl, h⟩
    exact ⟨hblocked.switch hinv hrl hb, hlife.switch hinv hrl hl,
      hsame h rfl rfl (by simp) (by simp) rfl⟩
  · rintro s T loc c v hinv hw hp ⟨hb, hl, h⟩
    exact ⟨hblocked.resume hinv hw hp hb, hlife.resume hinv hw hp hl, joins_resume h hinv hw hp⟩

end

/-! ## The codes -/

/-- What a join with `t`, which has not terminated, comes to. -/
structure Codes (b : Blocks) (n : Nat) (s : State) (id : BitVec 64) (t : Ptr) : Prop where
  self : t = s.current_thread → perform b n (.join id) s = .ok (.ret (-1), s)
  taken : t ≠ s.current_thread → (∃ x, JoinsOn s x t) →
    perform b n (.join id) s = .ok (.ret (-2), s)
  deadlock : t ≠ s.current_thread → (∀ x, ¬ JoinsOn s x t) →
    Relation.TransGen (JoinsOn s) t s.current_thread →
    perform b n (.join id) s = .ok (.ret (-1), s)
  blocks : t ≠ s.current_thread → (∀ x, ¬ JoinsOn s x t) →
    ¬ Relation.TransGen (JoinsOn s) t s.current_thread →
    perform b n (.join id) s = .ok (.yield (some 0), s.observe t s.current_thread)

section
variable {b : Blocks} {n : Nat} {s s₁ : State} {T : Table} {loc : Ptr → Option (Place Wait)}
variable {c : Call} {t : Ptr} {id : BitVec 64}

/-- The new link closes a cycle exactly when `t` waits for the caller. -/
theorem endless_iff_joinsOn (h : Inv s T loc) (hb : Blocked s) (hjoins : Joins s)
    (ht : s.live t = true) (ho : (s.tcb t).observer = 0) (hc : t ≠ s.current_thread) :
    Endless (s.observe t s.current_thread).link s.current_thread ↔
      Relation.TransGen (JoinsOn s) t s.current_thread := by
  have hrel : JoinsOn s = Function.swap fun a b => s.link a = some b := by
    funext x y
    exact propext (link_iff_joinsOn h hb).symm
  rw [link_observe h ht, endless_link_iff (by simp [State.link, ht, ho]) (hjoins.acyclic _), hrel,
    Relation.transGen_swap]
  constructor
  · rintro ⟨k, hk⟩
    apply transGen_of_walk (k := k) _ hk
    apply Nat.pos_of_ne_zero
    rintro rfl
    rw [walk, Option.some_inj] at hk
    exact hc hk.symm
  · intro hx
    obtain ⟨k, -, hk⟩ := walk_of_transGen hx
    exact ⟨k, hk⟩

theorem observer_iff_joinsOn (h : Inv s T loc) (hb : Blocked s) (ht : s.live t = true) :
    (s.tcb t).observer = 0 ↔ ∀ x, ¬ JoinsOn s x t := by
  constructor
  · intro ho x hx
    rw [← link_iff_joinsOn h hb, link_eq] at hx
    exact hx.2.2 (hx.2.1.symm.trans ho)
  · intro hn
    by_contra ho
    exact hn _ ((link_iff_joinsOn h hb).mp (link_eq.mpr ⟨ht, rfl, ho⟩))

theorem codes (h : Calm s T loc) (hb : Blocked s) (hjoins : Joins s) (ht : s.live t = true)
    (hdone : (s.tcb t).status ≠ .DONE) (hid : ((s.tcb t).tid : Int) = id.toInt)
    (hn : T.head.length < n) : Codes b n s id t := by
  have hinv := h.toInv
  have hobs := observer_iff_joinsOn hinv hb ht
  have hfind : t ≠ s.current_thread → Finds s id t := fun hc => ⟨ht, hid, hc⟩
  refine ⟨?_, ?_, ?_, ?_⟩
  · rintro rfl
    exact run_join_self hinv hid
  · rintro hc ⟨x, hx⟩
    exact run_join_taken hinv (hfind hc) hdone fun ho => hobs.mp ho x hx
  · intro hc hnone hx
    have ho := hobs.mpr hnone
    rw [← endless_iff_joinsOn hinv hb hjoins ht ho hc] at hx
    rcases run_join_chain b (n := n) hinv h.works (hfind hc) hdone ho with
      ⟨-, hr⟩ | ⟨he, -⟩ | ⟨hle, -⟩
    · exact hr
    · exact absurd hx he
    · exact absurd hn (Nat.not_lt.mpr hle)
  · intro hc hnone hx
    have ho := hobs.mpr hnone
    rw [← endless_iff_joinsOn hinv hb hjoins ht ho hc] at hx
    rcases run_join_chain b (n := n) hinv h.works (hfind hc) hdone ho with
      ⟨he, -⟩ | ⟨-, hr⟩ | ⟨hle, -⟩
    · exact absurd he hx
    · exact hr
    · exact absurd hn (Nat.not_lt.mpr hle)

/-- A call that returns a negative code has done nothing. -/
theorem negative_quiet (h : Calm s T loc) (ht : Tidy s b c) {v : Int} (hv : v < 0)
    (hrun : perform b n c s = .ok (.ret v, s₁)) : s₁ = s := by
  rcases acts (n := n) h.toInv h.works ht.1 (safe_of_ok h.toInv ht.2 hrun) with
    ⟨o, s₂, hok, hd⟩ | ⟨e, he, -⟩
  · rw [hrun, Except.ok.injEq, Prod.mk.injEq] at hok
    obtain ⟨rfl, rfl⟩ := hok
    cases hd with
    | quiet c v => rfl
    | create work info => omega
    | _ => contradiction
  · rw [hrun] at he
    contradiction

end

/-- In every run: the links between observers have no cycle, the join codes are as documented, a
join returns 0 only after the thread has terminated, and a negative code leaves everything as it
was, apart from the first call, which starts the library. -/
theorem join_codes {s : State} (h : Reachable Tidy s) :
    (s.ready = true →
      (∀ x, ¬ Relation.TransGen (fun a b => s.link a = some b) x x) ∧
      (∀ (b : Blocks) (cpu : Regs) (n : Nat) (id : BitVec 64) (t : Ptr), s.live t = true →
        (s.tcb t).status ≠ .DONE → ((s.tcb t).tid : Int) = id.toInt →
        (∀ T, s.all_threads = some T → T.head.length < n) →
        Codes b n { s with cpu := cpu } id t) ∧
      (∀ l₁ k id l₂, s.log = l₁ ++ .returned k (.join id) 0 :: l₂ →
        ∃ j : Nat, .terminated j ∈ l₁ ∧ (j : Int) = id.toInt) ∧
      ∀ k t, .terminated k ∈ s.log → s.live t = true → (s.tcb t).tid = k →
        (s.tcb t).status = .DONE) ∧
    ∀ (b : Blocks) (cpu : Regs) (n : Nat) (c : Call) (v : Int) (s₁ : State), Unused s b →
      Allowed s c → Tidy s b c → v < 0 → perform b n c { s with cpu := cpu } = .ok (.ret v, s₁) →
      s₁ = if s.ready then { s with cpu := cpu } else State.started b { s with cpu := cpu } := by
  rcases reach tidy_rules (joins_stable tidy_rules) h with hoff | ⟨⟨T, loc, hcalm⟩, hb, hlife, hjoins⟩
  · refine ⟨fun hr => ?_, fun b cpu n c v s₁ hb ha ht hv hrun => ?_⟩
    · rw [hoff.ready] at hr
      contradiction
    · have hoff' : Off { s with cpu := cpu } := off_cpu hoff
      have ha' : Allowed { s with cpu := cpu } c := allowed_cpu ha
      have hsafe := safe_of_off hoff' hb ht.1 ha' hrun
      rw [if_neg (by simp [hoff.ready])]
      rcases perform_off (n := n) hoff' ht.1 ha' hsafe with ⟨hsame, hallow, hs⟩ | hret
      · obtain ⟨T, loc, hcalm⟩ := started_calm hoff' (b := b) hb ht.1
        exact negative_quiet hcalm ⟨ht.1, fun _ => hs⟩ hv (hsame ▸ hrun)
      · rw [hret] at hrun
        cases hrun
        contradiction
  · refine ⟨fun _ => ⟨fun x => not_transGen_self (hjoins.acyclic x), ?_, ?_, ?_⟩, ?_⟩
    · intro b cpu n id t ht hdone hid hn
      exact codes (calm_cpu hcalm) ((blocked_stable tidy_rules).cpu hb)
        ((joins_stable tidy_rules).cpu ⟨hb, hlife, hjoins⟩).2.2 ht hdone hid
        (hn T hcalm.table.table)
    · intro l₁ k id l₂ hlog
      obtain ⟨j, hj, hid⟩ := hjoins.returned l₁ _ l₂ hlog k id rfl
      exact ⟨j, mem_ended.mp hj, hid⟩
    · intro k t hk ht hid
      exact hlife.gone (mem_ended.mpr hk) ht hid
    · intro b cpu n c v s₁ hu ha ht hv hrun
      rw [if_pos hcalm.ready]
      exact negative_quiet (calm_cpu hcalm) (tidy_rules.cpu ht) hv hrun

/-- The first thread waits for the second one, which waits for the third one. -/
def chainRun : List Call := [.create 0 0, .create 0 0, .join 1, .join 2]

/-- The third thread cannot wait for the first one. -/
theorem join_codes_chain :
    ∃ s, play Tidy 9 noRegs (fresh chainRun) booted = .ok s ∧
      perform (blocks 4) 9 (.join 0) { s with cpu := noRegs } =
        .ok (.ret (-1), { s with cpu := noRegs }) := by
  obtain ⟨s, hs, hp⟩ := ok_and (x := play Tidy 9 noRegs (fresh chainRun) booted)
    (p := fun s => s.ready && decide (s.current_thread = 8) &&
      (s.live 1 && s.live 3 && s.live 8) &&
      decide ((s.tcb 1).status = .WAITING ∧ (s.tcb 3).status = .WAITING) &&
      decide (s.pending 1 = some (.join 1, 0) ∧ s.pending 3 = some (.join 2, 0)) &&
      decide ((s.tcb 1).tid = 0 ∧ (s.tcb 3).tid = 1 ∧ (s.tcb 8).tid = 2) &&
      decide ((s.tcb 1).observer = 0 ∧ (s.all_threads.map fun T => T.head.length) = some 3))
    (by decide +kernel)
  simp only [Bool.and_eq_true, decide_eq_true_iff] at hp
  obtain ⟨⟨⟨⟨⟨⟨hr, hc⟩, ⟨h1, h3⟩, h8⟩, hw1, hw3⟩, hp1, hp3⟩, ht1, ht3, ht8⟩, ho, hlen⟩ := hp
  have hreach := play_reachable (.boot booted_boot) hs
  have hj13 : JoinsOn s 1 3 := ⟨h1, h3, hw1, 1, hp1, by rw [ht3]; decide⟩
  have hj38 : JoinsOn s 3 8 := ⟨h3, h8, hw3, 2, hp3, by rw [ht8]; decide⟩
  have hnone : ∀ x, ¬ JoinsOn s x 1 := by
    rcases reach tidy_rules (joins_stable tidy_rules) hreach with hoff | ⟨⟨T, loc, hcalm⟩, hb, -⟩
    · exact absurd (hoff.ready.symm.trans hr) (by simp)
    · exact (observer_iff_joinsOn hcalm.toInv hb h1).mp ho
  refine ⟨s, hs, (((join_codes hreach).1 hr).2.1 (blocks 4) noRegs 9 0 1 h1 ?_ ?_ ?_).deadlock ?_ hnone
    ?_⟩
  · rw [hw1]
    simp
  · rw [ht1]
    decide
  · intro T hT
    rw [hT, Option.map_some, Option.some_inj] at hlen
    omega
  · rw [hc]
    decide
  · rw [hc]
    exact (Relation.TransGen.single hj13).tail hj38

/-- The TCBs that `malloc` gives read as zero. -/
def Clear (_ : State) (b : Blocks) (_ : Call) : Prop := Zeroed b

instance (s : State) (b : Blocks) (c : Call) : Decidable (Clear s b c) :=
  inferInstanceAs (Decidable (Zeroed b))

/-- `malloc` gives the block at `p` for the thread that the call `k` creates. -/
def reuse (k : Nat) (p : Ptr) (cs : List (Blocks × Call)) : List (Blocks × Call) :=
  cs.modify k fun x => ({ x.1 with thread := ⟨p, zeros⟩ }, x.2)

/-- After `thread_cleanup` a thread that waits in a join has the TCB of one that had terminated.
The next termination frees it, and it becomes the TCB of a thread that waits for the first one. -/
def reusedRun : List (Blocks × Call) :=
  reuse 4 3 <| reuse 11 3 <| fresh
    [.create 0 0, .yield, .terminate, .cleanup, .create 0 0, .create 0 0, .create 0 0, .yield, .join 2,
      .yield, .terminate, .create 0 0, .yield, .yield, .join 0, .yield, .terminate, .yield]

theorem join_unfinished :
    ∃ s, play Clear 9 noRegs reusedRun booted = .ok s ∧ Reachable Clear s ∧ s.ready = true ∧
      s.log.getLast? = some (.returned 4 (.join 0) 0) ∧ .terminated 0 ∉ s.log := by
  obtain ⟨s, hs, hp⟩ := ok_and (x := play Clear 9 noRegs reusedRun booted)
    (p := fun s => s.ready && decide (s.log.getLast? = some (.returned 4 (.join 0) 0)) &&
      decide (.terminated 0 ∉ s.log)) (by decide +kernel)
  simp only [Bool.and_eq_true, decide_eq_true_iff] at hp
  obtain ⟨⟨hr, hlast⟩, hnone⟩ := hp
  exact ⟨s, hs, play_reachable (.boot booted_boot) hs, hr, hlast, hnone⟩

end Cs720.Threads
