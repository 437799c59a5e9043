import Mathlib.Logic.Function.Basic
import Cs720.Lib.Run
import Cs720.Lib.Interleave

/-! # Threads that share a memory behind a lock

A call of a thread is the tree of its accesses. It is made at once, or one access at a time among
those of other threads. Both have the same results if no thread reads outside the lock what another
one is about to write.
-/

namespace Cs720.Lib

/-- The accesses to a memory, and the result. -/
inductive Call (A V R : Type) where
  | ret (r : R)
  | fail (e : Stop)
  | load (a : A) (k : V → Call A V R)
  | store (a : A) (v : V) (k : Call A V R)
  | lock (k : Call A V R)
  | unlock (k : Call A V R)

/-- Before the lock is taken, with some to read yet and with nothing to read; while it is held; and
after it is given back. -/
inductive Phase where
  | outside
  | ready
  | inside
  | after
  deriving DecidableEq

namespace Call

section
variable {A V R S : Type}

protected def bind : Call A V R → (R → Call A V S) → Call A V S
  | ret r, f => f r
  | fail e, _ => fail e
  | load a k, f => load a fun v => (k v).bind f
  | store a v k, f => store a v (k.bind f)
  | lock k, f => lock (k.bind f)
  | unlock k, f => unlock (k.bind f)

instance : Monad (Call A V) where
  pure := ret
  bind := Call.bind

/-- The lock is taken once at most, and given back. Nothing is written outside, nothing fails once it
is taken, and nothing is read after it. -/
def Sect : Call A V R → Phase → Prop
  | ret _, p => p ≠ .inside
  | fail _, p => p = .outside ∨ p = .ready
  | load _ k, p => (p = .outside ∨ p = .inside) ∧ ∀ v, (k v).Sect p
  | store _ _ k, p => p = .inside ∧ k.Sect p
  | lock k, p => (p = .outside ∨ p = .ready) ∧ k.Sect .inside
  | unlock k, p => p = .inside ∧ k.Sect .after

theorem sect_fail {e : Stop} {p : Phase} :
    (fail e : Call A V R).Sect p ↔ p = .outside ∨ p = .ready := Iff.rfl

/-- The addresses that are read before the lock is taken. -/
def peeks : Call A V R → (A → V) → List A
  | load a k, m => a :: (k (m a)).peeks m
  | _, _ => []

variable [DecidableEq A]

/-- The call, made at once. -/
def run : Call A V R → (A → V) → C (R × (A → V))
  | ret r, m => .ok (r, m)
  | fail e, _ => .error e
  | load a k, m => (k (m a)).run m
  | store a v k, m => k.run (Function.update m a v)
  | lock k, m => k.run m
  | unlock k, m => k.run m

def writes : Call A V R → (A → V) → List A
  | ret _, _ => []
  | fail _, _ => []
  | load a k, m => (k (m a)).writes m
  | store a v k, m => a :: k.writes (Function.update m a v)
  | lock k, m => k.writes m
  | unlock k, m => k.writes m

theorem run_bind (p : Call A V R) (f : R → Call A V S) (m : A → V) :
    (p.bind f).run m = p.run m >>= fun r => (f r.1).run r.2 := by
  induction p generalizing m with
  | ret => rfl
  | fail => rfl
  | load a k ih => exact ih _ _
  | store a v k ih => exact ih _
  | lock k ih => exact ih _
  | unlock k ih => exact ih _

theorem writes_bind (p : Call A V R) (f : R → Call A V S) {m m' : A → V} {r : R}
    (h : p.run m = .ok (r, m')) : (p.bind f).writes m = p.writes m ++ (f r).writes m' := by
  induction p generalizing m with
  | ret =>
    cases h
    rfl
  | fail => cases h
  | load a k ih => exact ih _ h
  | store a v k ih => exact congrArg (a :: ·) (ih h)
  | lock k ih => exact ih h
  | unlock k ih => exact ih h

end

theorem bind_assoc {A V R S U : Type} (p : Call A V R) (f : R → Call A V S) (g : S → Call A V U) :
    (p.bind f).bind g = p.bind fun r => (f r).bind g := by
  induction p with
  | ret => rfl
  | fail => rfl
  | load a k ih => exact congrArg (load a) (funext ih)
  | store a v k ih => exact congrArg (store a v) ih
  | lock k ih => exact congrArg lock ih
  | unlock k ih => exact congrArg unlock ih

/-- What is left of a call after some reads before the lock. -/
inductive Reads {A V R : Type} (m : A → V) : Call A V R → Call A V R → Prop where
  | refl (q : Call A V R) : Reads m q q
  | load {a : A} {k : V → Call A V R} {p : Call A V R} (h : Reads m (k (m a)) p) :
      Reads m (load a k) p

section
variable {A V R : Type} {m m' : A → V} {p q : Call A V R}

theorem Reads.more {a : A} {k : V → Call A V R} (h : Reads m q (.load a k)) :
    Reads m q (k (m a)) := by
  generalize hp : Call.load a k = p at h
  induction h with
  | refl =>
    rw [← hp]
    exact .load (.refl _)
  | load _ ih => exact .load (ih hp)

theorem Reads.peeks (h : Reads m q p) : p.peeks m ⊆ q.peeks m := by
  induction h with
  | refl => exact List.Subset.refl _
  | load _ ih => exact List.subset_cons_of_subset _ ih

theorem Reads.congr (h : Reads m q p) (hm : ∀ a ∈ q.peeks m, m' a = m a) : Reads m' q p := by
  induction h with
  | refl => exact .refl _
  | @load a k p _ ih =>
    obtain ⟨ha, hrest⟩ := List.forall_mem_cons.mp hm
    refine .load ?_
    rw [ha]
    exact ih hrest

theorem Sect.after (h : p.Sect .after) : ∃ r, p = .ret r := by
  cases p with
  | ret r => exact ⟨r, rfl⟩
  | fail => exact absurd (sect_fail.mp h) (by decide)
  | load => exact absurd h.1 (by decide)
  | lock => exact absurd h.1 (by decide)
  | store => cases h.1
  | unlock => cases h.1

theorem Sect.outside (h : p.Sect .ready) : p.Sect .outside := by
  cases p with
  | ret => exact nofun
  | fail => exact .inl rfl
  | load => exact absurd h.1 (by decide)
  | lock => exact ⟨.inl rfl, h.2⟩
  | store => cases h.1
  | unlock => cases h.1

theorem Sect.peeks (h : p.Sect .ready) : p.peeks m = [] := by
  cases p with
  | load => exact absurd h.1 (by decide)
  | ret | fail | lock | store | unlock => rfl

variable [DecidableEq A]

theorem Reads.run (h : Reads m q p) : q.run m = p.run m := by
  induction h with
  | refl => rfl
  | load _ ih => exact ih

theorem Sect.run_ok {ph : Phase} (h : p.Sect ph) (hph : ph = .inside ∨ ph = .after) :
    ∃ r, p.run m = .ok r := by
  induction p generalizing ph m with
  | ret r => exact ⟨_, rfl⟩
  | fail => rcases hph with rfl | rfl <;> exact absurd (sect_fail.mp h) (by decide)
  | load a k ih => exact ih _ (h.2 _) hph
  | store a v k ih => exact ih h.2 hph
  | lock k ih => exact ih h.2 (.inl rfl)
  | unlock k ih => exact ih h.2 (.inr rfl)

/-- A call that fails has written nothing. -/
theorem Sect.writes_error {ph : Phase} {e : Stop} (h : p.Sect ph) (he : p.run m = .error e) :
    p.writes m = [] := by
  induction p generalizing ph m with
  | ret | fail => rfl
  | load a k ih => exact ih _ (h.2 _) he
  | store a v k ih =>
    obtain ⟨r, hr⟩ := h.2.run_ok (m := Function.update m a v) (.inl h.1)
    rw [run, hr] at he
    cases he
  | lock k ih => exact ih h.2 he
  | unlock k ih => exact ih h.2 he

theorem Reads.writes (h : Reads m q p) : q.writes m = p.writes m := by
  induction h with
  | refl => rfl
  | load _ ih => exact ih

end

end Call

/-- The memory, and what each thread has of its own. -/
@[ext]
structure Shared (I A V L : Type) where
  mem : A → V
  own : I → L

/-- Threads in the middle of their calls. -/
@[ext]
structure Midway (I A V L : Type) extends Shared I A V L where
  holder : Option I
  call : I → Option (Call A V L)

section
variable {I A V L : Type} (code : I → L → Option (Call A V L))

/-- No call is under way. -/
def Midway.AtRest (t : Midway I A V L) : Prop := t.holder = none ∧ ∀ i, t.call i = none

def Shared.rest (s : Shared I A V L) : Midway I A V L :=
  { s with holder := none, call := fun _ => none }

section
variable [DecidableEq I]

/-- The thread `i` has come to the rest `k` of its call. -/
def Midway.goOn (t : Midway I A V L) (i : I) (k : Call A V L) : Midway I A V L :=
  { t with call := Function.update t.call i (some k) }

theorem goOn_self {t : Midway I A V L} {i : I} {k : Call A V L} : (t.goOn i k).call i = some k :=
  Function.update_self ..

theorem goOn_other {t : Midway I A V L} {i j : I} {k : Call A V L} (hj : j ≠ i) :
    (t.goOn i k).call j = t.call j :=
  Function.update_of_ne hj _ _

/-- The thread `i` has ended its call with `r`, and the lock is free. -/
def Midway.ended (t : Midway I A V L) (i : I) (r : L × (A → V)) : Midway I A V L where
  mem := r.2
  own := Function.update t.own i r.1
  holder := none
  call := Function.update t.call i none

theorem ended_self {t : Midway I A V L} {i : I} {r : L × (A → V)} :
    (t.ended i r).call i = none :=
  Function.update_self ..

theorem ended_other {t : Midway I A V L} {i j : I} {r : L × (A → V)} (hj : j ≠ i) :
    (t.ended i r).call j = t.call j :=
  Function.update_of_ne hj _ _

theorem ended_goOn {t : Midway I A V L} {i : I} {k : Call A V L} {f : A → V} {o : Option I}
    {r : L × (A → V)} :
    Midway.ended { t.goOn i k with mem := f, holder := o } i r = t.ended i r := by
  unfold Midway.ended Midway.goOn
  simp only [Function.update_idem]

theorem ended_rest {s : Shared I A V L} {i : I} {q : Call A V L} {r : L × (A → V)} :
    (s.rest.goOn i q).ended i r = (Shared.mk r.2 (Function.update s.own i r.1)).rest := by
  unfold Midway.ended Midway.goOn Shared.rest
  rw [Function.update_idem, Function.update_eq_self]

variable [DecidableEq A]

/-- The thread makes its next call at once. -/
def wholeCall (i : I) (s : Shared I A V L) : C (Shared I A V L) :=
  match code i (s.own i) with
  | none => .ok s
  | some q => do
    let (l, m) ← q.run s.mem
    return { mem := m, own := Function.update s.own i l }

/-- The next access of the thread `i`, if `p` is left of its call. -/
def Midway.access (t : Midway I A V L) (i : I) : Call A V L → C (Midway I A V L)
  | .ret l => .ok { t with own := Function.update t.own i l, call := Function.update t.call i none }
  | .fail e => .error e
  | .load a k => .ok (t.goOn i (k (t.mem a)))
  | .store a v k => .ok { t.goOn i k with mem := Function.update t.mem a v }
  | .lock k =>
    match t.holder with
    | none => .ok { t.goOn i k with holder := some i }
    | some _ => .ok t
  | .unlock k => .ok { t.goOn i k with holder := none }

/-- The thread begins its next call, makes one access of it, or ends it. -/
def oneAccess (i : I) (t : Midway I A V L) : C (Midway I A V L) :=
  match t.call i with
  | some p => t.access i p
  | none =>
    match code i (t.own i) with
    | some q => .ok (t.goOn i q)
    | none => .ok t

end

variable {s s' : Shared I A V L} {t t' : Midway I A V L} {i j h : I}

/-! ## The invariant -/

/-- The thread `i`, which does not hold the lock, is at rest, has not yet had the lock, or has had
it. -/
inductive Waits (s : Shared I A V L) (t : Midway I A V L) (i : I) : Prop where
  | rest (hcall : t.call i = none) (hown : t.own i = s.own i)
  | before {q p : Call A V L} (hcode : code i (s.own i) = some q) (hcall : t.call i = some p)
      (hown : t.own i = s.own i) (hsect : p.Sect .outside) (hreads : Call.Reads s.mem q p)
  | after (hcall : t.call i = some (.ret (s.own i)))

variable {code} in
theorem Waits.other (hw : Waits code s t j) (hcall : t'.call j = t.call j)
    (ht : t'.own j = t.own j) (hs : s'.own j = s.own j)
    (hmem : ∀ q, code j (s.own j) = some q → ∀ a ∈ q.peeks s.mem, s'.mem a = s.mem a) :
    Waits code s' t' j := by
  cases hw with
  | rest hnone hown => exact .rest (hcall.trans hnone) (by rw [ht, hs, hown])
  | before hcode hsome hown hsect hreads =>
    refine .before (by rw [hs, hcode]) (hcall.trans hsome) (by rw [ht, hs, hown]) hsect ?_
    exact hreads.congr (hmem _ hcode)
  | after hret => exact .after (by rw [hcall, hs, hret])

variable [DecidableEq A]

/-- The thread `h` is in its section, and `p` is left of its call `q`. -/
structure Holds (s : Shared I A V L) (t : Midway I A V L) (h : I) (q p : Call A V L) : Prop where
  code : code h (s.own h) = some q
  call : t.call h = some p
  own : t.own h = s.own h
  sect : p.Sect .inside
  run : p.run t.mem = q.run s.mem
  writes : p.writes t.mem ⊆ q.writes s.mem
  mem : ∀ a, a ∉ q.writes s.mem → t.mem a = s.mem a

/-- In `s` each call of `t` is made when it gives the lock back, or ends without it. -/
structure Follows (s : Shared I A V L) (t : Midway I A V L) : Prop where
  free : t.holder = none → t.mem = s.mem
  held : ∀ h, t.holder = some h → ∃ q p, Holds code s t h q p
  waits : ∀ i, t.holder ≠ some i → Waits code s t i

/-- No thread reads, before it takes the lock, what another one writes in its next call. -/
def RaceFree (s : Shared I A V L) : Prop :=
  ∀ i j q r, i ≠ j → code i (s.own i) = some q → code j (s.own j) = some r →
    ∀ a ∈ q.peeks s.mem, a ∉ r.writes s.mem

variable {code}

theorem follows_rest : Follows code s s.rest :=
  ⟨fun _ => rfl, nofun, fun _ _ => .rest rfl rfl⟩

/-- At rest the two are the same. -/
theorem Follows.eq_of_rest (hF : Follows code s t) (ht : t.AtRest) : t = s.rest := by
  have hcall : t.call = fun _ => none := funext ht.2
  refine Midway.ext (hF.free ht.1) (funext fun i => ?_) ht.1 hcall
  cases hF.waits i (by rw [ht.1]; nofun) with
  | rest _ hown => exact hown
  | before _ hsome => rw [ht.2] at hsome; cases hsome
  | after hsome => rw [ht.2] at hsome; cases hsome

/-- A step of a thread that does not hold the lock, if the memory stays. -/
theorem Follows.other (hF : Follows code s t) (hi : t.holder ≠ some i) (hw : Waits code s' t' i)
    (hholder : t'.holder = t.holder) (hmem : t'.mem = t.mem) (hmem' : s'.mem = s.mem)
    (hj : ∀ j, j ≠ i → t'.call j = t.call j ∧ t'.own j = t.own j ∧ s'.own j = s.own j) :
    Follows code s' t' := by
  refine ⟨fun hfree => ?_, fun h hh => ?_, fun j hne => ?_⟩
  · rw [hmem, hmem']
    exact hF.free (hholder ▸ hfree)
  · rw [hholder] at hh
    obtain ⟨q, p, hq⟩ := hF.held h hh
    obtain ⟨hcall, ht, hs⟩ := hj h (by rintro rfl; exact hi hh)
    refine ⟨q, p, ⟨by rw [hs, hq.code], by rw [hcall, hq.call], by rw [ht, hs, hq.own], hq.sect,
      ?_, ?_, ?_⟩⟩
    · rw [hmem, hmem', hq.run]
    · rw [hmem, hmem']
      exact hq.writes
    · rw [hmem, hmem']
      exact hq.mem
  · rw [hholder] at hne
    by_cases hij : j = i
    · exact hij ▸ hw
    · obtain ⟨hcall, ht, hs⟩ := hj j hij
      exact (hF.waits j hne).other hcall ht hs fun _ _ _ _ => by rw [hmem']

/-- Outside the lock a thread finds what was there before the call of the holder. -/
theorem Follows.peek {q : Call A V L} {a : A} {k : V → Call A V L} (hF : Follows code s t)
    (hrace : RaceFree code s) (hi : t.holder ≠ some i) (hcode : code i (s.own i) = some q)
    (hreads : Call.Reads s.mem q (.load a k)) : t.mem a = s.mem a := by
  have ha : a ∈ q.peeks s.mem := hreads.peeks List.mem_cons_self
  cases hholder : t.holder with
  | none => rw [hF.free hholder]
  | some h =>
    obtain ⟨r, _, hr⟩ := hF.held h hholder
    refine hr.mem a (hrace i h q r ?_ hcode hr.code a ha)
    rintro rfl
    exact hi hholder

/-! ## One access -/

variable [DecidableEq I]

theorem wholeCall_ok {q : Call A V L} {l : L} {m : A → V} (hcode : code i (s.own i) = some q)
    (hrun : q.run s.mem = .ok (l, m)) :
    wholeCall code i s = .ok { mem := m, own := Function.update s.own i l } := by
  unfold wholeCall
  rw [hcode]
  simp only [hrun, ok_bind]
  rfl

theorem wholeCall_error {q : Call A V L} {e : Stop} (hcode : code i (s.own i) = some q)
    (hrun : q.run s.mem = .error e) : wholeCall code i s = .error e := by
  unfold wholeCall
  rw [hcode]
  simp only [hrun, error_bind]

theorem oneAccess_call {p : Call A V L} (hcall : t.call i = some p) :
    oneAccess code i t = t.access i p := by
  unfold oneAccess
  rw [hcall]

theorem oneAccess_begin {q : Call A V L} (hcall : t.call i = none)
    (hcode : code i (t.own i) = some q) : oneAccess code i t = .ok (t.goOn i q) := by
  unfold oneAccess
  rw [hcall]
  simp only [hcode]

theorem oneAccess_ended (hcall : t.call i = none) (hcode : code i (t.own i) = none) :
    oneAccess code i t = .ok t := by
  unfold oneAccess
  rw [hcall]
  simp only [hcode]

theorem access_lock_free {k : Call A V L} (h : t.holder = none) :
    t.access i (.lock k) = .ok { t.goOn i k with holder := some i } := by
  unfold Midway.access
  rw [h]

theorem access_lock_held {k : Call A V L} (h : t.holder = some j) :
    t.access i (.lock k) = .ok t := by
  unfold Midway.access
  rw [h]

/-- What one access comes to: nothing happens in `s`, or the whole call does. -/
inductive Answers (code : I → L → Option (Call A V L)) (i : I) (s : Shared I A V L) :
    C (Midway I A V L) → Prop where
  | quiet {t' : Midway I A V L} (h : Follows code s t') : Answers code i s (.ok t')
  | call {s' : Shared I A V L} {t' : Midway I A V L} (hcall : wholeCall code i s = .ok s')
      (h : Follows code s' t') : Answers code i s (.ok t')
  | error {e : Stop} (hcall : wholeCall code i s = .error e) : Answers code i s (.error e)

/-- An access of the thread that holds the lock. -/
theorem answers_held {q p : Call A V L} (hF : Follows code s t) (hrace : RaceFree code s)
    (hi : t.holder = some i) (hq : Holds code s t i q p) :
    Answers code i s (oneAccess code i t) := by
  have hfree (m : Midway I A V L) (hm : m.holder = t.holder) : m.holder ≠ none := by
    rw [hm, hi]
    nofun
  have hother {k : Call A V L} {f : A → V} (j : I) (hj : t.holder ≠ some j) :
      Waits code s { t.goOn i k with mem := f } j := by
    refine (hF.waits j hj).other (goOn_other ?_) rfl rfl fun _ _ _ _ => rfl
    rintro rfl
    exact hj hi
  have hsect := hq.sect
  rw [oneAccess_call hq.call]
  cases p with
  | ret => exact absurd rfl hsect
  | lock => exact absurd hsect.1 (by decide)
  | fail => exact absurd (Call.sect_fail.mp hsect) (by decide)
  | load a k =>
    refine .quiet ⟨fun h => absurd h (hfree _ rfl), fun h hh => ?_, fun j hj => hother j hj⟩
    obtain rfl : h = i := Option.some.inj (hh.symm.trans hi)
    exact ⟨q, _, ⟨hq.code, goOn_self, hq.own, hsect.2 _, hq.run, hq.writes, hq.mem⟩⟩
  | store a v k =>
    refine .quiet ⟨fun h => absurd h (hfree _ rfl), fun h hh => ?_, fun j hj => hother j hj⟩
    obtain rfl : h = i := Option.some.inj (hh.symm.trans hi)
    obtain ⟨ha, hwrites⟩ := List.cons_subset.mp hq.writes
    refine ⟨q, _, ⟨hq.code, goOn_self, hq.own, hsect.2, hq.run, hwrites, fun b hb => ?_⟩⟩
    refine Eq.trans (Function.update_of_ne ?_ _ _) (hq.mem b hb)
    rintro rfl
    exact hb ha
  | unlock k =>
    obtain ⟨l, rfl⟩ := hsect.2.after
    refine .call (wholeCall_ok hq.code hq.run.symm) ⟨fun _ => rfl, nofun, fun j _ => ?_⟩
    by_cases hj : j = i
    · subst hj
      have hl : (Function.update s.own j l) j = l := Function.update_self ..
      exact .after (goOn_self.trans (congrArg (fun l => some (Call.ret l)) hl.symm))
    · refine (hF.waits j ?_).other (goOn_other hj) rfl (Function.update_of_ne hj _ _) ?_
      · rw [hi]
        rintro ⟨⟩
        exact hj rfl
      · intro r hr a ha
        exact hq.mem a (hrace j i r q hj hr hq.code a ha)

/-- An access of a thread that does not hold the lock. -/
theorem answers_waits (hsect : ∀ i l q, code i l = some q → q.Sect .outside)
    (hF : Follows code s t) (hrace : RaceFree code s) (hi : t.holder ≠ some i) :
    Answers code i s (oneAccess code i t) := by
  have hgoOn {k : Call A V L} (hw : Waits code s (t.goOn i k) i) : Follows code s (t.goOn i k) :=
    hF.other hi hw rfl rfl rfl fun j hj => ⟨goOn_other hj, rfl, rfl⟩
  have hret {l : L} {own : I → L} (hown : own i = l)
      (hj : ∀ j, j ≠ i → own j = s.own j) : Follows code ⟨s.mem, own⟩
        { t with own := Function.update t.own i l, call := Function.update t.call i none } := by
    refine hF.other hi (.rest (Function.update_self ..) ?_) rfl rfl rfl fun j hne => ⟨?_, ?_, hj j hne⟩
    · exact (Function.update_self ..).trans hown.symm
    · exact Function.update_of_ne hne _ _
    · exact Function.update_of_ne hne _ _
  cases hF.waits i hi with
  | rest hcall hown =>
    cases hcode : code i (s.own i) with
    | none =>
      rw [oneAccess_ended hcall (hown ▸ hcode)]
      exact .quiet hF
    | some q =>
      rw [oneAccess_begin hcall (hown ▸ hcode)]
      exact .quiet (hgoOn (.before hcode goOn_self hown (hsect _ _ _ hcode) (.refl q)))
  | after hcall =>
    rw [oneAccess_call hcall]
    exact .quiet (hret rfl fun _ _ => rfl)
  | @before q p hcode hcall hown hp hreads =>
    rw [oneAccess_call hcall]
    cases p with
    | ret l =>
      refine .call (wholeCall_ok hcode hreads.run) (hret (Function.update_self ..) fun j hj => ?_)
      exact Function.update_of_ne hj _ _
    | fail e => exact .error (wholeCall_error hcode hreads.run)
    | load a k =>
      have ha : t.mem a = s.mem a := hF.peek hrace hi hcode hreads
      exact .quiet (hgoOn (.before hcode goOn_self hown (hp.2 _) (ha ▸ hreads.more)))
    | store => exact absurd hp.1 (by decide)
    | unlock => exact absurd hp.1 (by decide)
    | lock k =>
      cases hfree : t.holder with
      | some h =>
        rw [access_lock_held hfree]
        exact .quiet hF
      | none =>
        rw [access_lock_free hfree]
        have hmem : t.mem = s.mem := hF.free hfree
        refine .quiet ⟨nofun, fun h hh => ?_, fun j hj => ?_⟩
        · cases hh
          have hrun : k.run t.mem = q.run s.mem := by
            rw [hreads.run, hmem]
            rfl
          have hwrites : k.writes t.mem = q.writes s.mem := by
            rw [hreads.writes, hmem]
            rfl
          refine ⟨q, k, ⟨hcode, goOn_self, hown, hp.2, hrun, ?_, fun a _ => congrFun hmem a⟩⟩
          exact hwrites ▸ List.Subset.refl _
        · have hji : j ≠ i := by
            rintro rfl
            exact hj rfl
          refine (hF.waits j (by rw [hfree]; nofun)).other (goOn_other hji) rfl rfl ?_
          exact fun _ _ _ _ => rfl

theorem answers (hsect : ∀ i l q, code i l = some q → q.Sect .outside) (hF : Follows code s t)
    (hrace : RaceFree code s) : Answers code i s (oneAccess code i t) := by
  by_cases hi : t.holder = some i
  · obtain ⟨q, p, hq⟩ := hF.held i hi
    exact answers_held hF hrace hi hq
  · exact answers_waits hsect hF hrace hi

/-! ## Runs -/

section
variable (hsect : ∀ i l q, code i l = some q → q.Sect .outside)
  (hrace : ∀ js s', playFrom (wholeCall code) js s = .ok s' → RaceFree code s')
include hsect hrace

/-- A run, one access at a time, follows one in which all calls are made at once. -/
theorem follows_run {is : List I} (h : playFrom (oneAccess code) is s.rest = .ok t) :
    ∃ js s', playFrom (wholeCall code) js s = .ok s' ∧ Follows code s' t := by
  refine playFrom_inv
    (P := fun t => ∃ js s', playFrom (wholeCall code) js s = .ok s' ∧ Follows code s' t) ?_
    ⟨[], s, rfl, follows_rest⟩ h
  rintro i t t' ⟨js, s', hs, hF⟩ hstep
  have hanswer : Answers code i s' (oneAccess code i t) := answers hsect hF (hrace js s' hs)
  rw [hstep] at hanswer
  cases hanswer with
  | quiet hF' => exact ⟨js, s', hs, hF'⟩
  | call hcall hF' =>
    refine ⟨js ++ [i], _, ?_, hF'⟩
    rw [playFrom_append, hs, ok_bind, playFrom, hcall]
    rfl

theorem follows_error {is : List I} {e : Stop}
    (h : playFrom (oneAccess code) is s.rest = .error e) :
    ∃ js, playFrom (wholeCall code) js s = .error e := by
  obtain ⟨is', i, t, hrun, hstep⟩ := playFrom_error h
  obtain ⟨js, s', hs, hF⟩ := follows_run hsect hrace hrun
  have hanswer : Answers code i s' (oneAccess code i t) := answers hsect hF (hrace js s' hs)
  rw [hstep] at hanswer
  cases hanswer with
  | error hcall =>
    refine ⟨js ++ [i], ?_⟩
    rw [playFrom_append, hs, ok_bind, playFrom, hcall]
    rfl

end

/-! ## One thread alone -/

/-- The thread `i` alone comes to the end of its call, of which `p` is left. -/
def Completes (code : I → L → Option (Call A V L)) (t : Midway I A V L) (i : I) (p : Call A V L) :
    Prop :=
  ∃ n, playFrom (oneAccess code) (List.replicate n i) t =
    p.run t.mem >>= fun r => .ok (t.ended i r)

theorem completes_step {p k : Call A V L} {f : A → V} {o : Option I} (hcall : t.call i = some p)
    (hstep : t.access i p = .ok { t.goOn i k with mem := f, holder := o })
    (hrun : p.run t.mem = k.run f) (h : Completes code { t.goOn i k with mem := f, holder := o } i k) :
    Completes code t i p := by
  obtain ⟨n, hn⟩ := h
  refine ⟨n + 1, ?_⟩
  rw [List.replicate_succ, playFrom, oneAccess_call hcall, hstep, hrun]
  simp only [ended_goOn] at hn
  exact hn

/-- A thread that is not disturbed comes to the end of its call. -/
theorem completes_alone {p : Call A V L} {ph : Phase} (hp : p.Sect ph) (hcall : t.call i = some p)
    (hholder : t.holder = if ph = .inside then some i else none) : Completes code t i p := by
  induction p generalizing t ph with
  | ret l =>
    rw [if_neg hp] at hholder
    refine ⟨1, bind_ok.mpr ⟨_, oneAccess_call hcall, congrArg Except.ok ?_⟩⟩
    exact Midway.ext rfl rfl hholder rfl
  | fail e => exact ⟨1, bind_error.mpr (.inl (oneAccess_call hcall))⟩
  | load a k ih => exact completes_step hcall rfl rfl (ih _ (hp.2 _) goOn_self hholder)
  | store a v k ih => exact completes_step hcall rfl rfl (ih hp.2 goOn_self hholder)
  | unlock k ih => exact completes_step hcall rfl rfl (ih hp.2 goOn_self rfl)
  | lock k ih =>
    have hout : ph ≠ .inside := by
      rintro rfl
      exact absurd hp.1 (by decide)
    rw [if_neg hout] at hholder
    exact completes_step hcall (access_lock_free hholder) rfl (ih hp.2 goOn_self rfl)

section
variable (hsect : ∀ i l q, code i l = some q → q.Sect .outside)
include hsect

theorem whole_alone (i : I) (s : Shared I A V L) :
    ∃ n, playFrom (oneAccess code) (List.replicate n i) s.rest =
      wholeCall code i s >>= fun s' => .ok s'.rest := by
  unfold wholeCall
  cases hcode : code i (s.own i) with
  | none => exact ⟨0, rfl⟩
  | some q =>
    obtain ⟨n, hn⟩ : Completes code (s.rest.goOn i q) i q :=
      completes_alone (hsect _ _ _ hcode) goOn_self rfl
    refine ⟨n + 1, ?_⟩
    rw [List.replicate_succ, playFrom, oneAccess_begin rfl hcode, ok_bind, hn]
    simp only [ended_rest]
    change q.run s.mem >>= _ = _
    cases q.run s.mem <;> rfl

/-- A run in which all calls are made at once is one in which they are made one access at a time. -/
theorem whole_run {js : List I} (h : playFrom (wholeCall code) js s = .ok s') :
    ∃ is, playFrom (oneAccess code) is s.rest = .ok s'.rest := by
  induction js generalizing s with
  | nil =>
    cases h
    exact ⟨[], rfl⟩
  | cons j js ih =>
    rw [playFrom, bind_ok] at h
    obtain ⟨u, hu, h⟩ := h
    obtain ⟨n, hn⟩ := whole_alone hsect j s
    obtain ⟨is, his⟩ := ih h
    rw [hu] at hn
    refine ⟨List.replicate n j ++ is, ?_⟩
    rw [playFrom_append, hn]
    exact his

theorem whole_error {js : List I} {e : Stop} (h : playFrom (wholeCall code) js s = .error e) :
    ∃ is, playFrom (oneAccess code) is s.rest = .error e := by
  obtain ⟨js', j, u, hrun, hj⟩ := playFrom_error h
  obtain ⟨is, his⟩ := whole_run hsect hrun
  obtain ⟨n, hn⟩ := whole_alone hsect j u
  rw [hj] at hn
  refine ⟨is ++ List.replicate n j, ?_⟩
  rw [playFrom_append, his]
  exact hn

end

/-! ## No thread waits for ever -/

/-- The thread that holds the lock is the one whose call is in its section. -/
structure Orderly (t : Midway I A V L) : Prop where
  sect : ∀ i p, t.call i = some p → ∃ ph, p.Sect ph ∧ (ph = .inside ↔ t.holder = some i)
  held : ∀ h, t.holder = some h → t.call h ≠ none

omit [DecidableEq A] [DecidableEq I] in
theorem orderly_rest : Orderly s.rest := ⟨nofun, nofun⟩

omit [DecidableEq A] in
theorem Orderly.goOn {k : Call A V L} {ph : Phase} {o : Option I} {f : A → V} (ht : Orderly t)
    (hk : k.Sect ph) (hi : ph = .inside ↔ o = some i)
    (hj : ∀ j, j ≠ i → (o = some j ↔ t.holder = some j)) :
    Orderly { t.goOn i k with mem := f, holder := o } := by
  refine ⟨fun j p hp => ?_, fun h hh => ?_⟩
  · by_cases hji : j = i
    · subst hji
      obtain rfl := Option.some.inj (goOn_self.symm.trans hp)
      exact ⟨ph, hk, hi⟩
    · obtain ⟨ph', hp', hiff⟩ := ht.sect j p ((goOn_other hji).symm.trans hp)
      exact ⟨ph', hp', hiff.trans (hj j hji).symm⟩
  · by_cases hhi : h = i
    · subst hhi
      exact fun hnone => by cases goOn_self.symm.trans hnone
    · exact fun hnone => ht.held h ((hj h hhi).mp hh) ((goOn_other hhi).symm.trans hnone)

omit [DecidableEq A] in
theorem Orderly.ended {r : L × (A → V)} (ht : Orderly t)
    (hi : t.holder = none ∨ t.holder = some i) : Orderly (t.ended i r) := by
  refine ⟨fun j p hp => ?_, nofun⟩
  by_cases hj : j = i
  · rw [hj, ended_self] at hp
    cases hp
  · rw [ended_other hj] at hp
    obtain ⟨ph, hph, hiff⟩ := ht.sect j p hp
    refine ⟨ph, hph, hiff.trans ?_⟩
    rcases hi with hi | hi <;> rw [hi]
    · rfl
    · exact ⟨fun h => absurd (Option.some.inj h).symm hj, nofun⟩

theorem orderly_step (hsect : ∀ i l q, code i l = some q → q.Sect .outside) (ht : Orderly t)
    (h : oneAccess code i t = .ok t') : Orderly t' := by
  cases hcall : t.call i with
  | none =>
    cases hcode : code i (t.own i) with
    | none =>
      rw [oneAccess_ended hcall hcode] at h
      cases h
      exact ht
    | some q =>
      rw [oneAccess_begin hcall hcode] at h
      cases h
      refine ht.goOn (hsect _ _ _ hcode) ⟨nofun, fun hi => ?_⟩ fun _ _ => Iff.rfl
      exact absurd hcall (ht.held i hi)
  | some p =>
    rw [oneAccess_call hcall] at h
    obtain ⟨ph, hp, hiff⟩ := ht.sect i p hcall
    cases p with
    | fail => cases h
    | ret l =>
      have hfree : t.holder ≠ some i := fun hi => hp (hiff.mpr hi)
      cases h
      refine ⟨fun j p hj => ?_, fun j hj hnone => ?_⟩
      · dsimp only at hj
        by_cases hji : j = i
        · rw [hji, Function.update_self] at hj
          cases hj
        · rw [Function.update_of_ne hji] at hj
          exact ht.sect j p hj
      · have hji : j ≠ i := by
          rintro rfl
          exact hfree hj
        exact ht.held j hj ((Function.update_of_ne hji _ _).symm.trans hnone)
    | load a k =>
      cases h
      exact ht.goOn (hp.2 _) hiff fun _ _ => Iff.rfl
    | store a v k =>
      cases h
      exact ht.goOn hp.2 hiff fun _ _ => Iff.rfl
    | unlock k =>
      have hi : t.holder = some i := hiff.mp hp.1
      cases h
      refine ht.goOn hp.2 ⟨nofun, nofun⟩ fun j hj => ⟨nofun, fun h => ?_⟩
      exact absurd (Option.some.inj (h.symm.trans hi)) hj
    | lock k =>
      cases hholder : t.holder with
      | some j =>
        rw [access_lock_held hholder] at h
        cases h
        exact ht
      | none =>
        rw [access_lock_free hholder] at h
        cases h
        refine ht.goOn hp.2 ⟨fun _ => rfl, fun _ => rfl⟩ fun j hj => ?_
        rw [hholder]
        exact ⟨fun h => absurd (Option.some.inj h).symm hj, nofun⟩

/-- The thread that holds the lock, or any one if the lock is free, can end its call, or fails. -/
theorem Orderly.completes (ht : Orderly t) {p : Call A V L} (hp : t.call i = some p)
    (hi : t.holder = none ∨ t.holder = some i) : Completes code t i p := by
  obtain ⟨ph, hph, hiff⟩ := ht.sect i p hp
  refine completes_alone hph hp ?_
  rcases hi with hi | hi
  · rw [if_neg (fun h => by rw [hi] at hiff; cases hiff.mp h), hi]
  · rw [if_pos (hiff.mpr hi), hi]

/-- All calls under way are made by threads of `l`. -/
def Busy (l : List I) (t : Midway I A V L) : Prop := ∀ i, i ∉ l → t.call i = none

/-- The run can be continued until no call is under way, or until one fails. -/
def Finishes (code : I → L → Option (Call A V L)) (t : Midway I A V L) : Prop :=
  ∃ is, (∃ t', playFrom (oneAccess code) is t = .ok t' ∧ t'.AtRest) ∨
    ∃ e, playFrom (oneAccess code) is t = .error e

theorem finishes_completes {p : Call A V L} (h : Completes code t i p)
    (hr : ∀ r, p.run t.mem = .ok r → Finishes code (t.ended i r)) : Finishes code t := by
  obtain ⟨n, hn⟩ := h
  cases hrun : p.run t.mem with
  | error e =>
    rw [hrun] at hn
    exact ⟨_, .inr ⟨e, hn⟩⟩
  | ok r =>
    rw [hrun] at hn
    obtain ⟨is, his⟩ := hr r hrun
    refine ⟨List.replicate n i ++ is, ?_⟩
    rw [playFrom_append, hn]
    exact his

/-- With the lock free, the threads of `l` end their calls one after the other. -/
theorem Orderly.finish_free {l : List I} (ht : Orderly t) (hfree : t.holder = none)
    (hl : Busy l t) : Finishes code t := by
  induction l generalizing t with
  | nil => exact ⟨[], .inl ⟨t, rfl, hfree, fun i => hl i List.not_mem_nil⟩⟩
  | cons i l ih =>
    have hrest (j : I) (hj : j ∉ l) (hji : j ≠ i) : t.call j = none :=
      hl j (List.not_mem_cons_of_ne_of_not_mem hji hj)
    cases hp : t.call i with
    | none =>
      refine ih ht hfree fun j hj => ?_
      by_cases hji : j = i
      · rw [hji, hp]
      · exact hrest j hj hji
    | some p =>
      refine finishes_completes (ht.completes hp (.inl hfree)) fun r _ => ?_
      refine ih (ht.ended (.inl hfree)) rfl fun j hj => ?_
      by_cases hji : j = i
      · rw [hji, ended_self]
      · rw [ended_other hji, hrest j hj hji]

theorem Orderly.finish {l : List I} (ht : Orderly t) (hl : Busy l t) : Finishes code t := by
  cases hholder : t.holder with
  | none => exact ht.finish_free hholder hl
  | some h =>
    obtain ⟨p, hp⟩ := Option.ne_none_iff_exists'.mp (ht.held h hholder)
    refine finishes_completes (ht.completes hp (.inr hholder)) fun r _ => ?_
    refine (ht.ended (.inr hholder)).finish_free (l := l) rfl fun j hj => ?_
    by_cases hjh : j = h
    · rw [hjh, ended_self]
    · rw [ended_other hjh, hl j hj]

theorem oneAccess_other (hj : j ≠ i) (h : oneAccess code i t = .ok t') : t'.call j = t.call j := by
  cases hcall : t.call i with
  | none =>
    cases hcode : code i (t.own i) with
    | none =>
      rw [oneAccess_ended hcall hcode] at h
      cases h
      rfl
    | some q =>
      rw [oneAccess_begin hcall hcode] at h
      cases h
      exact goOn_other hj
  | some p =>
    rw [oneAccess_call hcall] at h
    cases p with
    | fail => cases h
    | ret =>
      cases h
      exact Function.update_of_ne hj _ _
    | load | store | unlock =>
      cases h
      exact goOn_other hj
    | lock k =>
      cases hholder : t.holder with
      | some =>
        rw [access_lock_held hholder] at h
        cases h
        rfl
      | none =>
        rw [access_lock_free hholder] at h
        cases h
        exact goOn_other hj

theorem busy_run {is l : List I} (ht : Busy l t) (h : playFrom (oneAccess code) is t = .ok t') :
    Busy (is ++ l) t' := by
  induction is generalizing t l with
  | nil =>
    cases h
    exact ht
  | cons i is ih =>
    rw [playFrom, bind_ok] at h
    obtain ⟨u, hu, h⟩ := h
    refine fun j hj => ih (l := i :: l) (fun k hk => ?_) h j (by simpa [or_left_comm] using hj)
    rw [List.mem_cons, not_or] at hk
    rw [oneAccess_other hk.1 hu, ht k hk.2]

/-- A thread changes what it has of its own when it ends a call. -/
theorem oneAccess_own (hj : t'.call j ≠ none) (h : oneAccess code i t = .ok t') :
    t'.own j = t.own j := by
  cases hcall : t.call i with
  | none =>
    cases hcode : code i (t.own i) with
    | none =>
      rw [oneAccess_ended hcall hcode] at h
      cases h
      rfl
    | some q =>
      rw [oneAccess_begin hcall hcode] at h
      cases h
      rfl
  | some p =>
    rw [oneAccess_call hcall] at h
    cases p with
    | fail => cases h
    | ret l =>
      cases h
      refine Function.update_of_ne ?_ _ _
      rintro rfl
      exact hj (Function.update_self ..)
    | load | store | unlock =>
      cases h
      rfl
    | lock k =>
      cases hholder : t.holder with
      | some =>
        rw [access_lock_held hholder] at h
        cases h
        rfl
      | none =>
        rw [access_lock_free hholder] at h
        cases h
        rfl

/-- Only a thread that is to make a call has one under way. -/
def Begun (code : I → L → Option (Call A V L)) (t : Midway I A V L) : Prop :=
  ∀ i, t.call i ≠ none → code i (t.own i) ≠ none

theorem begun_step (ht : Begun code t) (h : oneAccess code i t = .ok t') : Begun code t' := by
  intro j hj
  rw [oneAccess_own hj h]
  by_cases hji : j = i
  · subst hji
    intro hcode
    by_cases hcall : t.call j = none
    · rw [oneAccess_ended hcall hcode] at h
      cases h
      exact hj hcall
    · exact ht j hcall hcode
  · rw [oneAccess_other hji h] at hj
    exact ht j hj

section
variable (hsect : ∀ i l q, code i l = some q → q.Sect .outside) {is : List I}
  (hrun : playFrom (oneAccess code) is s.rest = .ok t)
include hsect hrun

theorem orderly_run : Orderly t :=
  playFrom_inv (fun _ _ _ hu hstep => orderly_step hsect hu hstep) orderly_rest hrun

/-- Whatever the threads have done, all calls can be brought to an end. -/
theorem finish_run : Finishes code t :=
  (orderly_run hsect hrun).finish (busy_run (l := []) (fun _ _ => rfl) hrun)

/-- When all threads have ended, no call is under way. -/
theorem atRest_of_ended (hend : ∀ i, code i (t.own i) = none) : t.AtRest := by
  have hbegun : Begun code t := playFrom_inv (fun _ _ _ hu hstep => begun_step hu hstep)
    (fun _ hi => absurd rfl hi) hrun
  have hcall (i : I) : t.call i = none := by
    by_contra hi
    exact hbegun i hi (hend i)
  refine ⟨Option.eq_none_iff_forall_ne_some.mpr fun h hh => ?_, hcall⟩
  exact (orderly_run hsect hrun).held h hh (hcall h)

end

end

end Cs720.Lib
