import Mathlib.Tactic.Common

/-! # Loops of a C program

A C function is a function into `C`: a value, or the reason why there is none. A `while` loop is
`loop` of its body, with a budget of iterations, so a run that does not end is one that runs out
of every budget.
-/

namespace Cs720.Lib

/-- Why a computation has no value. -/
inductive Stop where
  /-- The budget of loop iterations is spent. -/
  | budget
  /-- A pointer was used that points to nothing of the right kind. -/
  | fault
  /-- The program called `exit`. -/
  | exit (status : Int)
  deriving DecidableEq, Repr

abbrev C := Except Stop

theorem bind_ok {α β : Type} {x : C α} {f : α → C β} {r : β} :
    x >>= f = .ok r ↔ ∃ a, x = .ok a ∧ f a = .ok r := by
  cases x with
  | error e => simp [bind, Except.bind]
  | ok a => simp [bind, Except.bind]

theorem bind_error {α β : Type} {x : C α} {f : α → C β} {e : Stop} :
    x >>= f = .error e ↔ x = .error e ∨ ∃ a, x = .ok a ∧ f a = .error e := by
  cases x with
  | error e => simp [bind, Except.bind]
  | ok a => simp [bind, Except.bind]

/-- A value that has been computed and passes the check `p`. -/
theorem ok_and {α : Type} {x : C α} {p : α → Bool} (h : (x.toOption.any p) = true) :
    ∃ a, x = .ok a ∧ p a = true := by
  cases x with
  | error e => contradiction
  | ok a => exact ⟨a, rfl, h⟩

theorem ok_of_isOk {α : Type} {x : C α} (h : x.isOk = true) : ∃ a, x = .ok a := by
  cases x with
  | error e => contradiction
  | ok a => exact ⟨a, rfl⟩

def isFault {α : Type} : C α → Bool
  | .error .fault => true
  | _ => false

theorem fault_of_isFault {α : Type} {x : C α} (h : isFault x = true) : x = .error .fault := by
  unfold isFault at h
  split at h
  · rfl
  · contradiction

/-- The computation does not run out of its budget, and where it is `safe` it has a value. -/
def Comes {α : Type} (safe : Prop) (x : C α) : Prop :=
  x ≠ .error .budget ∧ (safe → ∃ a, x = .ok a)

theorem comes_ok {α : Type} (safe : Prop) (a : α) : Comes safe (.ok a : C α) :=
  ⟨by simp, fun _ => ⟨a, rfl⟩⟩

theorem comes_error {α : Type} {safe : Prop} {e : Stop} (he : e ≠ .budget) (h : ¬ safe) :
    Comes safe (.error e : C α) :=
  ⟨by simpa using he, fun hs => absurd hs h⟩

theorem Comes.of_eq {α : Type} {safe : Prop} {x y : C α} (h : x = y) (hy : Comes safe y) :
    Comes safe x :=
  h ▸ hy

theorem Comes.mono {α : Type} {safe safe' : Prop} {x : C α} (h : Comes safe x)
    (hs : safe' → safe) : Comes safe' x :=
  ⟨h.1, fun h' => h.2 (hs h')⟩

theorem comes_bind {α β : Type} {safe : Prop} {x : C α} {f : α → C β} (hx : Comes safe x)
    (hf : ∀ a, x = .ok a → Comes safe (f a)) : Comes safe (x >>= f) := by
  cases x with
  | ok a => exact hf a rfl
  | error e =>
    refine ⟨fun h => hx.1 (by cases h; rfl), fun hs => ?_⟩
    obtain ⟨a, ha⟩ := hx.2 hs
    cases ha

/-- What one iteration decides: go on with a new state, or leave the loop. -/
inductive Flow (σ ρ : Type) where
  | next (s : σ)
  | done (r : ρ)

section
variable {σ ρ : Type}

def loop (body : σ → C (Flow σ ρ)) : Nat → σ → C ρ
  | 0, _ => .error .budget
  | n + 1, s =>
    match body s with
    | .error e => .error e
    | .ok (.next s') => loop body n s'
    | .ok (.done r) => .ok r

variable {body : σ → C (Flow σ ρ)}

/-- The first iteration of a loop that ends with a value. -/
theorem loop_cases {n : Nat} {s : σ} {r : ρ} (h : loop body n s = .ok r) :
    (∃ k s', n = k + 1 ∧ body s = .ok (.next s') ∧ loop body k s' = .ok r) ∨
      body s = .ok (.done r) := by
  cases n with
  | zero => simp [loop] at h
  | succ k =>
    simp only [loop] at h
    split at h
    · cases h
    · rename_i s' hb; exact Or.inl ⟨k, s', rfl, hb, h⟩
    · rename_i r' hb; cases h; exact Or.inr hb

theorem loop_of_next {n : Nat} {s s' : σ} {r : ρ} (hb : body s = .ok (.next s'))
    (h : loop body n s = .ok r) : ∃ k, n = k + 1 ∧ loop body k s' = .ok r := by
  rcases loop_cases h with ⟨k, s'', hk, hb', hl⟩ | hb'
  · obtain rfl : s' = s'' := by rw [hb] at hb'; cases hb'; rfl
    exact ⟨k, hk, hl⟩
  · rw [hb] at hb'; cases hb'

theorem loop_of_done {n : Nat} {s : σ} {r r' : ρ} (hb : body s = .ok (.done r'))
    (h : loop body n s = .ok r) : r = r' := by
  rcases loop_cases h with ⟨k, s'', -, hb', -⟩ | hb'
  · rw [hb] at hb'; cases hb'
  · rw [hb] at hb'; cases hb'; rfl

theorem loop_error {n : Nat} {s : σ} {e : Stop} (hb : body s = .error e) :
    loop body (n + 1) s = .error e := by
  simp only [loop, hb]

/-- The invariant rule. -/
theorem loop_inv (I : σ → Prop) (Q : ρ → Prop)
    (hnext : ∀ s s', I s → body s = .ok (.next s') → I s')
    (hdone : ∀ s r, I s → body s = .ok (.done r) → Q r)
    {n : Nat} {s : σ} {r : ρ} (hs : I s) (h : loop body n s = .ok r) : Q r := by
  induction n generalizing s with
  | zero => simp [loop] at h
  | succ n ih =>
    rcases loop_cases h with ⟨k, s', hk, hb, hl⟩ | hb
    · obtain rfl : n = k := by omega
      exact ih (hnext s s' hs hb) hl
    · exact hdone s r hs hb

/-- The rule for total correctness. -/
theorem loop_total (I : σ → Prop) (Q : ρ → Prop) (μ : σ → Nat)
    (hstep : ∀ s, I s → (∃ s', body s = .ok (.next s') ∧ I s' ∧ μ s' < μ s) ∨
      ∃ r, body s = .ok (.done r) ∧ Q r)
    {n : Nat} {s : σ} (hn : μ s < n) (hs : I s) : ∃ r, loop body n s = .ok r ∧ Q r := by
  induction n generalizing s with
  | zero => omega
  | succ n ih =>
    rcases hstep s hs with ⟨s', hb, hs', hμ⟩ | ⟨r, hb, hr⟩
    · simp only [loop, hb]
      exact ih (by omega) hs'
    · exact ⟨r, by simp only [loop, hb], hr⟩

theorem comes_next {safe : Prop} {n : Nat} {s s' : σ} (hb : body s = .ok (.next s'))
    (h : Comes safe (loop body n s')) : Comes safe (loop body (n + 1) s) := by
  simp only [loop, hb]
  exact h

theorem comes_stuck {safe : Prop} {n : Nat} {s : σ} {e : Stop} (hb : body s = .error e)
    (he : e ≠ .budget) (h : ¬ safe) : Comes safe (loop body (n + 1) s) := by
  rw [loop_error hb]
  exact comes_error he h

theorem comes_done {n : Nat} {s : σ} {r : ρ} (safe : Prop) (hb : body s = .ok (.done r)) :
    Comes safe (loop body (n + 1) s) := by
  simp only [loop, hb]
  exact comes_ok safe r

/-- The first iteration, and the rest. -/
theorem comes_first {safe : Prop} {n : Nat} {s : σ} (hb : Comes safe (body s))
    (h : ∀ s', body s = .ok (.next s') → Comes safe (loop body n s')) :
    Comes safe (loop body (n + 1) s) := by
  rcases hbs : body s with e | (s' | r)
  · rw [hbs] at hb
    simp only [loop, hbs]
    refine ⟨fun he => hb.1 (by cases he; rfl), fun hs => ?_⟩
    obtain ⟨a, ha⟩ := hb.2 hs
    cases ha
  · exact comes_next hbs (h s' hbs)
  · exact comes_done safe hbs

/-- The rule for the end of a loop. -/
theorem comes_loop {safe : Prop} (I : σ → Prop) (μ : σ → Nat)
    (hbody : ∀ s, I s → Comes safe (body s))
    (hnext : ∀ s s', I s → body s = .ok (.next s') → I s' ∧ μ s' < μ s)
    {n : Nat} {s : σ} (hn : μ s < n) (hs : I s) : Comes safe (loop body n s) := by
  induction n generalizing s with
  | zero => omega
  | succ n ih =>
    refine comes_first (hbody s hs) fun s' hb => ?_
    obtain ⟨hs', hμ⟩ := hnext s s' hs hb
    exact ih (by omega) hs'

/-- A larger budget changes no value. -/
theorem loop_mono {n k : Nat} {s : σ} {r : ρ} (hk : n ≤ k) (h : loop body n s = .ok r) :
    loop body k s = .ok r := by
  induction n generalizing s k with
  | zero => simp [loop] at h
  | succ n ih =>
    obtain ⟨j, rfl⟩ : ∃ j, k = j + 1 := ⟨k - 1, by omega⟩
    rcases loop_cases h with ⟨i, s', hi, hb, hl⟩ | hb
    · obtain rfl : n = i := by omega
      simp only [loop, hb]
      exact ih (by omega) hl
    · simp only [loop, hb]

/-- A loop that ends with a value fails by its budget only. -/
theorem loop_budget {n k : Nat} {s : σ} {r : ρ} {e : Stop} (h : loop body n s = .ok r)
    (h' : loop body k s = .error e) : e = .budget := by
  induction k generalizing n s with
  | zero =>
    cases h'
    rfl
  | succ k ih =>
    rcases loop_cases h with ⟨i, s', -, hb, hl⟩ | hb
    · simp only [loop, hb] at h'
      exact ih hl h'
    · simp only [loop, hb] at h'
      cases h'

theorem loop_unique {n k : Nat} {s : σ} {r r' : ρ} (h : loop body n s = .ok r)
    (h' : loop body k s = .ok r') : r = r' := by
  have hmax := loop_mono (Nat.le_max_left n k) h
  rw [loop_mono (Nat.le_max_right n k) h'] at hmax
  cases hmax
  rfl

end

end Cs720.Lib
