import Mathlib.Data.Finset.Card
import Mathlib.Data.Finset.Range
import Mathlib.Logic.Relation
import Mathlib.Tactic.Linarith
import Cs720.Lib.Loop

/-! # The tortoise and the hare

A chain of links ends, or it comes back to where it was. Two walkers find out which, one of them
at twice the speed of the other.
-/

namespace Cs720.Lib

section
variable {α : Type} (f : α → Option α)

/-- `k` links on from `x`. -/
def walk : Nat → α → Option α
  | 0, x => some x
  | k + 1, x => (walk k x).bind f

def Endless (x : α) : Prop := ∀ k, walk f k x ≠ none

variable {f}

theorem walk_add (j k : Nat) (x : α) : walk f (j + k) x = (walk f j x).bind (walk f k) := by
  induction k with
  | zero => simp [walk]
  | succ k ih =>
    rw [← Nat.add_assoc, walk, ih, Option.bind_assoc]
    rfl

theorem walk_succ {k : Nat} {x y : α} (h : f x = some y) : walk f (k + 1) x = walk f k y := by
  rw [Nat.add_comm, walk_add]
  simp [walk, h]

theorem walk_none {j k : Nat} {x : α} (h : walk f j x = none) (hjk : j ≤ k) :
    walk f k x = none := by
  obtain ⟨i, rfl⟩ : ∃ i, k = j + i := ⟨k - j, by omega⟩
  rw [walk_add, h]
  rfl

/-- A chain that comes back repeats from there on. -/
theorem walk_period {i d : Nat} {x : α} (h : walk f (i + d) x = walk f i x) {k : Nat} (hk : i ≤ k)
    (m : Nat) : walk f (k + d * m) x = walk f k x := by
  induction m with
  | zero => rfl
  | succ m ih =>
    have hstep : walk f (k + d * m + d) x = walk f (k + d * m) x := by
      have h1 : k + d * m + d = (i + d) + (k + d * m - i) := by omega
      have h2 : k + d * m = i + (k + d * m - i) := by omega
      rw [h1, walk_add, h, ← walk_add, ← h2]
    rw [← ih, ← hstep, Nat.mul_succ, Nat.add_assoc]

theorem endless_of_repeat {i d : Nat} {x : α} (hd : 0 < d) (h : walk f (i + d) x = walk f i x)
    (hsome : walk f i x ≠ none) : Endless f x := by
  intro j hj
  have hp := walk_period h (Nat.le_refl i) j
  rw [walk_none hj (by nlinarith)] at hp
  exact hsome hp.symm

/-- A chain as long as the number of things repeats one. -/
theorem walk_repeats [DecidableEq α] {S : Finset α} {x : α}
    (hS : ∀ k y, walk f k x = some y → y ∈ S) {j : Nat} (hj : S.card ≤ j)
    (hsome : walk f j x ≠ none) :
    ∃ i d, 0 < d ∧ walk f (i + d) x = walk f i x ∧ i + d ≤ S.card ∧ walk f i x ≠ none := by
  have hget : ∀ k, ∃ y, k ≤ j → walk f k x = some y := by
    intro k
    rcases hk : walk f k x with _ | y
    · exact ⟨x, fun hkj => absurd (walk_none hk hkj) hsome⟩
    · exact ⟨y, fun _ => rfl⟩
  choose y hy using hget
  have hmaps : ∀ k ∈ Finset.range (S.card + 1), y k ∈ S := by
    intro k hk
    rw [Finset.mem_range] at hk
    exact hS k (y k) (hy k (by omega))
  obtain ⟨a, ha, b, hb, hab, heq⟩ := Finset.exists_ne_map_eq_of_card_lt_of_maps_to
    (by rw [Finset.card_range]; omega) hmaps
  rw [Finset.mem_range] at ha hb
  have hwalk : walk f a x = walk f b x := by
    rw [hy a (by omega), hy b (by omega), heq]
  rcases Nat.lt_or_gt_of_ne hab with hlt | hlt
  · refine ⟨a, b - a, by omega, ?_, by omega, by simp [hy a (by omega)]⟩
    rw [Nat.add_sub_cancel' (by omega), hwalk]
  · refine ⟨b, a - b, by omega, ?_, by omega, by simp [hy b (by omega)]⟩
    rw [Nat.add_sub_cancel' (by omega), hwalk]

/-- On an endless chain through finitely many things the walkers meet. -/
theorem endless_meets [DecidableEq α] {S : Finset α} {x : α}
    (hS : ∀ k y, walk f k x = some y → y ∈ S) (h : Endless f x) :
    ∃ k, 0 < k ∧ k ≤ S.card ∧ walk f (2 * k) x = walk f k x := by
  obtain ⟨i, d, hd, hwalk, hle, -⟩ := walk_repeats hS (Nat.le_refl _) (h S.card)
  -- The first multiple of the period past the start of the cycle.
  have hdiv := Nat.div_add_mod i d
  have hmod := Nat.mod_lt i hd
  refine ⟨d * (i / d + 1), Nat.mul_pos hd (Nat.succ_pos _), ?_, ?_⟩
  · rw [Nat.mul_succ]
    omega
  · rw [Nat.two_mul]
    apply walk_period hwalk
    rw [Nat.mul_succ]
    omega

/-! ## Links as a relation -/

theorem walk_of_transGen {x y : α} (h : Relation.TransGen (fun a b => f a = some b) x y) :
    ∃ k, 0 < k ∧ walk f k x = some y := by
  induction h with
  | single h => exact ⟨1, by omega, by rw [walk_succ h]; rfl⟩
  | tail _ hlink ih =>
    obtain ⟨k, hk, hwalk⟩ := ih
    exact ⟨k + 1, by omega, by rw [walk, hwalk]; exact hlink⟩

theorem transGen_of_walk {k : Nat} {x y : α} (hk : 0 < k) (h : walk f k x = some y) :
    Relation.TransGen (fun a b => f a = some b) x y := by
  induction k generalizing y with
  | zero => omega
  | succ k ih =>
    rw [walk, Option.bind_eq_some_iff] at h
    obtain ⟨z, hz, hlink⟩ := h
    rcases Nat.eq_zero_or_pos k with rfl | hpos
    · cases hz
      exact .single hlink
    · exact (ih hpos hz).tail hlink

/-- A chain that ends has no cycle on it. -/
theorem not_transGen_self {x : α} (h : ¬ Endless f x) :
    ¬ Relation.TransGen (fun a b => f a = some b) x x := by
  intro hx
  obtain ⟨k, hk, hwalk⟩ := walk_of_transGen hx
  refine h (endless_of_repeat (i := 0) hk ?_ (by simp [walk]))
  rw [Nat.zero_add, hwalk]
  rfl

/-! ## One link more, or fewer links -/

theorem endless_of_sub {g : α → Option α} (hsub : ∀ a b, f a = some b → g a = some b) {x : α}
    (h : Endless f x) : Endless g x := by
  have hwalk : ∀ k y, walk f k x = some y → walk g k x = some y := by
    intro k
    induction k with
    | zero => exact fun y hy => hy
    | succ k ih =>
      intro y hy
      rw [walk, Option.bind_eq_some_iff] at hy ⊢
      obtain ⟨z, hz, hlink⟩ := hy
      exact ⟨z, ih z hz, hsub z y hlink⟩
  intro k hk
  obtain ⟨y, hy⟩ := Option.ne_none_iff_exists'.mp (h k)
  rw [hwalk k y hy] at hk
  contradiction

section
variable [DecidableEq α] {t : α} {v : Option α}

/-- Up to where the chain reaches `t`, the link of `t` does not matter. -/
theorem walk_update {k : Nat} {x : α} (h : ∀ i < k, walk f i x ≠ some t) :
    walk (Function.update f t v) k x = walk f k x := by
  induction k with
  | zero => rfl
  | succ k ih =>
    rw [walk, walk, ih fun i hi => h i (by omega)]
    rcases hk : walk f k x with _ | y
    · rfl
    · have hy : y ≠ t := by
        rintro rfl
        exact h k (by omega) hk
      simp [Function.update_of_ne hy]

/-- A chain that ends at `t` reaches it in the same way when `t` gets a link. -/
theorem walk_update_reach (hend : f t = none) {k : Nat} {x : α} (h : walk f k x = some t) :
    walk (Function.update f t v) k x = some t := by
  rw [walk_update, h]
  intro i hi heq
  have hnone : walk f (i + 1) x = none := by
    rw [walk, heq]
    exact hend
  rw [walk_none hnone (by omega)] at h
  contradiction

/-- A new link from `t` to `x` closes a cycle exactly when `x` leads to `t`. -/
theorem endless_link_iff (hend : f t = none) {x : α} (h : ¬ Endless f x) :
    Endless (Function.update f t (some x)) x ↔ ∃ k, walk f k x = some t := by
  constructor
  · intro hloop
    by_contra hn
    push Not at hn
    refine h fun k hk => hloop k ?_
    rw [walk_update fun i _ => hn i, hk]
  · rintro ⟨k, hk⟩
    refine endless_of_repeat (i := 0) (d := k + 1) (by omega) ?_ (by simp [walk])
    have hback : walk (Function.update f t (some x)) (k + 1) x = some x := by
      rw [walk, walk_update_reach hend hk]
      simp
    rw [Nat.zero_add, hback]
    rfl

/-- A new link from `t` to `x` that closes no cycle at `x` closes none at all. -/
theorem not_endless_link (hend : f t = none) (h : ∀ y, ¬ Endless f y) {x : α}
    (hx : ¬ Endless (Function.update f t (some x)) x) (y : α) :
    ¬ Endless (Function.update f t (some x)) y := by
  intro hy
  by_cases hreach : ∃ k, walk f k y = some t
  · obtain ⟨k, hk⟩ := hreach
    refine hx fun j hj => hy (k + 1 + j) ?_
    rw [walk_add, walk, walk_update_reach hend hk]
    simpa using hj
  · push Not at hreach
    refine h y fun k hk => hy k ?_
    rw [walk_update fun i _ => hreach i, hk]

end

/-! ## The race -/

/-- One round: a step of the tortoise, two of the hare, and a look whether they met. -/
def raceStep [DecidableEq α] (f : α → Option α) :
    Option α × Option α → C (Flow (Option α × Option α) Bool)
  | (some slow, some fast) =>
    match f fast with
    | none => .ok (.done false)
    | some ahead =>
      if f slow ≠ none ∧ f slow = f ahead then .ok (.done true)
      else .ok (.next (f slow, f ahead))
  | _ => .ok (.done false)

theorem raceStep_ended [DecidableEq α] (slow : Option α) :
    raceStep f (slow, none) = .ok (.done false) := by
  cases slow <;> rfl

/-- After `k` rounds without a meeting, the race ends, and it tells whether the chain is endless. -/
theorem race_from [DecidableEq α] {S : Finset α} {x : α}
    (hS : ∀ k y, walk f k x = some y → y ∈ S) {n k : Nat} (hn : S.card < n + k)
    (hlive : k = 0 ∨ walk f (2 * k - 1) x ≠ none)
    (hfirst : ∀ i, 0 < i → i ≤ k → walk f i x ≠ none → walk f i x ≠ walk f (2 * i) x) :
    ∃ r, loop (raceStep f) n (walk f k x, walk f (2 * k) x) = .ok r ∧ (r = true ↔ Endless f x) := by
  have hends : ∀ {j}, walk f j x = none → (false = true ↔ Endless f x) :=
    fun {j} hj => ⟨fun h => by contradiction, fun h => absurd hj (h j)⟩
  induction n generalizing k with
  | zero =>
    -- The budget is spent only after more rounds than an endless chain needs.
    exfalso
    have hk : walk f (2 * k - 1) x ≠ none := hlive.resolve_left (by omega)
    obtain ⟨i, d, hd, hwalk, -, hsome⟩ := walk_repeats hS (by omega) hk
    obtain ⟨j, hj0, hj, hmeet⟩ := endless_meets hS (endless_of_repeat hd hwalk hsome)
    exact hfirst j hj0 (by omega) (endless_of_repeat hd hwalk hsome j) hmeet.symm
  | succ n ih =>
    have hlater : ∀ {j : Nat} {y : α}, walk f j x = some y → walk f (j + 1) x = f y := by
      intro j y hy
      rw [walk, hy]
      rfl
    rcases hfast : walk f (2 * k) x with _ | fast
    · exact ⟨false, by rw [loop, raceStep_ended], hends hfast⟩
    rcases hslow : walk f k x with _ | slow
    · rw [walk_none hslow (by omega)] at hfast
      contradiction
    rcases hnext : f fast with _ | ahead
    · refine ⟨false, ?_, hends (hnext ▸ hlater hfast)⟩
      rw [loop, raceStep, hnext]
    have h1 : walk f (k + 1) x = f slow := hlater hslow
    have h2 : walk f (2 * k + 1) x = some ahead := hnext ▸ hlater hfast
    have h3 : walk f (2 * (k + 1)) x = f ahead := hlater h2
    by_cases hmeet : f slow ≠ none ∧ f slow = f ahead
    · refine ⟨true, ?_, fun _ => ?_, fun _ => rfl⟩
      · rw [loop, raceStep, hnext]
        simp only [if_pos hmeet]
      · apply endless_of_repeat (i := k + 1) (d := k + 1) (by omega)
        · rw [← Nat.two_mul, h3, h1]
          exact hmeet.2.symm
        · rw [h1]
          exact hmeet.1
    · have hloop : loop (raceStep f) (n + 1) (some slow, some fast) =
          loop (raceStep f) n (walk f (k + 1) x, walk f (2 * (k + 1)) x) := by
        rw [loop, raceStep, hnext, h1, h3]
        simp only [if_neg hmeet]
      rw [hloop]
      refine ih (by omega) (Or.inr ?_) ?_
      · rw [show 2 * (k + 1) - 1 = 2 * k + 1 by omega, h2]
        simp
      · intro i hi0 hi hsome
        rcases Nat.lt_or_ge k i with hlt | hge
        · obtain rfl : i = k + 1 := by omega
          rw [h1] at hsome ⊢
          rw [h3]
          exact fun h => hmeet ⟨hsome, h⟩
        · exact hfirst i hi0 hge hsome

/-- The race ends, and it tells whether the chain is endless. -/
theorem race_spec [DecidableEq α] {S : Finset α} {x : α}
    (hS : ∀ k y, walk f k x = some y → y ∈ S) {n : Nat} (hn : S.card < n) :
    ∃ r, loop (raceStep f) n (some x, some x) = .ok r ∧ (r = true ↔ Endless f x) :=
  race_from (k := 0) hS (by omega) (Or.inl rfl) (by omega)

end

end Cs720.Lib
