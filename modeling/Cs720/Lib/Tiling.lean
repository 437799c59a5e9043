import Mathlib.Order.Lattice
import Mathlib.Tactic.Common

/-! # Tilings of a range

`Tiles lo bs hi`: the pieces `bs`, each from its `start` up to its `stop`, follow one another from
`lo` to `hi` with no gap.
-/

namespace Cs720.Lib

section
variable {α β : Type*} (start stop : β → α)

def Tiles : α → List β → α → Prop
  | lo, [], hi => lo = hi
  | lo, b :: bs, hi => start b = lo ∧ Tiles (stop b) bs hi

variable {start stop} {lo hi : α} {bs : List β}

theorem tiles_append {xs ys : List β} :
    Tiles start stop lo (xs ++ ys) hi ↔
      ∃ mid, Tiles start stop lo xs mid ∧ Tiles start stop mid ys hi := by
  induction xs generalizing lo with
  | nil => simp [Tiles]
  | cons x xs ih =>
    simp only [List.cons_append, Tiles, ih]
    constructor
    · rintro ⟨h1, mid, h2, h3⟩; exact ⟨mid, ⟨h1, h2⟩, h3⟩
    · rintro ⟨mid, ⟨h1, h2⟩, h3⟩; exact ⟨h1, mid, h2, h3⟩

/-- A tiling sees only where the pieces start and stop. -/
theorem tiles_map {f : β → β} (hf : ∀ b ∈ bs, start (f b) = start b ∧ stop (f b) = stop b) :
    Tiles start stop lo (bs.map f) hi ↔ Tiles start stop lo bs hi := by
  induction bs generalizing lo with
  | nil => exact Iff.rfl
  | cons b bs ih =>
    obtain ⟨h1, h2⟩ := hf b (by simp)
    simp only [List.map_cons, Tiles, h1, h2]
    rw [ih fun c hc => hf c (List.mem_cons_of_mem _ hc)]

variable [LinearOrder α]

/-- There is no gap. -/
theorem tiles_cover (h : Tiles start stop lo bs hi) {p : α} (hlo : lo ≤ p) (hhi : p < hi) :
    ∃ b ∈ bs, start b ≤ p ∧ p < stop b := by
  induction bs generalizing lo with
  | nil =>
    obtain rfl : lo = hi := h
    exact absurd hhi (not_lt.mpr hlo)
  | cons b bs ih =>
    obtain ⟨rfl, h⟩ := h
    rcases lt_or_ge p (stop b) with hp | hp
    · exact ⟨b, by simp, hlo, hp⟩
    · obtain ⟨c, hc, h1, h2⟩ := ih h hp
      exact ⟨c, List.mem_cons_of_mem _ hc, h1, h2⟩

variable (hlt : ∀ b, start b < stop b)
include hlt

theorem tiles_le (h : Tiles start stop lo bs hi) : lo ≤ hi := by
  induction bs generalizing lo with
  | nil => exact le_of_eq h
  | cons b bs ih =>
    obtain ⟨rfl, h⟩ := h
    exact le_trans (le_of_lt (hlt b)) (ih h)

theorem tiles_bounds (h : Tiles start stop lo bs hi) {b : β} (hb : b ∈ bs) :
    lo ≤ start b ∧ stop b ≤ hi := by
  induction bs generalizing lo with
  | nil => simp at hb
  | cons c bs ih =>
    obtain ⟨rfl, h⟩ := h
    rcases List.mem_cons.mp hb with rfl | hb
    · exact ⟨le_rfl, tiles_le hlt h⟩
    · obtain ⟨h1, h2⟩ := ih h hb
      exact ⟨le_trans (le_of_lt (hlt c)) h1, h2⟩

theorem tiles_pairwise (h : Tiles start stop lo bs hi) :
    bs.Pairwise fun a b => stop a ≤ start b := by
  induction bs generalizing lo with
  | nil => exact List.Pairwise.nil
  | cons b bs ih =>
    obtain ⟨-, h⟩ := h
    exact List.Pairwise.cons (fun c hc => (tiles_bounds hlt h hc).1) (ih h)

/-- Two different pieces have no point in common. -/
theorem tiles_disjoint (h : Tiles start stop lo bs hi) {a b : β} (ha : a ∈ bs) (hb : b ∈ bs) :
    a = b ∨ stop a ≤ start b ∨ stop b ≤ start a := by
  induction bs generalizing lo with
  | nil => simp at ha
  | cons c bs ih =>
    obtain ⟨-, h⟩ := h
    rcases List.mem_cons.mp ha with rfl | ha'
    · rcases List.mem_cons.mp hb with rfl | hb'
      · exact Or.inl rfl
      · exact Or.inr (Or.inl (tiles_bounds hlt h hb').1)
    · rcases List.mem_cons.mp hb with rfl | hb'
      · exact Or.inr (Or.inr (tiles_bounds hlt h ha').1)
      · exact ih h ha' hb'

/-- Each piece is the only one that holds a point of it. -/
theorem tiles_unique (h : Tiles start stop lo bs hi) {a b : β} (ha : a ∈ bs) (hb : b ∈ bs)
    {p : α} (hpa : start a ≤ p ∧ p < stop a) (hpb : start b ≤ p ∧ p < stop b) : a = b := by
  rcases tiles_disjoint hlt h ha hb with h | h | h
  · exact h
  · exact absurd (lt_of_lt_of_le hpa.2 (le_trans h hpb.1)) (lt_irrefl p)
  · exact absurd (lt_of_lt_of_le hpb.2 (le_trans h hpa.1)) (lt_irrefl p)

end

end Cs720.Lib
