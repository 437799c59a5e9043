import Mathlib.Tactic.Common

/-! # Linked segments

A memory of nodes: `node p b` says that the node at `p` holds `b`, and `next p` is its link.
`Seg p bs q` says that the nodes from `p` on, up to `q`, hold the list `bs`. A NULL-terminated list
is a segment that ends at `null`.
-/

namespace Cs720.Lib

section
variable {α β : Type*} (null : α) (node : α → β → Prop) (next : α → α)

def Seg : α → List β → α → Prop
  | p, [], q => p = q
  | p, b :: bs, q => p ≠ null ∧ node p b ∧ Seg (next p) bs q

variable {null node next}

theorem seg_append {p q : α} {xs ys : List β} :
    Seg null node next p (xs ++ ys) q ↔
      ∃ r, Seg null node next p xs r ∧ Seg null node next r ys q := by
  induction xs generalizing p with
  | nil => simp [Seg]
  | cons x xs ih =>
    simp only [List.cons_append, Seg, ih]
    constructor
    · rintro ⟨h1, h2, r, h3, h4⟩; exact ⟨r, ⟨h1, h2, h3⟩, h4⟩
    · rintro ⟨r, ⟨h1, h2, h3⟩, h4⟩; exact ⟨h1, h2, r, h3, h4⟩

/-- What is on the list is in a node. -/
theorem seg_mem {p q : α} {b : β} {bs : List β} (h : Seg null node next p bs q) (hb : b ∈ bs) :
    ∃ r, r ≠ null ∧ node r b := by
  obtain ⟨xs, ys, rfl⟩ := List.append_of_mem hb
  obtain ⟨r, -, h0, hnode, -⟩ := seg_append.mp h
  exact ⟨r, h0, hnode⟩

/-- A memory with the same links, whose nodes hold the images of what they held. -/
theorem seg_map {node' : α → β → Prop} {next' : α → α} (f : β → β) {p q : α} {bs : List β}
    (hkeep : ∀ r b, b ∈ bs → node r b → node' r (f b) ∧ next' r = next r)
    (h : Seg null node next p bs q) : Seg null node' next' p (bs.map f) q := by
  induction bs generalizing p with
  | nil => exact h
  | cons b bs ih =>
    obtain ⟨h1, h2, h3⟩ := h
    obtain ⟨h4, h5⟩ := hkeep p b (by simp) h2
    refine ⟨h1, h4, ?_⟩
    rw [h5]
    exact ih (fun r c hc => hkeep r c (List.mem_cons_of_mem _ hc)) h3

theorem seg_congr {node' : α → β → Prop} {next' : α → α} {p q : α} {bs : List β}
    (hkeep : ∀ r b, b ∈ bs → node r b → node' r b ∧ next' r = next r)
    (h : Seg null node next p bs q) : Seg null node' next' p bs q := by
  have := seg_map id hkeep h
  rwa [List.map_id] at this

/-- The list of a NULL-terminated segment is determined by its first node. -/
theorem seg_unique (hfun : ∀ r b c, node r b → node r c → b = c) {p : α} {xs ys : List β}
    (hx : Seg null node next p xs null) (hy : Seg null node next p ys null) : xs = ys := by
  induction xs generalizing p ys with
  | nil =>
    obtain rfl : p = null := hx
    cases ys with
    | nil => rfl
    | cons y ys => exact absurd rfl hy.1
  | cons x xs ih =>
    cases ys with
    | nil => exact absurd hy hx.1
    | cons y ys =>
      obtain ⟨_, h2, h3⟩ := hx
      obtain ⟨_, h5, h6⟩ := hy
      rw [hfun p x y h2 h5, ih h3 h6]

end

end Cs720.Lib
