import Mathlib.Data.List.Nodup
import Mathlib.Logic.Function.Basic

/-! # Singly linked nodes on a heap

`h a` is the node at the address `a`, if one is allocated there. `Linked h p ns q` says that the
nodes from `p` on, up to `q`, have the addresses and the values `ns`.
-/

namespace Cs720.Lib

section
variable {P N β : Type*} (null : P) (value : N → β) (next : N → P)

def Linked (h : P → Option N) : P → List (P × β) → P → Prop
  | p, [], q => p = q
  | p, (a, b) :: ns, q =>
    p = a ∧ a ≠ null ∧ ∃ n, h a = some n ∧ value n = b ∧ Linked h (next n) ns q

variable {null value next} {h h' : P → Option N} {p q r a : P} {b : β} {xs ys ns ms : List (P × β)}

theorem linked_append : Linked null value next h p (xs ++ ys) q ↔
    ∃ r, Linked null value next h p xs r ∧ Linked null value next h r ys q := by
  induction xs generalizing p with
  | nil => simp [Linked]
  | cons x xs ih =>
    simp only [List.cons_append, Linked, ih]
    constructor
    · rintro ⟨hp, hnull, n, hn, hb, r, hxs, hys⟩
      exact ⟨r, ⟨hp, hnull, n, hn, hb, hxs⟩, hys⟩
    · rintro ⟨r, ⟨hp, hnull, n, hn, hb, hxs⟩, hys⟩
      exact ⟨hp, hnull, n, hn, hb, r, hxs, hys⟩

/-- A heap with the same nodes at these addresses. -/
theorem linked_congr (hsame : ∀ a ∈ ns.map Prod.fst, h' a = h a)
    (hl : Linked null value next h p ns q) : Linked null value next h' p ns q := by
  induction ns generalizing p with
  | nil => exact hl
  | cons x ns ih =>
    obtain ⟨hp, hnull, n, hn, hb, hl⟩ := hl
    rw [List.map_cons, List.forall_mem_cons] at hsame
    exact ⟨hp, hnull, n, hsame.1.trans hn, hb, ih hsame.2 hl⟩

theorem linked_mem (hl : Linked null value next h p ns q) (hmem : (a, b) ∈ ns) :
    a ≠ null ∧ ∃ n, h a = some n ∧ value n = b := by
  induction ns generalizing p with
  | nil => cases hmem
  | cons x ns ih =>
    obtain ⟨-, hnull, n, hn, hb, hl⟩ := hl
    rcases List.mem_cons.mp hmem with rfl | hmem
    · exact ⟨hnull, n, hn, hb⟩
    · exact ih hl hmem

theorem linked_mem_fst (hl : Linked null value next h p ns q) (hmem : a ∈ ns.map Prod.fst) :
    a ≠ null ∧ h a ≠ none := by
  obtain ⟨⟨a', b⟩, hx, rfl⟩ := List.mem_map.mp hmem
  obtain ⟨hnull, n, hn, -⟩ := linked_mem hl hx
  exact ⟨hnull, by rw [hn]; exact Option.some_ne_none n⟩

theorem linked_head_mem (hl : Linked null value next h p ns q) (hns : ns ≠ []) :
    p ∈ ns.map Prod.fst := by
  cases ns with
  | nil => exact absurd rfl hns
  | cons x ns =>
    rw [hl.1]
    exact List.mem_cons_self

theorem linked_from_null (hl : Linked null value next h null ns q) : ns = [] := by
  cases ns with
  | nil => rfl
  | cons x ns => exact absurd hl.1.symm hl.2.1

/-- A NULL-terminated list is determined by its first node. -/
theorem linked_unique (hns : Linked null value next h p ns null)
    (hms : Linked null value next h p ms null) : ns = ms := by
  induction ns generalizing p ms with
  | nil =>
    obtain rfl : p = null := hns
    exact (linked_from_null hms).symm
  | cons x ns ih =>
    obtain ⟨rfl, hnull, n, hn, hb, hns⟩ := hns
    cases ms with
    | nil => exact absurd hms hnull
    | cons y ms =>
      obtain ⟨hp, -, n', hn', hb', hms⟩ := hms
      obtain ⟨a', b'⟩ := y
      obtain rfl : x.1 = a' := hp
      obtain rfl : n = n' := Option.some.inj (hn.symm.trans hn')
      rw [ih hns hms]
      exact congrArg (· :: ms) (Prod.ext rfl (hb.symm.trans hb'))

/-- No node of a NULL-terminated list comes twice. -/
theorem linked_nodup (hl : Linked null value next h p ns null) : (ns.map Prod.fst).Nodup := by
  induction ns generalizing p with
  | nil => exact List.nodup_nil
  | cons x ns ih =>
    have hwhole := hl
    obtain ⟨rfl, hnull, n, hn, hb, hl⟩ := hl
    rw [List.map_cons, List.nodup_cons]
    refine ⟨fun hmem => ?_, ih hl⟩
    obtain ⟨y, hy, hxy⟩ := List.mem_map.mp hmem
    obtain ⟨xs, ys, rfl⟩ := List.append_of_mem hy
    obtain ⟨r, -, hrest⟩ := linked_append.mp hl
    obtain rfl : r = x.1 := hrest.1.trans hxy
    have hlen := congrArg List.length (linked_unique hwhole hrest)
    simp at hlen
    omega

/-! ## The last node -/

/-- The address of the last node, or `p`. -/
def lastAddr (p : P) (ns : List (P × β)) : P := (ns.getLast?.map Prod.fst).getD p

theorem lastAddr_cons : lastAddr p ((a, b) :: ns) = lastAddr a ns := by
  unfold lastAddr
  rw [List.getLast?_cons]
  cases ns.getLast? <;> rfl

theorem lastAddr_concat : lastAddr p (xs ++ [(a, b)]) = a := by simp [lastAddr]

theorem lastAddr_append (hys : ys ≠ []) : lastAddr p (xs ++ ys) = lastAddr p ys := by
  obtain rfl | ⟨ms, ⟨a, b⟩, rfl⟩ := List.eq_nil_or_concat ys
  · exact absurd rfl hys
  · rw [List.concat_eq_append, ← List.append_assoc, lastAddr_concat, lastAddr_concat]

theorem lastAddr_mem (hns : ns ≠ []) : lastAddr p ns ∈ ns.map Prod.fst := by
  obtain rfl | ⟨ms, ⟨a, b⟩, rfl⟩ := List.eq_nil_or_concat ns
  · exact absurd rfl hns
  · rw [List.concat_eq_append, lastAddr_concat]
    simp

/-! ## Changes -/

section
variable [DecidableEq P] {n n' : N}

/-- A change at an address that the list does not have. -/
theorem linked_update (ha : a ∉ ns.map Prod.fst) {o : Option N}
    (hl : Linked null value next h p ns q) :
    Linked null value next (Function.update h a o) p ns q := by
  refine linked_congr (fun c hc => ?_) hl
  have hca : c ≠ a := by
    rintro rfl
    exact ha hc
  exact Function.update_of_ne hca _ _

/-- The last node gets another successor. -/
theorem linked_relink (hl : Linked null value next h p (xs ++ [(a, b)]) q)
    (ha : a ∉ xs.map Prod.fst) (hb : value n' = b) :
    Linked null value next (Function.update h a (some n')) p (xs ++ [(a, b)]) (next n') := by
  obtain ⟨r, hxs, rfl, hnull, -⟩ := linked_append.mp hl
  refine linked_append.mpr ⟨r, linked_update ha hxs, rfl, hnull, n', ?_, hb, rfl⟩
  exact Function.update_self _ _ _

/-- The node behind another one is taken out and freed. -/
theorem linked_take_out {c : P} {d : β} {m : N}
    (hl : Linked null value next h p (xs ++ [(c, d)] ++ (a, b) :: ys) null) (hn : h a = some n)
    (hd : value m = d) (hm : next m = next n) :
    Linked null value next (Function.update (Function.update h c (some m)) a none) p
      (xs ++ [(c, d)] ++ ys) null := by
  have hnd := linked_nodup hl
  simp only [List.map_append, List.map_cons, List.map_nil, List.nodup_append, List.nodup_cons] at hnd
  obtain ⟨⟨-, -, hcx⟩, ⟨hay, -⟩, hdisj⟩ := hnd
  obtain ⟨r, hxs, rfl, ha, n', hn', -, hys⟩ := linked_append.mp hl
  obtain rfl : n = n' := Option.some.inj (hn.symm.trans hn')
  have hax : r ∉ (xs ++ [(c, d)]).map Prod.fst := by
    intro hmem
    rw [List.map_append] at hmem
    exact hdisj r hmem r List.mem_cons_self rfl
  have hcxs : c ∉ xs.map Prod.fst := fun hmem => hcx c hmem c List.mem_cons_self rfl
  have hcys : c ∉ ys.map Prod.fst := fun hmem => hdisj c (by simp) c (List.mem_cons_of_mem _ hmem) rfl
  refine linked_append.mpr ⟨next m, linked_update hax (linked_relink hxs hcxs hd), ?_⟩
  rw [hm]
  exact linked_update hay (linked_update hcys hys)

/-! ## A list that is freed -/

/-- The nodes at these addresses are freed. -/
def freed (h : P → Option N) (as : List P) (a : P) : Option N := if a ∈ as then none else h a

theorem freed_cons {as : List P} : freed (Function.update h a none) as = freed h (a :: as) := by
  funext c
  unfold freed
  by_cases hc : c ∈ as
  · rw [if_pos hc, if_pos (List.mem_cons_of_mem a hc)]
  · by_cases hca : c = a
    · rw [hca, if_pos List.mem_cons_self, if_neg (hca ▸ hc), Function.update_self]
    · rw [if_neg hc, if_neg (List.not_mem_cons_of_ne_of_not_mem hca hc), Function.update_of_ne hca]

/-- What has been allocated since `h` is freed. -/
theorem freed_eq {as : List P} (hmine : ∀ a ∈ as, h a = none) (hrest : ∀ a, a ∉ as → h' a = h a) :
    freed h' as = h := by
  funext a
  unfold freed
  split
  · rename_i ha
    exact (hmine a ha).symm
  · rename_i ha
    exact hrest a ha

/-- What has not been allocated since `h` is as it was then, also after a change of nodes in `cs`
that frees those that are not in `bs` any more. -/
theorem rest_of_change {h'' : P → Option N} {as bs cs : List P}
    (hrest : ∀ a, a ∉ as → h' a = h a) (has : as ⊆ cs) (hmine : ∀ a ∈ cs, h a = none)
    (hsame : ∀ a, a ∉ cs → h'' a = h' a) (hgone : ∀ a ∈ cs, a ∉ bs → h'' a = none) (a : P)
    (ha : a ∉ bs) : h'' a = h a := by
  by_cases hac : a ∈ cs
  · rw [hgone a hac ha, hmine a hac]
  · rw [hsame a hac]
    exact hrest a fun hmem => hac (has hmem)

end

end

end Cs720.Lib
