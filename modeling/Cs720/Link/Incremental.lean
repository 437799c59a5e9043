import Cs720.Link.Linked

/-! # Linking in steps

The object that the linker writes for some files stands for them in another link.
-/

namespace Cs720.Link

open Cs720.Lib

/-! ## Objects one after another -/

def Ref.shift (offset : Nat) (r : Ref) : Ref := ⟨r.name, offset + r.pos⟩

section
variable {os os' : List Object} {ds ds' : List Entry} {rs rs' : List Ref} {m n : Nat} {name : Name}

theorem codes_append : codes (os ++ os') = codes os ++ codes os' := List.flatMap_append

theorem defs_append : defs n (os ++ os') = defs n os ++ defs (n + (codes os).length) os' := by
  induction os generalizing n with
  | nil => rfl
  | cons o os ih =>
    rw [List.cons_append, defs, ih, defs, codes_cons, List.length_append, List.append_assoc,
      Nat.add_assoc]

theorem refs_append : refs n (os ++ os') = refs n os ++ refs (n + (codes os).length) os' := by
  induction os generalizing n with
  | nil => rfl
  | cons o os ih =>
    rw [List.cons_append, refs, ih, refs, codes_cons, List.length_append, List.append_assoc,
      Nat.add_assoc]

theorem defs_shift : (defs m os).map (Entry.shift n) = defs (n + m) os := by
  induction os generalizing m with
  | nil => rfl
  | cons o os ih =>
    have hshift (e : Entry) : (e.shift m).shift n = e.shift (n + m) := by
      unfold Entry.shift
      rw [BitVec.add_assoc, ← BitVec.ofNat_add, Nat.add_comm]
    rw [defs, List.map_append, ih, List.map_map, defs, Nat.add_assoc]
    congr 1
    exact List.map_congr_left fun e _ => hshift e

theorem refs_shift : (refs m os).map (Ref.shift n) = refs (n + m) os := by
  induction os generalizing m with
  | nil => rfl
  | cons o os ih =>
    have hshift (e : Entry) : (e.ref m).shift n = e.ref (n + m) := by
      unfold Ref.shift Entry.ref
      rw [Nat.add_assoc]
    rw [refs, List.map_append, ih, List.map_map, refs, Nat.add_assoc]
    congr 1
    exact List.map_congr_left fun e _ => hshift e

theorem definition_shift :
    definition (ds.map (Entry.shift n)) name =
      (definition ds name).map (· + BitVec.ofNat 32 n) := by
  induction ds with
  | nil => rfl
  | cons d ds ih =>
    rw [List.map_cons, definition_cons, definition_cons, ih]
    change (if d.name = name then _ else _) = _
    split <;> rfl

theorem unresolved_perm (hd : Distinct ds) (h : ds.Perm ds') (hr : rs.Perm rs') :
    (unresolved ds rs).Perm (unresolved ds' rs') := by
  unfold unresolved
  simp only [definition_perm hd h]
  exact hr.filter _

theorem unresolved_shift : (unresolved ds rs).map (Ref.shift n) =
    unresolved (ds.map (Entry.shift n)) (rs.map (Ref.shift n)) := by
  unfold unresolved
  rw [List.filter_map]
  congr 1
  apply List.filter_congr
  intro r _
  rw [Function.comp_apply, definition_shift, Option.isNone_map]
  rfl

/-- A reference has the same displacement wherever the objects are placed. -/
theorem patchWord_shift {r : Ref} :
    patchWord (ds.map (Entry.shift n)) (r.shift n) = patchWord ds r := by
  funext w
  unfold patchWord
  rw [show (r.shift n).name = r.name from rfl, definition_shift]
  cases definition ds r.name with
  | none => rfl
  | some a =>
    have hsub : a + BitVec.ofNat 32 n - (BitVec.ofNat 32 (n + r.pos) + 1) =
        a - (BitVec.ofNat 32 r.pos + 1) := by
      rw [BitVec.ofNat_add]
      bv_omega
    exact congrArg (rewrite w) hsub

end

/-! ## The object that the linker writes -/

section
variable {os : List Object}

theorem merged_outsyms (hd : Distinct (os.flatMap Object.insyms)) :
    (merged os).outsyms.Perm ((unresolved (defs 0 os) (refs 0 os)).map Ref.entry) :=
  (unresolved_perm (distinct_extracted hd) defs_extracted refs_extracted).map _

theorem mem_unresolved {ds : List Entry} {rs : List Ref} {r : Ref} :
    r ∈ unresolved ds rs ↔ r ∈ rs ∧ definition ds r.name = none := by
  unfold unresolved
  rw [List.mem_filter, Option.isNone_iff_eq_none]

theorem entry_toNat {r : Ref} (h : r.pos < 2 ^ 32) : r.entry.address.toNat = r.pos := by
  unfold Ref.entry
  rw [BitVec.toNat_ofNat, Nat.mod_eq_of_lt h]

theorem merged_wellFormed (hd : Distinct (os.flatMap Object.insyms))
    (hwf : ∀ o ∈ os, o.WellFormed) (hsize : (codes os).length < 2 ^ 32) :
    (merged os).WellFormed := by
  have hlt {r : Ref} (hr : r ∈ unresolved (defs 0 os) (refs 0 os)) : r.pos < 2 ^ 32 := by
    have hpos := refs_lt hwf (mem_unresolved.mp hr).1
    omega
  refine ⟨?_, ?_⟩
  · intro e he
    obtain ⟨r, hr, rfl⟩ := List.mem_map.mp ((merged_outsyms hd).mem_iff.mp he)
    obtain ⟨hmem, hdef⟩ := mem_unresolved.mp hr
    obtain ⟨-, w, hw, hwidth⟩ := refs_bounds hwf hmem
    refine ⟨w, ?_, hwidth⟩
    rw [entry_toNat (hlt hr), merged_at hd hwf hmem, patchWord_none hdef, Option.map_id]
    exact hw
  · rw [((merged_outsyms hd).map Entry.address).nodup_iff, List.map_map]
    have hpos : ((unresolved (defs 0 os) (refs 0 os)).map Ref.pos).Nodup :=
      (refs_nodup hwf).sublist ((List.filter_sublist).map _)
    refine List.Nodup.map_on ?_ hpos.of_map
    intro r hr r' hr' heq
    have hnat : r.pos = r'.pos := by
      rw [← entry_toNat (hlt hr), ← entry_toNat (hlt hr')]
      exact congrArg BitVec.toNat heq
    exact List.inj_on_of_nodup_map hpos hr hr' hnat

end

section
variable {xs ys zs : List Object}

theorem length_codes_merged : (codes (ys ++ [merged xs])).length = (codes (ys ++ xs)).length := by
  rw [codes_append, codes_append, List.length_append, List.length_append, codes_cons,
    List.length_append, length_merged]
  rfl

theorem defs_merged :
    (defs 0 (ys ++ [merged xs] ++ zs)).Perm (defs 0 (ys ++ xs ++ zs)) := by
  have hmerged : (defs (0 + (codes ys).length) [merged xs]).Perm
      (defs (0 + (codes ys).length) xs) := by
    have hone : defs (0 + (codes ys).length) [merged xs] =
        (merged xs).insyms.map (Entry.shift (0 + (codes ys).length)) := List.append_nil _
    rw [hone]
    refine (merged_insyms.map _).trans ?_
    rw [defs_shift]
    rfl
  rw [defs_append, defs_append, defs_append, defs_append, length_codes_merged]
  exact (hmerged.append_left _).append_right _

variable (ys zs) in
/-- The references that the first link resolves are gone. -/
theorem refs_merged (hd : Distinct (xs.flatMap Object.insyms)) (hwf : ∀ o ∈ xs, o.WellFormed)
    (hsize : (codes xs).length < 2 ^ 32) :
    (refs 0 (ys ++ [merged xs] ++ zs)).Perm
      (refs 0 ys ++ unresolved (defs (codes ys).length xs) (refs (codes ys).length xs) ++
        refs (codes (ys ++ xs)).length zs) := by
  have hmerged : (refs (0 + (codes ys).length) [merged xs]).Perm
      (unresolved (defs (codes ys).length xs) (refs (codes ys).length xs)) := by
    have hone : refs (0 + (codes ys).length) [merged xs] =
        (merged xs).outsyms.map (Entry.ref (0 + (codes ys).length)) := List.append_nil _
    rw [hone]
    refine ((merged_outsyms hd).map _).trans ?_
    rw [List.map_map]
    have hshift : (unresolved (defs 0 xs) (refs 0 xs)).map
        (Entry.ref (0 + (codes ys).length) ∘ Ref.entry) =
          (unresolved (defs 0 xs) (refs 0 xs)).map (Ref.shift (codes ys).length) := by
      apply List.map_congr_left
      intro r hr
      have hpos := refs_lt hwf (mem_unresolved.mp hr).1
      rw [Function.comp_apply, Entry.ref, entry_toNat (by omega), Nat.zero_add]
      rfl
    rw [hshift, unresolved_shift, defs_shift, refs_shift]
    rfl
  rw [refs_append, refs_append, length_codes_merged, Nat.zero_add, Nat.zero_add]
  rw [Nat.zero_add] at hmerged
  exact (hmerged.append_left _).append_right _

/-! ## The code -/

/-- A reference of `xs` at the position of another reference. -/
theorem ref_mid (hwf : ∀ o ∈ ys ++ xs ++ zs, o.WellFormed) {r q : Ref} {rs : List Ref}
    (hrs : rs ⊆ refs (codes ys).length xs) (hr : r ∈ refs (codes ys).length xs)
    (hq : q ∈ refs 0 ys ++ rs ++ refs (codes (ys ++ xs)).length zs) (hpos : q.pos = r.pos) :
    r ∈ rs := by
  rw [List.forall_mem_append, List.forall_mem_append] at hwf
  obtain ⟨⟨hys, hxs⟩, hzs⟩ := hwf
  have hle := (refs_bounds hxs hr).1
  have hlt := refs_lt hxs hr
  rw [codes_append, List.length_append, List.mem_append, List.mem_append] at hq
  rcases hq with (hq | hq) | hq
  · have hqlt := refs_lt hys hq
    omega
  · rwa [← List.inj_on_of_nodup_map (refs_nodup hxs) (hrs hq) hr hpos]
  · have hqle := (refs_bounds hzs hq).1
    omega

theorem codes_at (hd : Distinct (xs.flatMap Object.insyms)) (hwf : ∀ o ∈ xs, o.WellFormed)
    {r : Ref} (hr : r ∈ refs (codes ys).length xs) :
    (codes (ys ++ [merged xs] ++ zs))[r.pos]? =
      (codes (ys ++ xs ++ zs))[r.pos]?.map (patchWord (defs (codes ys).length xs) r) := by
  rw [← Nat.add_zero (codes ys).length, ← refs_shift] at hr
  obtain ⟨p, hp, rfl⟩ := List.mem_map.mp hr
  have hlt := refs_lt hwf hp
  rw [Nat.zero_add] at hlt
  have hget (l : List Word) (hl : l.length = (codes xs).length) :
      (codes ys ++ l ++ codes zs)[(codes ys).length + p.pos]? = l[p.pos]? := by
    rw [List.append_assoc, List.getElem?_append_right (by omega), Nat.add_sub_cancel_left,
      List.getElem?_append_left (by omega)]
  have hone : codes [merged xs] = (merged xs).code := List.append_nil _
  rw [codes_append, codes_append, codes_append, codes_append, hone,
    show (p.shift (codes ys).length).pos = (codes ys).length + p.pos from rfl,
    hget _ length_merged, hget _ rfl, merged_at hd hwf hp, ← patchWord_shift, defs_shift]
  rfl

theorem codes_ne {k : Nat} (h : ∀ r ∈ refs (codes ys).length xs, r.pos ≠ k) :
    (codes (ys ++ [merged xs] ++ zs))[k]? = (codes (ys ++ xs ++ zs))[k]? := by
  have hone : codes [merged xs] = (merged xs).code := List.append_nil _
  have hlen : (merged xs).code.length = (codes xs).length := length_merged
  rw [codes_append, codes_append, codes_append, codes_append, hone, List.append_assoc,
    List.append_assoc]
  rcases Nat.lt_or_ge k (codes ys).length with hlt | hge
  · rw [List.getElem?_append_left hlt, List.getElem?_append_left hlt]
  rw [List.getElem?_append_right hge, List.getElem?_append_right hge]
  rcases Nat.lt_or_ge (k - (codes ys).length) (codes xs).length with hlt | hge'
  · rw [List.getElem?_append_left (by omega), List.getElem?_append_left hlt]
    apply merged_ne
    intro r hr hpos
    refine h (r.shift (codes ys).length) ?_ ?_
    · rw [← Nat.add_zero (codes ys).length, ← refs_shift]
      exact List.mem_map_of_mem hr
    · change (codes ys).length + r.pos = k
      omega
  · rw [List.getElem?_append_right (by omega), List.getElem?_append_right hge', hlen]

theorem distinct_middle (hd : Distinct ((ys ++ xs ++ zs).flatMap Object.insyms)) :
    Distinct (xs.flatMap Object.insyms) := by
  unfold Distinct at hd ⊢
  rw [List.flatMap_append, List.flatMap_append, List.map_append, List.map_append] at hd
  exact (List.nodup_append.mp (List.nodup_append.mp hd).1).2.1

theorem distinct_merged (hd : Distinct ((ys ++ xs ++ zs).flatMap Object.insyms)) :
    Distinct ((ys ++ [merged xs] ++ zs).flatMap Object.insyms) := by
  have hdefs : Distinct (defs 0 (ys ++ xs ++ zs)) := distinct_defs.mpr hd
  exact distinct_defs.mp ((defs_merged.map Entry.name).nodup_iff.mpr hdefs)

theorem wellFormed_merged (hd : Distinct ((ys ++ xs ++ zs).flatMap Object.insyms))
    (hwf : ∀ o ∈ ys ++ xs ++ zs, o.WellFormed) (hsize : (codes xs).length < 2 ^ 32) :
    ∀ o ∈ ys ++ [merged xs] ++ zs, o.WellFormed := by
  rw [List.forall_mem_append, List.forall_mem_append] at hwf ⊢
  obtain ⟨⟨hys, hxs⟩, hzs⟩ := hwf
  refine ⟨⟨hys, ?_⟩, hzs⟩
  rw [List.forall_mem_singleton]
  exact merged_wellFormed (distinct_middle hd) hxs hsize

theorem refs_parts : refs 0 (ys ++ xs ++ zs) = refs 0 ys ++ refs (codes ys).length xs ++
    refs (codes (ys ++ xs)).length zs := by
  rw [refs_append, refs_append, Nat.zero_add, Nat.zero_add]

/-- What the first link resolves, the direct link resolves in the same way. -/
theorem definition_middle (hd : Distinct ((ys ++ xs ++ zs).flatMap Object.insyms)) {name : Name}
    {a : Word} (h : definition (defs (codes ys).length xs) name = some a) :
    definition (defs 0 (ys ++ xs ++ zs)) name = some a := by
  rw [definition_iff (distinct_defs.mpr (distinct_middle hd))] at h
  rw [definition_iff (distinct_defs.mpr hd), defs_append, defs_append, Nat.zero_add]
  exact List.mem_append_left _ (List.mem_append_right _ h)

/-- The instructions of the references that the first link keeps. -/
theorem codes_kept (hd : Distinct ((ys ++ xs ++ zs).flatMap Object.insyms))
    (hwf : ∀ o ∈ ys ++ xs ++ zs, o.WellFormed) (hsize : (codes xs).length < 2 ^ 32) {r : Ref}
    (hr : r ∈ refs 0 (ys ++ [merged xs] ++ zs)) :
    (codes (ys ++ [merged xs] ++ zs))[r.pos]? = (codes (ys ++ xs ++ zs))[r.pos]? := by
  have hxs : ∀ o ∈ xs, o.WellFormed := fun o ho => hwf o (by simp [ho])
  by_cases hex : ∃ q ∈ refs (codes ys).length xs, q.pos = r.pos
  · obtain ⟨q, hq, hpos⟩ := hex
    rw [(refs_merged ys zs (distinct_middle hd) hxs hsize).mem_iff] at hr
    have hmem := ref_mid hwf (List.filter_subset_self _) hq hr hpos.symm
    rw [← hpos, codes_at (distinct_middle hd) hxs hq, patchWord_none (mem_unresolved.mp hmem).2,
      Option.map_id]
    rfl
  · exact codes_ne fun q hq hpos => hex ⟨q, hq, hpos⟩

/-- The instructions of the references that the first link resolves. -/
theorem codes_resolved (hd : Distinct ((ys ++ xs ++ zs).flatMap Object.insyms))
    (hwf : ∀ o ∈ ys ++ xs ++ zs, o.WellFormed) {r : Ref} (hr : r ∈ refs (codes ys).length xs)
    (hun : r ∉ unresolved (defs (codes ys).length xs) (refs (codes ys).length xs)) :
    (codes (ys ++ [merged xs] ++ zs))[r.pos]? =
      (codes (ys ++ xs ++ zs))[r.pos]?.map (patchWord (defs 0 (ys ++ xs ++ zs)) r) := by
  have hxs : ∀ o ∈ xs, o.WellFormed := fun o ho => hwf o (by simp [ho])
  rw [codes_at (distinct_middle hd) hxs hr]
  congr 1
  funext w
  cases hdef : definition (defs (codes ys).length xs) r.name with
  | none => exact absurd (mem_unresolved.mpr ⟨hr, hdef⟩) hun
  | some a =>
    unfold patchWord
    rw [hdef, definition_middle hd hdef]

/-- Both links rewrite each instruction in the same way. -/
theorem merged_code (hd : Distinct ((ys ++ xs ++ zs).flatMap Object.insyms))
    (hwf : ∀ o ∈ ys ++ xs ++ zs, o.WellFormed) (hsize : (codes xs).length < 2 ^ 32) :
    (merged (ys ++ [merged xs] ++ zs)).code = (merged (ys ++ xs ++ zs)).code := by
  have hxs : ∀ o ∈ xs, o.WellFormed := fun o ho => hwf o (by simp [ho])
  have hperm := refs_merged ys zs (distinct_middle hd) hxs hsize
  have hsub : unresolved (defs (codes ys).length xs) (refs (codes ys).length xs) ⊆
      refs (codes ys).length xs := List.filter_subset_self _
  apply List.ext_getElem?
  intro k
  by_cases hk : ∃ r ∈ refs 0 (ys ++ xs ++ zs), r.pos = k
  · obtain ⟨r, hr, rfl⟩ := hk
    rw [merged_at hd hwf hr]
    by_cases hkept : r ∈ refs 0 (ys ++ [merged xs] ++ zs)
    · rw [merged_at (distinct_merged hd) (wellFormed_merged hd hwf hsize) hkept,
        patchWord_perm (distinct_defs.mpr (distinct_merged hd)) defs_merged,
        codes_kept hd hwf hsize hkept]
    · rw [hperm.mem_iff, List.mem_append, List.mem_append] at hkept
      rw [refs_parts, List.mem_append, List.mem_append] at hr
      have hmid : r ∈ refs (codes ys).length xs := by tauto
      have hun : r ∉ unresolved (defs (codes ys).length xs) (refs (codes ys).length xs) :=
        fun h => hkept (.inl (.inr h))
      rw [merged_ne, codes_resolved hd hwf hmid hun]
      intro q hq hpos
      exact hun (ref_mid hwf hsub hmid (hperm.mem_iff.mp hq) hpos)
  · have hk' : ∀ r ∈ refs 0 (ys ++ xs ++ zs), r.pos ≠ k := fun r hr hpos => hk ⟨r, hr, hpos⟩
    rw [merged_ne hk', merged_ne, codes_ne]
    · intro r hr
      apply hk'
      rw [refs_parts]
      exact List.mem_append_left _ (List.mem_append_right _ hr)
    · intro r hr
      apply hk'
      rw [refs_parts]
      rw [hperm.mem_iff] at hr
      simp only [List.mem_append] at hr ⊢
      exact hr.imp_left (Or.imp_right (@hsub r))

/-- The references that stay are the same. -/
theorem unresolved_merged (hd : Distinct ((ys ++ xs ++ zs).flatMap Object.insyms))
    (hwf : ∀ o ∈ ys ++ xs ++ zs, o.WellFormed) (hsize : (codes xs).length < 2 ^ 32) :
    (unresolved (defs 0 (ys ++ [merged xs] ++ zs)) (refs 0 (ys ++ [merged xs] ++ zs))).Perm
      (unresolved (defs 0 (ys ++ xs ++ zs)) (refs 0 (ys ++ xs ++ zs))) := by
  have hxs : ∀ o ∈ xs, o.WellFormed := fun o ho => hwf o (by simp [ho])
  refine (unresolved_perm (distinct_defs.mpr (distinct_merged hd)) defs_merged
    (refs_merged ys zs (distinct_middle hd) hxs hsize)).trans ?_
  have htwice : unresolved (defs 0 (ys ++ xs ++ zs))
      (unresolved (defs (codes ys).length xs) (refs (codes ys).length xs)) =
        unresolved (defs 0 (ys ++ xs ++ zs)) (refs (codes ys).length xs) := by
    unfold unresolved
    rw [List.filter_filter]
    apply List.filter_congr
    intro r _
    cases hdef : definition (defs (codes ys).length xs) r.name with
    | none => simp
    | some a =>
      rw [definition_middle hd hdef]
      rfl
  have happ (rs rs' : List Ref) : unresolved (defs 0 (ys ++ xs ++ zs)) (rs ++ rs') =
      unresolved (defs 0 (ys ++ xs ++ zs)) rs ++ unresolved (defs 0 (ys ++ xs ++ zs)) rs' :=
    List.filter_append ..
  rw [refs_parts, happ, happ, happ, happ, htwice]

end

/-! ## Sizes -/

def Object.size (o : Object) : Nat := 5 * (o.insyms.length + o.outsyms.length) + o.code.length

section
variable {files : List (List Word)} {os : List Object}

theorem size_parts (offset : Nat) (os : List Object) :
    5 * ((defs offset os).length + (refs offset os).length) + (codes os).length =
      (os.map Object.size).sum := by
  induction os generalizing offset with
  | nil => rfl
  | cons o os ih =>
    have htail := ih (offset + o.code.length)
    rw [defs, refs, codes_cons, List.map_cons, List.sum_cons, List.length_append,
      List.length_append, List.length_append, List.length_map, List.length_map]
    unfold Object.size at htail ⊢
    omega

theorem size_files (h : List.Forall₂ Holds files os) :
    (os.map Object.size).sum ≤ (files.map List.length).sum := by
  induction h with
  | nil => exact le_rfl
  | @cons data o files os ho _ ih =>
    obtain ⟨ins, outs, tail, hdata, hins, houts⟩ := ho.layout
    have hlen : o.size ≤ data.length := by
      rw [hdata]
      simp only [List.length_append, hins.length, houts.length]
      unfold Object.size
      omega
    rw [List.map_cons, List.map_cons, List.sum_cons, List.sum_cons]
    omega

theorem size_merged (hd : Distinct (os.flatMap Object.insyms)) :
    (merged os).size ≤ (os.map Object.size).sum := by
  have hins : (merged os).insyms.length = (defs 0 os).length := merged_insyms.length_eq
  have houts := (merged_outsyms hd).length_eq
  have hun := length_unresolved (defs 0 os) (refs 0 os)
  have hparts := size_parts 0 os
  rw [List.length_map] at houts
  unfold Object.size at *
  rw [length_merged]
  omega

end

/-! ## Linking in steps -/

/-- The same code, and the same symbols up to order. -/
structure UpToOrder (out out' : Output) : Prop where
  code : out.code = out'.code
  insyms : ∃ l l', Lists out.insyms l ∧ Lists out'.insyms l' ∧ l.Perm l'
  outsyms : ∃ l l', Lists out.outsyms l ∧ Lists out'.outsyms l' ∧ l.Perm l'
  is_object : out.is_object = out'.is_object

theorem linked_merged {xs ys zs : List Object}
    (hd : Distinct ((ys ++ xs ++ zs).flatMap Object.insyms))
    (hwf : ∀ o ∈ ys ++ xs ++ zs, o.WellFormed) (hsize : (codes xs).length < 2 ^ 32) :
    UpToOrder (linked (ys ++ [merged xs] ++ zs)) (linked (ys ++ xs ++ zs)) := by
  have hins : (merged (ys ++ [merged xs] ++ zs)).insyms.Perm (merged (ys ++ xs ++ zs)).insyms :=
    (merged_insyms.trans defs_merged).trans merged_insyms.symm
  have houts : (merged (ys ++ [merged xs] ++ zs)).outsyms.Perm (merged (ys ++ xs ++ zs)).outsyms :=
    ((merged_outsyms (distinct_merged hd)).trans
      ((unresolved_merged hd hwf hsize).map _)).trans (merged_outsyms hd).symm
  refine ⟨merged_code hd hwf hsize, ?_, ?_, ?_⟩
  · exact ⟨_, _, lists_sectionWords _, lists_sectionWords _, hins⟩
  · exact ⟨_, _, lists_sectionWords _, lists_sectionWords _, houts⟩
  · unfold linked Object.output
    dsimp only
    rw [any_hasMain 0, any_hasMain 0, defs_merged.any_eq, houts.isEmpty_eq]

/-- The object that a link writes stands for its files in another link. -/
theorem incremental {fxs fys fzs : List (List Word)} {xs ys zs : List Object}
    (hx : List.Forall₂ Holds fxs xs) (hy : List.Forall₂ Holds fys ys)
    (hz : List.Forall₂ Holds fzs zs) (hwf : ∀ o ∈ ys ++ xs ++ zs, o.WellFormed)
    (hd : Distinct ((ys ++ xs ++ zs).flatMap Object.insyms)) (hcode : codes xs ≠ [])
    (hsize : ((fys ++ fxs ++ fzs).map List.length).sum < 2 ^ 31) :
    ∃ x stepwise direct, (∀ junk, link junk fxs = .ok x) ∧
      (∀ junk, link junk (fys ++ [x.words] ++ fzs) = .ok stepwise) ∧
      (∀ junk, link junk (fys ++ fxs ++ fzs) = .ok direct) ∧ UpToOrder stepwise direct := by
  have hxs : ∀ o ∈ xs, o.WellFormed := fun o ho => hwf o (by simp [ho])
  rw [List.map_append, List.map_append, List.sum_append, List.sum_append] at hsize
  have hfiles := size_files hx
  have hmerged : (merged xs).size < 2 ^ 31 := by
    have hle := size_merged (distinct_middle hd)
    omega
  unfold Object.size at hmerged
  rw [length_merged] at hmerged
  have hlen : (merged xs).code.length < 2 ^ 32 := by
    rw [length_merged]
    omega
  have hholds : Holds (linked xs).words (merged xs) := by
    unfold linked
    rw [output_words]
    exact holds_words (by omega) hlen
  have hmiddle (os : List Object) (h : codes os ≠ []) : codes (ys ++ os ++ zs) ≠ [] := by
    rw [codes_append, codes_append]
    simp [h]
  refine ⟨linked xs, linked (ys ++ [merged xs] ++ zs), linked (ys ++ xs ++ zs), ?_, ?_, ?_, ?_⟩
  · exact fun _ => link_holds hx hxs (distinct_middle hd) hcode
  · intro junk
    refine link_holds (List.rel_append (List.rel_append hy (.cons hholds .nil)) hz)
      (wellFormed_merged hd hwf (by omega)) (distinct_merged hd) (hmiddle _ ?_)
    rw [← List.length_pos_iff] at hcode ⊢
    rw [codes_cons, List.length_append, length_merged]
    omega
  · exact fun _ => link_holds (List.rel_append (List.rel_append hy hx) hz) hwf hd (hmiddle xs hcode)
  · exact linked_merged hd hwf (by omega)

/-- The branch is linked first, and `f` is found in the second link. -/
theorem incremental_branchF : ∃ x stepwise direct,
    (∀ junk, link junk [branchF.words] = .ok x) ∧
    (∀ junk, link junk ([] ++ [x.words] ++ [(farF 0).words]) = .ok stepwise) ∧
    (∀ junk, link junk ([] ++ [branchF.words] ++ [(farF 0).words]) = .ok direct) ∧
    UpToOrder stepwise direct := by
  obtain _ | ⟨hbranch, hfar⟩ := holds_branchF (n := 0) (by decide)
  exact incremental (.cons hbranch .nil) .nil hfar (wellFormed_branchF 0) (distinct_branchF 0)
    (by decide) (by decide)

end Cs720.Link
