import Mathlib.Data.List.Nodup
import Cs720.Link.Extract

/-! # What `generate_output_file` computes

Without duplicates it writes the joined object.
-/

namespace Cs720.Link

open Cs720.Lib

/-- The names of the definitions are distinct. -/
def Distinct (ds : List Entry) : Prop := (ds.map Entry.name).Nodup

instance decidableDistinct (ds : List Entry) : Decidable (Distinct ds) :=
  inferInstanceAs (Decidable (List.Nodup _))

/-! ## The lengths -/

section
variable {fh : List FHeader} {os : List Object}

theorem total_headers (h : List.Forall₂ Header fh os) :
    total 0 fh = .ok (5 * (os.map fun o => o.insyms.length).sum) ∧
    total 1 fh = .ok (5 * (os.map fun o => o.outsyms.length).sum) ∧
    total 2 fh = .ok (codes os).length := by
  induction h with
  | nil => exact ⟨rfl, rfl, rfl⟩
  | @cons f o fh os hf _ ih =>
    obtain ⟨h₀, h₁, h₂⟩ := ih
    have hsym := hf.symbols
    have hsize := hf.size
    refine ⟨?_, ?_, ?_⟩
    · rw [total, hf.word₀, ok_bind, h₀, ok_bind, BitVec.toNat_ofNat, Nat.mod_eq_of_lt (by omega)]
      simp [Nat.mul_add]
      rfl
    · rw [total, hf.word₁, ok_bind, h₁, ok_bind, BitVec.toNat_ofNat, Nat.mod_eq_of_lt (by omega)]
      simp [Nat.mul_add]
      rfl
    · rw [total, hf.word₂, ok_bind, h₂, ok_bind, BitVec.toNat_ofNat, Nat.mod_eq_of_lt hsize]
      simp [codes]
      rfl

end

/-! ## The insymbols and the code -/

section
variable {l ds : List Entry} {n offset : Nat} {code : List Word} {fh : List FHeader}
  {os : List Object} {name : Name}

theorem name_at {k : Nat} {d : Entry} (hk : ds[k]? = some d) :
    Name.ofWords (fun j => (sectionWords ds).getD (5 * k + j) 0) = d.name :=
  ((lists_sectionWords ds).entry k d hk).1

/-- The check for a duplicate. -/
theorem any_offsets : ((offsets (sectionWords ds).length).any fun i =>
    Name.ofWords (fun k => (sectionWords ds).getD (i + k) 0) = name) = true ↔
      ∃ d ∈ ds, d.name = name := by
  rw [length_sectionWords, offsets_five, ← List.range_eq_range', List.any_map, List.any_eq_true]
  simp only [List.mem_range, Function.comp_apply, decide_eq_true_eq]
  constructor
  · rintro ⟨k, hk, hname⟩
    have hget := List.getElem?_eq_getElem hk
    exact ⟨ds[k], List.getElem_mem hk, (name_at hget).symm.trans hname⟩
  · rintro ⟨d, hd, hname⟩
    obtain ⟨k, hk, rfl⟩ := List.getElem_of_mem hd
    exact ⟨k, hk, (name_at (List.getElem?_eq_getElem hk)).trans hname⟩

theorem sectionWords_concat {e : Entry} :
    sectionWords ds ++ symbolWords e.name (e.address + BitVec.ofNat 32 offset) =
      sectionWords (ds ++ [e.shift offset]) := by
  rw [sectionWords_append]
  simp [sectionWords, Entry.shift]

theorem insert_distinct (hd : Distinct (ds ++ l)) (hn : 5 * (ds.length + l.length) ≤ n) :
    insertInsyms n offset (l.map Entry.insym) (sectionWords ds) =
      .ok (sectionWords (ds ++ l.map (Entry.shift offset))) := by
  induction l generalizing ds with
  | nil => simp [insertInsyms]
  | cons e l ih =>
    rw [List.length_cons] at hn
    have hnew : ¬ ∃ d ∈ ds, d.name = e.name := by
      rintro ⟨d, hmem, hname⟩
      unfold Distinct at hd
      rw [List.map_append, List.nodup_append] at hd
      exact hd.2.2 d.name (List.mem_map_of_mem hmem) e.name (by simp) hname
    have hdist : Distinct (ds ++ [e.shift offset] ++ l) := by
      unfold Distinct at hd ⊢
      simpa [Entry.shift] using hd
    rw [List.map_cons, insertInsyms, if_neg (by rw [any_offsets]; exact hnew), length_sectionWords,
      if_pos (by omega)]
    dsimp only [Entry.insym]
    rw [sectionWords_concat]
    refine (ih hdist ?_).trans ?_
    · rw [List.length_append, List.length_singleton]
      omega
    · rw [List.map_cons, List.append_assoc, List.singleton_append]

/-- There is a duplicate. -/
theorem insert_duplicate (hds : Distinct ds) (hd : ¬ Distinct (ds ++ l))
    (hn : 5 * (ds.length + l.length) ≤ n) :
    insertInsyms n offset (l.map Entry.insym) (sectionWords ds) = .error (.exit 1) := by
  induction l generalizing ds with
  | nil => exact absurd (by rwa [List.append_nil]) hd
  | cons e l ih =>
    rw [List.length_cons] at hn
    rw [List.map_cons, insertInsyms]
    by_cases hold : ∃ d ∈ ds, d.name = e.name
    · exact if_pos (any_offsets.mpr hold)
    · have hnew : Distinct (ds ++ [e]) := by
        unfold Distinct at hds ⊢
        rw [List.map_append, List.nodup_append]
        refine ⟨hds, List.nodup_singleton _, ?_⟩
        rintro _ hx _ hy rfl
        obtain ⟨d, hmem, hname⟩ := List.mem_map.mp hx
        exact hold ⟨d, hmem, hname.trans (List.mem_singleton.mp hy)⟩
      rw [if_neg (by rw [any_offsets]; exact hold), length_sectionWords, if_pos (by omega)]
      dsimp only [Entry.insym]
      rw [sectionWords_concat]
      refine ih ?_ ?_ ?_
      · unfold Distinct at hnew ⊢
        simpa [Entry.shift] using hnew
      · unfold Distinct at hd ⊢
        simpa [Entry.shift] using hd
      · rw [List.length_append, List.length_singleton]
        omega

/-- One file, with insymbols that are new. -/
theorem build_cons {f : FHeader} {o : Object} (hf : Header f o) (hd : Distinct (ds ++ o.insyms))
    (hn : 5 * (ds.length + o.insyms.length) ≤ n) :
    build n (f :: fh) (sectionWords ds) code =
      build n fh (sectionWords (ds ++ o.insyms.map (Entry.shift code.length))) (code ++ o.code) := by
  rw [build, hf.insyms, insert_distinct hd hn, ok_bind, hf.code, ok_bind]

theorem build_headers (h : List.Forall₂ Header fh os) (hd : Distinct (ds ++ defs code.length os))
    (hn : 5 * (ds.length + (os.map fun o => o.insyms.length).sum) ≤ n) :
    build n fh (sectionWords ds) code =
      .ok (sectionWords (ds ++ defs code.length os), code ++ codes os) := by
  induction h generalizing ds code with
  | nil => simp [build, defs, codes]
  | @cons f o fh os hf _ ih =>
    rw [List.map_cons, List.sum_cons] at hn
    unfold defs at hd ⊢
    have hdist : Distinct (ds ++ o.insyms) := by
      unfold Distinct at hd ⊢
      rw [← List.append_assoc, List.map_append] at hd
      have hleft := (List.nodup_append.mp hd).1
      simpa [Entry.shift, Function.comp_def] using hleft
    have hlen : (code ++ o.code).length = code.length + o.code.length := List.length_append
    rw [build_cons hf hdist (by omega)]
    refine (ih ?_ ?_).trans ?_
    · rw [hlen, List.append_assoc]
      exact hd
    · rw [List.length_append, List.length_map]
      omega
    · simp [codes, hlen]

theorem build_duplicate (h : List.Forall₂ Header fh os) (hds : Distinct ds)
    (hd : ¬ Distinct (ds ++ defs code.length os))
    (hn : 5 * (ds.length + (os.map fun o => o.insyms.length).sum) ≤ n) :
    build n fh (sectionWords ds) code = .error (.exit 1) := by
  induction h generalizing ds code with
  | nil => exact absurd (by rwa [defs, List.append_nil]) hd
  | @cons f o fh os hf _ ih =>
    rw [List.map_cons, List.sum_cons] at hn
    unfold defs at hd
    have hlen : (code ++ o.code).length = code.length + o.code.length := List.length_append
    by_cases hdist : Distinct (ds ++ o.insyms)
    · rw [build_cons hf hdist (by omega)]
      refine ih ?_ ?_ ?_
      · unfold Distinct at hdist ⊢
        simpa [Entry.shift, Function.comp_def] using hdist
      · rw [hlen, List.append_assoc]
        exact hd
      · rw [List.length_append, List.length_map]
        omega
    · rw [build, hf.insyms, insert_duplicate hds hdist (by omega)]
      rfl

end

/-! ## The references -/

section
variable {ds : List Entry} {e : Entry} {offset : Nat} {code : List Word} {flags : Byte}

theorem definition_cons {d : Entry} {name : Name} : definition (d :: ds) name =
    if d.name = name then some d.address else definition ds name := by
  unfold definition
  rw [List.find?_cons]
  split <;> simp_all

/-- The flags of an outsymbol after the search. -/
def found (flags : Byte) (a : Option Word) : Byte :=
  if a.isSome then flags ||| FLAG_DEFINED else flags

theorem drop_succ {l : List Entry} {d : Entry} {a : Nat} (hl : ds.drop a = d :: l) :
    ds.drop (a + 1) = l := by
  rw [← List.drop_drop, hl]
  rfl

theorem symbolAt_drop {l : List Entry} {d : Entry} {a : Nat} (hl : ds.drop a = d :: l) :
    symbolAt (sectionWords ds) (5 * a) = .ok (d.name, d.address) := by
  have hget : ds[a]? = some d := by
    rw [← Nat.add_zero a, ← List.getElem?_drop, hl]
    rfl
  have hsymbol : symbolAt ([] ++ sectionWords ds ++ []) (([] : List Word).length + 5 * a) =
      .ok (d.name, d.address) := symbolAt_lists (lists_sectionWords ds) hget
  simpa using hsymbol

theorem search_none (l : List Entry) {a : Nat} (hl : ds.drop a = l)
    (hno : ∀ d ∈ l, d.name ≠ e.name) :
    search (sectionWords ds) offset e.outsym ((List.range' a l.length).map (5 * ·)) code flags =
      .ok (code, flags) := by
  induction l generalizing a with
  | nil => rfl
  | cons d l ih =>
    obtain ⟨hname, hno⟩ := List.forall_mem_cons.mp hno
    rw [List.length_cons, List.range'_succ, List.map_cons, search, symbolAt_drop hl, ok_bind]
    exact (if_neg hname).trans (ih (drop_succ hl) hno)

/-- The search at the positions from `a` on, where `l` is. -/
theorem search_from (l : List Entry) {a : Nat} (hl : ds.drop a = l) (hd : Distinct l)
    (hcode : (definition l e.name).isSome → (e.ref offset).pos < code.length) :
    search (sectionWords ds) offset e.outsym ((List.range' a l.length).map (5 * ·)) code flags =
      .ok (patch l code (e.ref offset), found flags (definition l e.name)) := by
  induction l generalizing a with
  | nil => rfl
  | cons d l ih =>
    unfold Distinct at hd
    rw [List.map_cons, List.nodup_cons] at hd
    rw [List.length_cons, List.range'_succ, List.map_cons, search, symbolAt_drop hl, ok_bind]
    rw [definition_cons] at hcode
    by_cases hname : d.name = e.name
    · rw [if_pos hname] at hcode
      obtain ⟨instr, hat⟩ : ∃ instr, code[(e.ref offset).pos]? = some instr :=
        ⟨_, List.getElem?_eq_getElem (hcode rfl)⟩
      have hword : word code (offset + e.address.toNat) = .ok instr := by
        unfold word
        rw [show code[offset + e.address.toNat]? = some instr from hat]
      have hno : ∀ b ∈ l, b.name ≠ e.name := fun b hb h =>
        hd.1 (h.trans hname.symm ▸ List.mem_map_of_mem hb)
      refine (if_pos hname).trans ?_
      refine (congrArg (· >>= _) hword).trans ?_
      rw [ok_bind, search_none l (drop_succ hl) hno]
      unfold patch found
      rw [show (e.ref offset).name = e.name from rfl, definition_cons, if_pos hname]
      have hget : code.getD (e.ref offset).pos 0 = instr := by
        rw [List.getD_eq_getElem?_getD, hat, Option.getD_some]
      rw [hget]
      rfl
    · refine (if_neg hname).trans ?_
      rw [if_neg hname] at hcode
      rw [ih (drop_succ hl) hd.2 hcode]
      unfold patch found
      rw [show (e.ref offset).name = e.name from rfl, definition_cons, if_neg hname]

/-- There is a definition, and the instruction is behind the code. -/
theorem search_fault (l : List Entry) {a : Nat} (hl : ds.drop a = l)
    (hdef : (definition l e.name).isSome) (hcode : code.length ≤ (e.ref offset).pos) :
    search (sectionWords ds) offset e.outsym ((List.range' a l.length).map (5 * ·)) code flags =
      .error .fault := by
  induction l generalizing a with
  | nil => cases hdef
  | cons d l ih =>
    rw [List.length_cons, List.range'_succ, List.map_cons, search, symbolAt_drop hl, ok_bind]
    rw [definition_cons] at hdef
    by_cases hname : d.name = e.name
    · have hword : word code (offset + e.address.toNat) = .error .fault := by
        unfold word
        rw [show code[offset + e.address.toNat]? = none from List.getElem?_eq_none hcode]
      exact (if_pos hname).trans (congrArg (· >>= _) hword)
    · rw [if_neg hname] at hdef
      exact (if_neg hname).trans (ih (drop_succ hl) hdef)

end

section
variable {ds : List Entry} {n offset : Nat} {code : List Word}

theorem length_patch (r : Ref) : (patch ds code r).length = code.length := by
  unfold patch
  split
  · exact List.length_set
  · rfl

theorem length_patches (rs : List Ref) : (rs.foldl (patch ds) code).length = code.length := by
  induction rs generalizing code with
  | nil => rfl
  | cons r rs ih => rw [List.foldl_cons, ih, length_patch]

theorem entry_ref (e : Entry) : (e.ref offset).entry = e.shift offset := by
  unfold Ref.entry Entry.ref Entry.shift
  rw [BitVec.ofNat_add, BitVec.ofNat_toNat, BitVec.setWidth_eq, BitVec.add_comm]

variable (ds) in
theorem length_unresolved (rs : List Ref) : (unresolved ds rs).length ≤ rs.length :=
  List.length_filter_le ..

theorem isEmpty_append (a b : List Ref) : (a ++ b).isEmpty = (a.isEmpty && b.isEmpty) := by
  cases a <;> rfl

/-- The instruction of each reference that has a definition is in the code. -/
def InCode (ds : List Entry) (rs : List Ref) (n : Nat) : Prop :=
  ∀ r ∈ rs, (definition ds r.name).isSome → r.pos < n

theorem search_all (hd : Distinct ds) {e : Entry}
    (hcode : (definition ds e.name).isSome → (e.ref offset).pos < code.length) :
    search (sectionWords ds) offset e.outsym (offsets (sectionWords ds).length) code
      e.outsym.flags = .ok (patch ds code (e.ref offset), found FLAG_OUTSYM (definition ds e.name)) := by
  rw [length_sectionWords, offsets_five]
  exact search_from ds rfl hd hcode

/-- One outsymbol. -/
theorem resolveSyms_cons (hd : Distinct ds) (l : List Entry) {e : Entry} {st : Resolved}
    (hcode : (definition ds e.name).isSome → (e.ref offset).pos < st.code_section.length)
    (hn : st.outsym_section.length + 5 ≤ n) :
    resolveSyms (sectionWords ds) n offset ((e :: l).map Entry.outsym) st =
      resolveSyms (sectionWords ds) n offset (l.map Entry.outsym)
        ⟨st.outsym_section ++ sectionWords ((unresolved ds [e.ref offset]).map Ref.entry),
          patch ds st.code_section (e.ref offset),
          st.is_object || !(unresolved ds [e.ref offset]).isEmpty⟩ := by
  rw [List.map_cons, resolveSyms, search_all hd hcode, ok_bind]
  cases hdef : definition ds e.name with
  | none =>
    have hun : unresolved ds [e.ref offset] = [e.ref offset] :=
      List.filter_cons_of_pos (by rw [show (e.ref offset).name = e.name from rfl, hdef]; rfl)
    refine (if_pos rfl).trans ((if_pos hn).trans ?_)
    rw [hun, List.map_singleton, entry_ref]
    simp [sectionWords, Entry.outsym, Entry.shift]
  | some a =>
    have hun : unresolved ds [e.ref offset] = [] :=
      List.filter_cons_of_neg (by rw [show (e.ref offset).name = e.name from rfl, hdef]; simp)
    have hflag : ¬ (FLAG_OUTSYM ||| FLAG_DEFINED) &&& FLAG_DEFINED = 0 := by decide
    refine (if_neg hflag).trans ?_
    rw [hun]
    simp [sectionWords]

variable (ds) in
theorem unresolved_append (a b : List Ref) :
    unresolved ds (a ++ b) = unresolved ds a ++ unresolved ds b :=
  List.filter_append ..

theorem resolveSyms_eq (hd : Distinct ds) (l : List Entry) {st : Resolved}
    (hpos : InCode ds (l.map (Entry.ref offset)) st.code_section.length)
    (hn : st.outsym_section.length + 5 * l.length ≤ n) :
    resolveSyms (sectionWords ds) n offset (l.map Entry.outsym) st = .ok
      ⟨st.outsym_section ++ sectionWords ((unresolved ds (l.map (Entry.ref offset))).map Ref.entry),
        (l.map (Entry.ref offset)).foldl (patch ds) st.code_section,
        st.is_object || !(unresolved ds (l.map (Entry.ref offset))).isEmpty⟩ := by
  induction l generalizing st with
  | nil => simp [resolveSyms, unresolved, sectionWords]
  | cons e l ih =>
    obtain ⟨he, hpos⟩ := List.forall_mem_cons.mp hpos
    have hone := length_unresolved ds [e.ref offset]
    rw [List.length_cons] at hn
    rw [List.length_singleton] at hone
    rw [resolveSyms_cons hd l he (by omega), ih]
    · have hun := unresolved_append ds [e.ref offset] (l.map (Entry.ref offset))
      rw [List.singleton_append] at hun
      rw [List.map_cons, hun, List.foldl_cons, List.map_append, sectionWords_append,
        isEmpty_append, Bool.not_and, Bool.or_assoc, List.append_assoc]
    · dsimp only
      rwa [length_patch]
    · dsimp only
      rw [List.length_append, length_sectionWords, List.length_map]
      omega

/-- The instruction of an outsymbol that has a definition is behind the code. -/
theorem resolveSyms_fault (hd : Distinct ds) (l : List Entry) {st : Resolved}
    (hpos : ¬ InCode ds (l.map (Entry.ref offset)) st.code_section.length)
    (hn : st.outsym_section.length + 5 * l.length ≤ n) :
    resolveSyms (sectionWords ds) n offset (l.map Entry.outsym) st = .error .fault := by
  induction l generalizing st with
  | nil => exact absurd (fun r hr => nomatch hr) hpos
  | cons e l ih =>
    by_cases he : (definition ds e.name).isSome → (e.ref offset).pos < st.code_section.length
    · have hone := length_unresolved ds [e.ref offset]
      rw [List.length_cons] at hn
      rw [List.length_singleton] at hone
      rw [resolveSyms_cons hd l he (by omega)]
      refine ih ?_ ?_
      · dsimp only
        rw [length_patch]
        exact fun h => hpos (List.forall_mem_cons.mpr ⟨he, h⟩)
      · dsimp only
        rw [List.length_append, length_sectionWords, List.length_map]
        omega
    · rw [Classical.not_imp, Nat.not_lt] at he
      obtain ⟨hdef, hlen⟩ := he
      rw [List.map_cons, resolveSyms, length_sectionWords, offsets_five]
      exact congrArg (· >>= _) (search_fault ds rfl hdef hlen)

/-- The outsymbols of one file. -/
theorem resolve_cons {f : FHeader} {o : Object} {fh : List FHeader} (hf : Header f o)
    (hd : Distinct ds) {st : Resolved}
    (hpos : InCode ds (o.outsyms.map (Entry.ref offset)) st.code_section.length)
    (hn : st.outsym_section.length + 5 * o.outsyms.length ≤ n) :
    resolve (sectionWords ds) n (f :: fh) offset st =
      resolve (sectionWords ds) n fh (offset + o.code.length)
        ⟨st.outsym_section ++
            sectionWords ((unresolved ds (o.outsyms.map (Entry.ref offset))).map Ref.entry),
          (o.outsyms.map (Entry.ref offset)).foldl (patch ds) st.code_section,
          st.is_object || !(unresolved ds (o.outsyms.map (Entry.ref offset))).isEmpty⟩ := by
  rw [resolve, hf.outsyms, resolveSyms_eq hd o.outsyms hpos hn, ok_bind, hf.word₂, ok_bind,
    BitVec.toNat_ofNat, Nat.mod_eq_of_lt hf.size]

theorem resolve_headers {fh : List FHeader} {os : List Object} (h : List.Forall₂ Header fh os)
    (hd : Distinct ds) {st : Resolved} (hpos : InCode ds (refs offset os) st.code_section.length)
    (hn : st.outsym_section.length + 5 * (os.map fun o => o.outsyms.length).sum ≤ n) :
    resolve (sectionWords ds) n fh offset st = .ok
      ⟨st.outsym_section ++ sectionWords ((unresolved ds (refs offset os)).map Ref.entry),
        (refs offset os).foldl (patch ds) st.code_section,
        st.is_object || !(unresolved ds (refs offset os)).isEmpty⟩ := by
  induction h generalizing offset st with
  | nil => simp [resolve, refs, unresolved, sectionWords]
  | @cons f o fh os hf _ ih =>
    obtain ⟨ho, hpos⟩ := List.forall_mem_append.mp hpos
    have hun := length_unresolved ds (o.outsyms.map (Entry.ref offset))
    rw [List.length_map] at hun
    rw [List.map_cons, List.sum_cons] at hn
    rw [resolve_cons hf hd ho (by omega), ih]
    · rw [refs, unresolved_append, List.map_append, sectionWords_append,
        List.foldl_append, isEmpty_append, Bool.not_and, Bool.or_assoc, List.append_assoc]
    · dsimp only
      rwa [length_patches]
    · dsimp only
      rw [List.length_append, length_sectionWords, List.length_map]
      omega

theorem resolve_fault {fh : List FHeader} {os : List Object} (h : List.Forall₂ Header fh os)
    (hd : Distinct ds) {st : Resolved} (hpos : ¬ InCode ds (refs offset os) st.code_section.length)
    (hn : st.outsym_section.length + 5 * (os.map fun o => o.outsyms.length).sum ≤ n) :
    resolve (sectionWords ds) n fh offset st = .error .fault := by
  induction h generalizing offset st with
  | nil => exact absurd (fun r hr => nomatch hr) hpos
  | @cons f o fh os hf _ ih =>
    have hun := length_unresolved ds (o.outsyms.map (Entry.ref offset))
    rw [List.length_map] at hun
    rw [List.map_cons, List.sum_cons] at hn
    by_cases ho : InCode ds (o.outsyms.map (Entry.ref offset)) st.code_section.length
    · rw [resolve_cons hf hd ho (by omega)]
      refine ih ?_ ?_
      · dsimp only
        rw [length_patches]
        exact fun h => hpos (List.forall_mem_append.mpr ⟨ho, h⟩)
      · dsimp only
        rw [List.length_append, length_sectionWords, List.length_map]
        omega
    · rw [resolve, hf.outsyms, resolveSyms_fault hd o.outsyms ho (by omega)]
      rfl

end

/-! ## The output -/

section
variable {junk : Nat → Word} {fh : List FHeader} {os : List Object} {is_object : Bool}

theorem length_defs (offset : Nat) :
    (defs offset os).length = (os.map fun o => o.insyms.length).sum := by
  induction os generalizing offset with
  | nil => rfl
  | cons o os ih =>
    rw [defs, List.length_append, List.length_map, ih, List.map_cons, List.sum_cons]

theorem build_all (h : List.Forall₂ Header fh os) (hd : Distinct (defs 0 os)) :
    build (5 * (os.map fun o => o.insyms.length).sum) fh [] [] =
      .ok (sectionWords (defs 0 os), codes os) := by
  have hbuild : build (5 * (os.map fun o => o.insyms.length).sum) fh (sectionWords []) [] =
      .ok (sectionWords ([] ++ defs 0 os), [] ++ codes os) := build_headers h hd (by simp)
  exact hbuild

/-- The insymbols fill their section. -/
theorem rest_nil : (List.range (5 * (os.map fun o => o.insyms.length).sum)).drop
    (sectionWords (defs 0 os)).length = [] := by
  rw [length_sectionWords, length_defs, List.drop_eq_nil_iff, List.length_range]

theorem generate_headers (h : List.Forall₂ Header fh os) (hd : Distinct (defs 0 os))
    (hpos : InCode (defs 0 os) (refs 0 os) (codes os).length) (hcode : codes os ≠ []) :
    generate_output_file junk fh is_object =
      .ok ((joined os).output (is_object || !(joined os).outsyms.isEmpty)) := by
  obtain ⟨h₀, h₁, h₂⟩ := total_headers h
  unfold generate_output_file
  rw [h₀, ok_bind, h₁, ok_bind, h₂, ok_bind, if_neg (by simpa using hcode), build_all h hd, ok_bind]
  dsimp only
  rw [rest_nil, List.map_nil, List.append_nil, resolve_headers h hd hpos (by simp), ok_bind]
  simp [joined, Object.output]
  rfl

theorem generate_fault (h : List.Forall₂ Header fh os) (hd : Distinct (defs 0 os))
    (hpos : ¬ InCode (defs 0 os) (refs 0 os) (codes os).length) (hcode : codes os ≠ []) :
    generate_output_file junk fh is_object = .error .fault := by
  obtain ⟨h₀, h₁, h₂⟩ := total_headers h
  unfold generate_output_file
  rw [h₀, ok_bind, h₁, ok_bind, h₂, ok_bind, if_neg (by simpa using hcode), build_all h hd, ok_bind]
  dsimp only
  rw [rest_nil, List.map_nil, List.append_nil, resolve_fault h hd hpos (by simp)]
  rfl

theorem generate_duplicate (h : List.Forall₂ Header fh os) (hd : ¬ Distinct (defs 0 os))
    (hcode : codes os ≠ []) : generate_output_file junk fh is_object = .error (.exit 1) := by
  obtain ⟨h₀, h₁, h₂⟩ := total_headers h
  have hbuild : build (5 * (os.map fun o => o.insyms.length).sum) fh (sectionWords []) [] =
      .error (.exit 1) := build_duplicate h List.nodup_nil hd (by simp)
  unfold generate_output_file
  rw [h₀, ok_bind, h₁, ok_bind, h₂, ok_bind, if_neg (by simpa using hcode)]
  exact congrArg (· >>= _) hbuild

theorem generate_empty (h : List.Forall₂ Header fh os) (hcode : codes os = []) :
    generate_output_file junk fh is_object = .error (.exit 50) := by
  obtain ⟨h₀, h₁, h₂⟩ := total_headers h
  unfold generate_output_file
  rw [h₀, ok_bind, h₁, ok_bind, h₂, ok_bind, hcode]
  rfl

end

end Cs720.Link
