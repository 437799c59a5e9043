import Cs720.Vm.Executable

/-! # Which files are loaded, and what a load writes -/

namespace Cs720.Vm

open Cs720.Lib Cs720.Link

/-! ## What a load should guarantee -/

def nameAt (buffer : Nat → Word) (t : Nat) : List Byte := cstring (bytes16 fun k => buffer (t + k))

def mains (buffer : Nat → Word) (ts : List Nat) : List Nat :=
  ts.filter fun t => nameAt buffer t = mainx20

/-- The file has whole sections, with one `mainx20` that is in the code, which is in memory. -/
structure ValidLoad (fp : File) (vm : VM) : Prop where
  header : 3 ≤ fp.words.length
  outsyms : lengths fp 1 = 0
  insyms : 0 ≤ (lengths fp 0).toInt ∧ (lengths fp 0).toInt % 5 = 0 ∧
    3 + (lengths fp 0).toInt ≤ fp.words.length
  code : 0 ≤ (lengths fp 2).toInt ∧
    3 + (lengths fp 0).toInt + (lengths fp 2).toInt ≤ fp.words.length
  progEnd : (vm.progEnd.toNat : Int) = (lengths fp 2).toInt ∧ vm.progEnd.toNat ≤ MEM_SIZE
  main : (mains (fun k => fp.words.getD (3 + k) 0) (offsets (lengths fp 0).toInt)).length = 1
  entryPoint : vm.entryPoint < vm.progEnd

/-- A load that returns 1 has loaded a valid file, and no load puts a word behind the memory. -/
structure LoadsSafely (junk : Nat → Word) (vm : VM) (fp : File) : Prop where
  valid : ∀ r, loadExecutableFile junk vm (some fp) = .ok r → r.success = 1 → ValidLoad fp r.vm
  stores : ∀ s ∈ (loading junk vm (some fp)).stores, s.1 < MEM_SIZE
  memory : ∀ r, loadExecutableFile junk vm (some fp) = .ok r →
    ∀ a, r.vm.memory a ≠ vm.memory a → a.toNat < MEM_SIZE

/-! ## What the code checks -/

def symsRead (junk : Nat → Word) (fp : File) : Nat → Word :=
  fp.fread 3 (lengths fp 0).toInt.toNat junk

/-- No check rejects the file: it has no outsymbols and all of its code, each name fits its block,
and one of them is `mainx20`. -/
structure Passes (junk : Nat → Word) (fp : File) : Prop where
  outsyms : lengths fp 1 = 0
  buffer : ¬ NoBuffer fp
  code : wordsRead fp = codeCount fp
  names : ∀ t ∈ offsets (lengths fp 0).toInt, (nameAt (symsRead junk fp) t).length < 16
  main : (mains (symsRead junk fp) (offsets (lengths fp 0).toInt)).length = 1

/-- What the code does not check: it announces no more code than the memory has words, or the file
ends before; the length of the insymbols is a multiple of 5, and the word behind `mainx20` is below
the length of the code. -/
structure Unchecked (junk : Nat → Word) (fp : File) : Prop where
  fits : lengths fp 1 = 0 → ¬ NoBuffer fp →
    codeCount fp ≤ MEM_SIZE ∨ fp.size ≤ codePos fp + MEM_SIZE
  entries : Passes junk fp → (lengths fp 0).toInt % 5 = 0
  entryPoint : Passes junk fp → ∀ t ∈ mains (symsRead junk fp) (offsets (lengths fp 0).toInt),
    symsRead junk fp (t + 4) < lengths fp 2

/-! ## The insymbols -/

section
variable {buffer : Nat → Word} {vm : VM} {mainFound : Bool} {t : Nat} {ts : List Nat} {r : Loaded}

theorem copyName_iff {name : List Byte} : copyName (fun k => buffer (t + k)) = .ok name ↔
    (nameAt buffer t).length < 16 ∧ nameAt buffer t = name := by
  unfold copyName
  change (if (nameAt buffer t).length < 16 then _ else _) = _ ↔ _
  split
  · rename_i h
    rw [Except.ok.injEq]
    exact ⟨fun heq => ⟨h, heq⟩, And.right⟩
  · rename_i h
    exact ⟨nofun, fun heq => absurd heq.1 h⟩

theorem parse_keeps (h : parseInsymbols buffer vm mainFound ts = .ok r) :
    r.vm.memory = vm.memory ∧ r.vm.progEnd = vm.progEnd := by
  induction ts generalizing vm mainFound with
  | nil =>
    unfold parseInsymbols at h
    split at h <;> cases h <;> exact ⟨rfl, rfl⟩
  | cons t ts ih =>
    rw [parseInsymbols, bind_ok] at h
    obtain ⟨name, -, h⟩ := h
    dsimp only at h
    split at h
    · split at h
      · cases h
        exact ⟨rfl, rfl⟩
      · have hkeeps := ih h
        exact hkeeps
    · have hkeeps := ih h
      exact hkeeps

theorem mains_cons_pos (h : nameAt buffer t = mainx20) :
    mains buffer (t :: ts) = t :: mains buffer ts :=
  List.filter_cons_of_pos (by simpa using h)

theorem mains_cons_neg (h : nameAt buffer t ≠ mainx20) :
    mains buffer (t :: ts) = mains buffer ts :=
  List.filter_cons_of_neg (by simpa using h)

theorem parse_after (h : parseInsymbols buffer vm true ts = .ok r) (hsuccess : r.success = 1) :
    (∀ t ∈ ts, (nameAt buffer t).length < 16) ∧ mains buffer ts = [] ∧
      r.vm.entryPoint = vm.entryPoint := by
  induction ts generalizing vm with
  | nil =>
    cases h
    exact ⟨List.forall_mem_nil _, rfl, rfl⟩
  | cons t ts ih =>
    rw [parseInsymbols, bind_ok] at h
    obtain ⟨name, hname, h⟩ := h
    obtain ⟨hlen, rfl⟩ := copyName_iff.mp hname
    dsimp only at h
    split at h
    · cases h
      exact absurd hsuccess (show ¬ (0 : Int) = 1 by decide)
    · rename_i hne
      obtain ⟨hshort, hnone, hentry⟩ := ih h
      exact ⟨List.forall_mem_cons.mpr ⟨hlen, hshort⟩, by rw [mains_cons_neg hne, hnone], hentry⟩

theorem parse_before (h : parseInsymbols buffer vm false ts = .ok r) (hsuccess : r.success = 1) :
    (∀ t ∈ ts, (nameAt buffer t).length < 16) ∧
      ∃ t, mains buffer ts = [t] ∧ r.vm.entryPoint = buffer (t + 4) := by
  induction ts generalizing vm with
  | nil =>
    cases h
    exact absurd hsuccess (show ¬ (0 : Int) = 1 by decide)
  | cons t ts ih =>
    rw [parseInsymbols, bind_ok] at h
    obtain ⟨name, hname, h⟩ := h
    obtain ⟨hlen, rfl⟩ := copyName_iff.mp hname
    dsimp only at h
    split at h
    · rename_i hmain
      obtain ⟨hshort, hnone, hentry⟩ := parse_after h hsuccess
      refine ⟨List.forall_mem_cons.mpr ⟨hlen, hshort⟩, t, ?_, hentry⟩
      rw [mains_cons_pos hmain, hnone]
    · rename_i hne
      obtain ⟨hshort, u, hone, hentry⟩ := ih h
      exact ⟨List.forall_mem_cons.mpr ⟨hlen, hshort⟩, u, by rw [mains_cons_neg hne, hone], hentry⟩

theorem parse_succeeds (hshort : ∀ t ∈ ts, (nameAt buffer t).length < 16)
    (hmain : (mains buffer ts).length = if mainFound then 0 else 1) :
    ∃ r, parseInsymbols buffer vm mainFound ts = .ok r ∧ r.success = 1 := by
  induction ts generalizing vm mainFound with
  | nil =>
    cases mainFound with
    | true => exact ⟨_, rfl, rfl⟩
    | false => cases hmain
  | cons t ts ih =>
    obtain ⟨hlen, hshort⟩ := List.forall_mem_cons.mp hshort
    rw [parseInsymbols, copyName_iff.mpr ⟨hlen, rfl⟩]
    by_cases hname : nameAt buffer t = mainx20
    · rw [mains_cons_pos hname] at hmain
      cases mainFound with
      | true => cases hmain
      | false =>
        have hnone : (mains buffer ts).length = if true then 0 else 1 := by simpa using hmain
        obtain ⟨r, hr, hsuccess⟩ := ih hshort hnone
        exact ⟨r, (if_pos hname).trans hr, hsuccess⟩
    · rw [mains_cons_neg hname] at hmain
      obtain ⟨r, hr, hsuccess⟩ := ih hshort hmain
      exact ⟨r, (if_neg hname).trans hr, hsuccess⟩

end

/-! ## The code in memory -/

section
variable {junk : Nat → Word} {vm : VM} {fp : File} {r : Loaded}

theorem loading_stores : (loading junk vm (some fp)).stores =
    if lengths fp 1 ≠ 0 then [] else if NoBuffer fp then []
    else fp.stores (codePos fp) (codeCount fp) fun k => vm.memory (BitVec.ofNat 32 k) := by
  unfold loading
  simp only [apply_ite Loading.stores]
  rfl

theorem withRead_other {a : Word} (h : ∀ s ∈ fp.stores (codePos fp) (codeCount fp)
    (fun k => vm.memory (BitVec.ofNat 32 k)), s.1 ≠ a.toNat) :
    (vm.withRead fp).memory a = vm.memory a := by
  unfold VM.withRead
  dsimp only
  rw [← File.putAll_stores, putAll_other h, BitVec.ofNat_toNat, BitVec.setWidth_eq]

/-- A load changes no word that it has not stored. -/
theorem load_memory (h : loadExecutableFile junk vm (some fp) = .ok r) {a : Word}
    (ha : ∀ s ∈ (loading junk vm (some fp)).stores, s.1 ≠ a.toNat) :
    r.vm.memory a = vm.memory a := by
  rw [loading_stores] at ha
  rw [load_eq] at h
  split at h
  · cases h
    rfl
  rename_i houtsyms
  split at h
  · cases h
  rename_i hbuffer
  rw [if_neg houtsyms, if_neg hbuffer] at ha
  split at h
  · cases h
  split at h
  · cases h
    exact withRead_other ha
  · rw [(parse_keeps h).1, withRead_other ha]

variable (junk vm) in
theorem stores_iff : (∀ s ∈ (loading junk vm (some fp)).stores, s.1 < MEM_SIZE) ↔
    (lengths fp 1 = 0 → ¬ NoBuffer fp →
      codeCount fp ≤ MEM_SIZE ∨ fp.size ≤ codePos fp + MEM_SIZE) := by
  rw [loading_stores]
  split
  · rename_i houtsyms
    exact iff_of_true (List.forall_mem_nil _) fun h => absurd h houtsyms
  · rename_i houtsyms
    split
    · rename_i hbuffer
      exact iff_of_true (List.forall_mem_nil _) fun _ h => absurd hbuffer h
    · rename_i hbuffer
      rw [File.stores_below]
      exact ⟨fun h _ _ => h, fun h => h (not_not.mp houtsyms) hbuffer⟩

theorem length_code (h : wordsRead fp = codeCount fp) (hfits : wordsRead fp ≤ MEM_SIZE) :
    BitVec.ofNat 32 (wordsRead fp) = lengths fp 2 ∧
      (lengths fp 2).toInt = (wordsRead fp : Int) := by
  have hsign := BitVec.toInt_signExtend_of_le (x := lengths fp 2) (v := 64) (by omega)
  have hcount : codeCount fp = ((lengths fp 2).signExtend 64).toNat := rfl
  rw [h] at hfits ⊢
  unfold MEM_SIZE at hfits
  have hint : (lengths fp 2).toInt = (codeCount fp : Int) := by
    rw [← hsign, BitVec.toInt_eq_toNat_cond, ← hcount, if_pos (by omega)]
  refine ⟨BitVec.eq_of_toInt_eq ?_, hint⟩
  rw [hint, ofNat_toInt (by omega)]

theorem wordsRead_le (h : codeCount fp ≤ MEM_SIZE ∨ fp.size ≤ codePos fp + MEM_SIZE) :
    wordsRead fp ≤ MEM_SIZE := by
  unfold File.size at h
  unfold wordsRead File.available
  omega

/-! ## Which files are loaded -/

variable (junk vm) in
theorem load_passes (h : Passes junk fp) (hfits : wordsRead fp ≤ MEM_SIZE) :
    ∃ r, loadExecutableFile junk vm (some fp) = .ok r ∧ r.success = 1 := by
  rw [load_sectionsRead junk vm ⟨h.outsyms, h.buffer, hfits, h.code⟩]
  exact parse_succeeds h.names h.main

theorem passes_of_load (h : loadExecutableFile junk vm (some fp) = .ok r)
    (hsuccess : r.success = 1) : Passes junk fp ∧ wordsRead fp ≤ MEM_SIZE ∧
      r.vm.progEnd = BitVec.ofNat 32 (wordsRead fp) ∧
      ∃ t, mains (symsRead junk fp) (offsets (lengths fp 0).toInt) = [t] ∧
        r.vm.entryPoint = symsRead junk fp (t + 4) := by
  have hparse := parsed_of_load h hsuccess
  obtain ⟨hnames, t, hmain, hentry⟩ := parse_before hparse hsuccess
  obtain ⟨houtsyms, hbuffer, hfits, hcode⟩ := sectionsRead_of_load h hsuccess
  exact ⟨⟨houtsyms, hbuffer, hcode, hnames, congrArg List.length hmain⟩, hfits,
    (parse_keeps hparse).2, t, hmain, hentry⟩

theorem symsRead_file (h : 3 + (lengths fp 0).toInt ≤ fp.words.length) {k : Nat}
    (hk : (k : Int) < (lengths fp 0).toInt) : symsRead junk fp k = fp.words.getD (3 + k) 0 := by
  have hav : fp.available 3 (lengths fp 0).toInt.toNat = (lengths fp 0).toInt.toNat := by
    unfold File.available
    omega
  unfold symsRead File.fread
  rw [hav]
  exact if_pos (by omega)

variable (junk) in
theorem mains_file (h : 3 + (lengths fp 0).toInt ≤ fp.words.length)
    (hfive : (lengths fp 0).toInt % 5 = 0) :
    mains (symsRead junk fp) (offsets (lengths fp 0).toInt) =
      mains (fun k => fp.words.getD (3 + k) 0) (offsets (lengths fp 0).toInt) := by
  refine List.filter_congr fun t ht => ?_
  obtain ⟨k, hk, rfl⟩ := List.mem_map.mp ht
  rw [List.mem_range] at hk
  have hword (j : Nat) (hj : j < 4) :
      symsRead junk fp (5 * k + j) = fp.words.getD (3 + (5 * k + j)) 0 :=
    symsRead_file h (by omega)
  have hname : nameAt (symsRead junk fp) (5 * k) =
      nameAt (fun k => fp.words.getD (3 + k) 0) (5 * k) := by
    unfold nameAt bytes16
    dsimp only
    rw [hword 0 (by omega), hword 1 (by omega), hword 2 (by omega), hword 3 (by omega)]
  rw [hname]

theorem valid_of_load (h : loadExecutableFile junk vm (some fp) = .ok r) (hsuccess : r.success = 1)
    (hu : Unchecked junk fp) : ValidLoad fp r.vm := by
  obtain ⟨hpasses, hfits, hend, t, hmain, hentry⟩ := passes_of_load h hsuccess
  obtain ⟨hlen, hint⟩ := length_code hpasses.code hfits
  have hfive := hu.entries hpasses
  have hbelow : symsRead junk fp (t + 4) < lengths fp 2 :=
    hu.entryPoint hpasses t (by rw [hmain]; exact List.mem_singleton_self t)
  have htoNat : (lengths fp 2).toNat = wordsRead fp := by
    rw [← hlen, BitVec.toNat_ofNat]
    unfold MEM_SIZE at hfits
    omega
  -- There is code, so there is all that comes before it.
  have hsome : 0 < wordsRead fp := by
    rw [BitVec.lt_def] at hbelow
    omega
  have hpos : 0 < (lengths fp 0).toInt := by
    by_contra hneg
    have hoffsets : offsets (lengths fp 0).toInt = [] := by
      unfold offsets
      rw [Int.toNat_of_nonpos (by omega)]
      rfl
    rw [hoffsets] at hmain
    cases hmain
  have hcodePos : codePos fp = (3 + (lengths fp 0).toInt).toNat := if_neg (by omega)
  have hav : wordsRead fp ≤ fp.words.length - codePos fp := Nat.min_le_right _ _
  have hwhole : 3 + (lengths fp 0).toInt + wordsRead fp ≤ fp.words.length := by omega
  refine ⟨by omega, hpasses.outsyms, ⟨by omega, hfive, by omega⟩, ⟨by omega, by omega⟩, ?_, ?_, ?_⟩
  · rw [hend, hlen, htoNat, hint]
    exact ⟨rfl, hfits⟩
  · rw [← mains_file junk (by omega) hfive]
    exact hpasses.main
  · rw [hend, hlen, hentry]
    exact hbelow

variable (junk vm fp) in
/-- A load is safe if and only if what it does not check holds anyway. -/
theorem loads_safely_iff : LoadsSafely junk vm fp ↔ Unchecked junk fp := by
  constructor
  · rintro ⟨hvalid, hstores, -⟩
    have hfits := (stores_iff junk vm).mp hstores
    have hload (h : Passes junk fp) : ∃ r, ValidLoad fp r.vm ∧
        loadExecutableFile junk vm (some fp) = .ok r ∧ r.success = 1 := by
      obtain ⟨r, hr, hsuccess⟩ := load_passes junk vm h (wordsRead_le (hfits h.outsyms h.buffer))
      exact ⟨r, hvalid r hr hsuccess, hr, hsuccess⟩
    refine ⟨hfits, ?_, ?_⟩
    · intro h
      obtain ⟨r, hr, -⟩ := hload h
      exact hr.insyms.2.1
    · intro h t ht
      obtain ⟨r, hv, hr, hsuccess⟩ := hload h
      obtain ⟨-, hle, hend, u, hmain, hentry⟩ := passes_of_load hr hsuccess
      rw [hmain, List.mem_singleton] at ht
      have hbelow := hv.entryPoint
      rwa [hend, (length_code h.code hle).1, hentry, ← ht] at hbelow
  · intro hu
    have hstores := (stores_iff junk vm).mpr hu.fits
    refine ⟨fun r hr hsuccess => valid_of_load hr hsuccess hu, hstores, ?_⟩
    intro r hr a hchanged
    by_contra ha
    refine hchanged (load_memory hr ?_)
    intro s hs heq
    exact ha (heq ▸ hstores s hs)

end

theorem loads_safely_halt : LoadsSafely (fun _ => 0) blank (executable 0 [0]) := by
  refine (loads_safely_iff _ _ _).mpr ⟨fun _ _ => by decide, fun _ => by decide, fun _ => ?_⟩
  decide

theorem loads_outside : ∃ r,
    loadExecutableFile (fun _ => 0) blank (some (executable 1 [0])) = .ok r ∧
    r.success = 1 ∧ r.vm.entryPoint = 1 ∧ r.vm.progEnd = 1 ∧
    ¬ LoadsSafely (fun _ => 0) blank (executable 1 [0]) := by
  have hload : loadExecutableFile (fun _ => 0) blank (some (executable 1 [0])) =
      .ok ⟨1, none, blank.withExecutable 1 [0]⟩ := load_executable oneWord_fits
  refine ⟨_, hload, rfl, rfl, rfl, fun h => ?_⟩
  exact absurd (h.valid _ hload rfl).entryPoint (by decide)

end Cs720.Vm
