import Mathlib.Data.BitVec
import Mathlib.Data.List.GetD
import Mathlib.Data.List.TakeWhile
import Mathlib.Tactic.IntervalCases
import Cs720.Lib.Loop

/-! # Bytes, C strings and files

A word is 4 bytes, the lowest first. A C string is the list of its bytes before the zero.
-/

namespace Cs720.Lib

abbrev Byte := BitVec 8

/-- The bytes of a word. -/
def bytesOf (w : BitVec 32) : List Byte :=
  [w.setWidth 8, (w >>> 8).setWidth 8, (w >>> 16).setWidth 8, (w >>> 24).setWidth 8]

/-- The word with these bytes. -/
def wordOf (b : Nat → Byte) : BitVec 32 :=
  (b 0).setWidth 32 ||| (b 1).setWidth 32 <<< 8 ||| (b 2).setWidth 32 <<< 16 |||
    (b 3).setWidth 32 <<< 24

/-- The C string at the start of some bytes, or all of them if there is no zero. -/
def cstring (l : List Byte) : List Byte := l.takeWhile (· != 0)

/-- The 16 bytes of 4 words. -/
def bytes16 (w : Nat → BitVec 32) : List Byte :=
  bytesOf (w 0) ++ bytesOf (w 1) ++ bytesOf (w 2) ++ bytesOf (w 3)

/-- The positions 0, 5, 10 and so on below `length`. -/
def offsets (length : Int) : List Nat := (List.range ((length.toNat + 4) / 5)).map (5 * ·)

theorem ofNat_toInt {k : Nat} (h : k < 2 ^ 31) : (BitVec.ofNat 32 k).toInt = k := by
  rw [BitVec.toInt_eq_toNat_cond, BitVec.toNat_ofNat]
  omega

theorem offsets_five (k : Nat) : offsets ((5 * k : Nat) : Int) = (List.range' 0 k).map (5 * ·) := by
  unfold offsets
  rw [Int.toNat_natCast, List.range_eq_range']
  congr 2
  omega

/-! ## Names -/

theorem length_cstring_le {l : List Byte} : (cstring l).length ≤ l.length :=
  (List.takeWhile_sublist _).length_le

theorem zero_notMem_cstring {l : List Byte} : 0 ∉ cstring l := by
  intro h
  simpa using List.mem_takeWhile_imp h

/-- A C string in 16 bytes. -/
@[ext]
structure Name where
  bytes : List Byte
  short : bytes.length ≤ 16
  nonzero : 0 ∉ bytes
  deriving DecidableEq

namespace Name

/-- The name that the words hold. -/
def ofWords (w : Nat → BitVec 32) : Name where
  bytes := cstring (bytes16 w)
  short := length_cstring_le
  nonzero := zero_notMem_cstring

/-- The words of the name, with zeros behind it. -/
def words (n : Name) : List (BitVec 32) :=
  (List.range 4).map fun k => wordOf fun b => n.bytes.getD (4 * k + b) 0

end Name

theorem bytesOf_wordOf (b : Nat → Byte) : bytesOf (wordOf b) = [b 0, b 1, b 2, b 3] := by
  unfold bytesOf wordOf
  congr 1
  · ext i hi
    interval_cases i <;> simp
  congr 1
  · ext i hi
    interval_cases i <;> simp
  congr 1
  · ext i hi
    interval_cases i <;> simp
  congr 1
  · ext i hi
    interval_cases i <;> simp

theorem wordOf_bytesOf (w : BitVec 32) : wordOf (fun k => (bytesOf w).getD k 0) = w := by
  unfold wordOf bytesOf
  ext i hi
  interval_cases i <;> simp

/-- Bytes with zeros behind them. -/
theorem range_getD {l : List Byte} {n : Nat} (h : l.length ≤ n) :
    (List.range n).map (fun k => l.getD k 0) = l ++ List.replicate (n - l.length) 0 := by
  apply List.ext_getElem
  · simp
    omega
  intro k hk hk'
  rw [List.getElem_map, List.getElem_range]
  rcases Nat.lt_or_ge k l.length with hlt | hge
  · rw [List.getElem_append_left hlt, List.getD_eq_getElem _ _ hlt]
  · rw [List.getElem_append_right hge, List.getElem_replicate, List.getD_eq_default _ _ hge]

theorem cstring_zeros {l : List Byte} (h : 0 ∉ l) (n : Nat) :
    cstring (l ++ List.replicate n 0) = l := by
  unfold cstring
  rw [List.takeWhile_append_of_pos]
  · cases n with
    | zero => simp
    | succ n => simp [List.replicate_succ]
  · intro b hb
    simp
    rintro rfl
    exact h hb

namespace Name

variable (n : Name)

theorem length_words : n.words.length = 4 := rfl

theorem bytes16_words :
    bytes16 (fun k => n.words.getD k 0) = n.bytes ++ List.replicate (16 - n.bytes.length) 0 := by
  rw [← range_getD n.short]
  unfold bytes16 words
  simp only [List.getD_eq_getElem?_getD]
  simp [bytesOf_wordOf, List.range_succ]

theorem ofWords_words : ofWords (fun k => n.words.getD k 0) = n := by
  ext1
  unfold ofWords
  dsimp only
  rw [bytes16_words, cstring_zeros n.nonzero]

theorem ofWords_congr {w w' : Nat → BitVec 32} (h : ∀ k < 4, w k = w' k) :
    ofWords w = ofWords w' := by
  ext1
  unfold ofWords bytes16
  dsimp only
  rw [h 0 (by omega), h 1 (by omega), h 2 (by omega), h 3 (by omega)]

end Name

/-! ## Stores -/

/-- The words at `dst` after the stores, each of a word at an index. -/
def putAll (stores : List (Nat × BitVec 32)) (dst : Nat → BitVec 32) : Nat → BitVec 32 :=
  stores.foldl (fun dst s => Function.update dst s.1 s.2) dst

section
variable {stores : List (Nat × BitVec 32)} {dst : Nat → BitVec 32} {k : Nat}

theorem putAll_concat (s : Nat × BitVec 32) :
    putAll (stores ++ [s]) dst = Function.update (putAll stores dst) s.1 s.2 := by
  unfold putAll
  rw [List.foldl_concat]

/-- A word with no store to it stays. -/
theorem putAll_other (h : ∀ s ∈ stores, s.1 ≠ k) : putAll stores dst k = dst k := by
  induction stores using List.reverseRecOn with
  | nil => rfl
  | append_singleton stores s ih =>
    simp only [List.mem_append, List.mem_singleton] at h
    rw [putAll_concat, Function.update_of_ne (h s (Or.inr rfl)).symm]
    exact ih fun t ht => h t (Or.inl ht)

theorem putAll_range (n : Nat) (word : Nat → BitVec 32) :
    putAll ((List.range n).map fun k => (k, word k)) dst k = if k < n then word k else dst k := by
  induction n with
  | zero => rfl
  | succ n ih =>
    rw [List.range_succ, List.map_append, List.map_singleton, putAll_concat]
    by_cases hk : k = n
    · subst hk
      rw [Function.update_self, if_pos (Nat.lt_succ_self k)]
    · rw [Function.update_of_ne hk, ih]
      exact if_congr (by omega) rfl rfl

end

/-! ## Files -/

/-- The bytes of a file, as whole words and up to three bytes more. -/
structure File where
  words : List (BitVec 32)
  rest : List Byte
  short : rest.length < 4

namespace File

/-- No byte is left over. -/
theorem short_nil : ([] : List Byte).length < 4 := by decide

variable (f : File)

/-- How many of `count` words `fread` reads from the position `pos`. -/
def available (pos count : Nat) : Nat := min count (f.words.length - pos)

/-- A word after `fread` has written the bytes `rest` over its first bytes. -/
def patch (w : BitVec 32) : BitVec 32 :=
  wordOf fun k => f.rest.getD k ((bytesOf w).getD k 0)

/-- The words at `dst` after `fread` has read `count` words from the position `pos`. The bytes after
the last whole word are read too. -/
def fread (pos count : Nat) (dst : Nat → BitVec 32) (k : Nat) : BitVec 32 :=
  let n := f.available pos count
  if k < n then f.words.getD (pos + k) 0
  else if k = n ∧ n < count ∧ pos + n = f.words.length then f.patch (dst k)
  else dst k

/-- The words of the file, with the one that is cut short at its end. -/
def size : Nat := f.words.length + if f.rest = [] then 0 else 1

/-- What this `fread` puts where, in order. -/
def stores (pos count : Nat) (dst : Nat → BitVec 32) : List (Nat × BitVec 32) :=
  let n := f.available pos count
  (List.range n).map (fun k => (k, f.words.getD (pos + k) 0)) ++
    if n < count ∧ pos + n = f.words.length ∧ f.rest ≠ [] then [(n, f.patch (dst n))] else []

section
variable {f : File} {a l c : List (BitVec 32)} {dst : Nat → BitVec 32} {k : Nat}

theorem available_section (h : f.words = a ++ l ++ c) :
    f.available a.length l.length = l.length := by
  unfold available
  simp only [h, List.length_append]
  omega

theorem patch_nil (h : f.rest = []) (w : BitVec 32) : f.patch w = w := by
  unfold patch
  rw [h]
  exact wordOf_bytesOf w

theorem putAll_stores (pos count : Nat) (dst : Nat → BitVec 32) :
    putAll (f.stores pos count dst) dst = f.fread pos count dst := by
  funext k
  unfold stores fread
  dsimp only
  split
  · rename_i hcut
    rw [putAll_concat]
    by_cases hk : k = f.available pos count
    · subst hk
      rw [Function.update_self, if_neg (Nat.lt_irrefl _), if_pos ⟨rfl, hcut.1, hcut.2.1⟩]
    · rw [Function.update_of_ne hk, putAll_range, if_neg (not_and_of_not_left _ hk)]
  · rename_i hcut
    rw [List.append_nil, putAll_range]
    congr 1
    split
    · rename_i hlast
      -- No byte is left over, so nothing is read there.
      have hrest : f.rest = [] := by
        by_contra hrest
        exact hcut ⟨hlast.2.1, hlast.2.2, hrest⟩
      rw [patch_nil hrest]
    · rfl

/-- A read stays below the index `m` if and only if no more words are asked for, or the file ends
before. -/
theorem stores_below (pos count m : Nat) (dst : Nat → BitVec 32) :
    (∀ s ∈ f.stores pos count dst, s.1 < m) ↔ count ≤ m ∨ f.size ≤ pos + m := by
  have hall : (∀ s ∈ f.stores pos count dst, s.1 < m) ↔ f.available pos count ≤ m ∧
      (f.available pos count < count ∧ pos + f.available pos count = f.words.length ∧
        f.rest ≠ [] → f.available pos count < m) := by
    unfold stores
    dsimp only
    rw [List.forall_mem_append, List.forall_mem_map]
    refine and_congr ?_ ?_
    · simp only [List.mem_range]
      exact ⟨fun h => Nat.le_of_not_lt fun hlt => Nat.lt_irrefl _ (h m hlt),
        fun h k hk => Nat.lt_of_lt_of_le hk h⟩
    · split
      · rename_i hcut
        simp [hcut]
      · rename_i hcut
        simp [hcut]
  rw [hall]
  unfold available size
  by_cases hrest : f.rest = []
  · rw [if_pos hrest]
    simp only [hrest, ne_eq, not_true_eq_false, and_false, false_implies, and_true]
    omega
  · rw [if_neg hrest]
    simp only [ne_eq, hrest, not_false_eq_true, and_true]
    omega

/-- A read of a whole section of a file. -/
theorem fread_section (h : f.words = a ++ l ++ c) :
    f.fread a.length l.length dst k = if k < l.length then l.getD k 0 else dst k := by
  unfold fread
  rw [available_section h]
  dsimp only
  split
  · rename_i hk
    rw [h, List.append_assoc, List.getD_append_right _ _ _ _ (by omega),
      List.getD_append _ _ _ _ (by omega), Nat.add_sub_cancel_left]
  · rw [if_neg (by omega)]

end

end File

end Cs720.Lib
