import Mathlib.Data.List.Forall2
import Cs720.Lib.Bytes

/-! # Numbers and strings at places of a buffer

A use of a place behind the end is a fault.
-/

namespace Cs720.Lib

/-- The order of the bytes of a number. -/
inductive Order where
  | little
  | big
  deriving DecidableEq, Repr

/-- The number whose lowest byte is the first. -/
def leNumber : List Byte → Nat
  | [] => 0
  | b :: l => b.toNat + 256 * leNumber l

def Order.number : Order → List Byte → Nat
  | .little, l => leNumber l
  | .big, l => leNumber l.reverse

def byteAt (buf : List Byte) (pos : Nat) : C Byte :=
  match buf[pos]? with
  | some b => .ok b
  | none => .error .fault

/-- A C string begins at `pos`: there is a zero. -/
def IsString (buf : List Byte) (pos : Nat) : Prop := 0 ∈ buf.drop pos

instance (buf : List Byte) (pos : Nat) : Decidable (IsString buf pos) :=
  inferInstanceAs (Decidable (0 ∈ buf.drop pos))

def stringAt (buf : List Byte) (pos : Nat) : C (List Byte) :=
  if IsString buf pos then .ok (cstring (buf.drop pos)) else .error .fault

/-- A sum or a product of two `int`s that are not negative. -/
def asInt (n : Nat) : C Nat := if n < 2 ^ 31 then .ok n else .error .fault

/-- A number that is read: where, in which order of its bytes, and what it is. -/
structure Read where
  place : Nat
  order : Order
  value : Nat
  deriving DecidableEq, Repr

/-- A member of a structure: a number of `size` bytes, `offset` bytes behind the start. -/
structure Field where
  offset : Nat
  size : Nat

namespace Field

variable (f : Field) (o : Order) (buf : List Byte)

/-- What the member is in the structure at `pos`. -/
def value (pos : Nat) : Nat := o.number ((buf.drop (pos + f.offset)).take f.size)

def get (pos : Nat) : C Nat :=
  if pos + f.offset + f.size ≤ buf.length then .ok (f.value o buf pos) else .error .fault

def reading (pos : Nat) : Read := ⟨pos + f.offset, o, f.value o buf pos⟩

def read (pos : Nat) : C Read :=
  if pos + f.offset + f.size ≤ buf.length then .ok (f.reading o buf pos) else .error .fault

end Field

/-- The first of `n` places, `size` apart, that passes the check. -/
def searchFrom (p : Nat → C Bool) (size : Nat) : Nat → Nat → C (Option Nat)
  | 0, _ => .ok none
  | n + 1, pos => do
    if ← p pos then return some pos else searchFrom p size n (pos + size)

section
variable {buf : List Byte} {pos n : Nat}

theorem byteAt_ok {b : Byte} : byteAt buf pos = .ok b ↔ buf[pos]? = some b := by
  unfold byteAt
  cases buf[pos]? with
  | none => simp
  | some c => simp

theorem stringAt_ok (h : IsString buf pos) : stringAt buf pos = .ok (cstring (buf.drop pos)) :=
  if_pos h

theorem asInt_ok {r : Nat} : asInt n = .ok r ↔ n < 2 ^ 31 ∧ r = n := by
  unfold asInt
  split
  · rename_i h
    exact ⟨fun he => ⟨h, (Except.ok.inj he).symm⟩, fun he => by rw [he.2]⟩
  · rename_i h
    exact ⟨nofun, fun he => absurd he.1 h⟩

theorem asInt_bind {α : Type} (f : Nat → C α) :
    asInt n >>= f = if n < 2 ^ 31 then f n else .error .fault := by
  unfold asInt
  split <;> rfl

theorem Field.get_ok {f : Field} {o : Order} (h : pos + f.offset + f.size ≤ buf.length) :
    f.get o buf pos = .ok (f.value o buf pos) :=
  if_pos h

theorem Field.get_eq_ok {f : Field} {o : Order} {v : Nat} :
    f.get o buf pos = .ok v ↔ pos + f.offset + f.size ≤ buf.length ∧ v = f.value o buf pos := by
  unfold Field.get
  split
  · rename_i h
    exact ⟨fun he => ⟨h, (Except.ok.inj he).symm⟩, fun he => by rw [he.2]⟩
  · rename_i h
    exact ⟨nofun, fun he => absurd he.1 h⟩

theorem Field.read_ok {f : Field} {o : Order} (h : pos + f.offset + f.size ≤ buf.length) :
    f.read o buf pos = .ok (f.reading o buf pos) :=
  if_pos h

theorem Field.eq_of_read {f : Field} {o : Order} {r : Read} (h : f.read o buf pos = .ok r) :
    r = f.reading o buf pos := by
  unfold Field.read at h
  split at h
  · exact (Except.ok.inj h).symm
  · cases h

theorem leNumber_lt (l : List Byte) : leNumber l < 256 ^ l.length := by
  induction l with
  | nil => exact Nat.one_pos
  | cons b l ih =>
    have hb := b.isLt
    rw [leNumber, List.length_cons, Nat.pow_succ]
    omega

theorem Order.number_lt (o : Order) (l : List Byte) : o.number l < 256 ^ l.length := by
  cases o with
  | little => exact leNumber_lt l
  | big => exact (leNumber_lt l.reverse).trans_eq (by rw [List.length_reverse])

theorem Field.value_lt (f : Field) (o : Order) : f.value o buf pos < 256 ^ f.size :=
  (o.number_lt _).trans_le (Nat.pow_le_pow_right (by decide) (List.length_take_le _ _))

end

/-! ## A search -/

section
variable {p : Nat → C Bool} {size n pos q : Nat}

theorem searchFrom_succ : searchFrom p size (n + 1) pos =
    p pos >>= fun found => if found then .ok (some pos) else searchFrom p size n (pos + size) := rfl

theorem next_place (j : Nat) : pos + size + size * j = pos + size * (j + 1) := by
  rw [Nat.mul_succ]
  omega

theorem searchFrom_none : searchFrom p size n pos = .ok none ↔
    ∀ j < n, p (pos + size * j) = .ok false := by
  induction n generalizing pos with
  | zero => exact ⟨fun _ _ hj => absurd hj (Nat.not_lt_zero _), fun _ => rfl⟩
  | succ n ih =>
    rw [searchFrom_succ, bind_ok, Nat.forall_lt_succ_left]
    simp only [← next_place, Nat.mul_zero, Nat.add_zero]
    constructor
    · rintro ⟨found, hp, h⟩
      cases found with
      | true => cases h
      | false => exact ⟨hp, ih.mp h⟩
    · rintro ⟨hp, h⟩
      exact ⟨false, hp, ih.mpr h⟩

theorem searchFrom_some : searchFrom p size n pos = .ok (some q) ↔
    ∃ j < n, q = pos + size * j ∧ p q = .ok true ∧ ∀ i < j, p (pos + size * i) = .ok false := by
  induction n generalizing pos with
  | zero => exact ⟨nofun, fun ⟨_, hj, _⟩ => absurd hj (Nat.not_lt_zero _)⟩
  | succ n ih =>
    rw [searchFrom_succ, bind_ok, Nat.exists_lt_succ_left]
    simp only [Nat.forall_lt_succ_left, ← next_place, Nat.mul_zero, Nat.add_zero, Nat.not_lt_zero]
    constructor
    · rintro ⟨found, hp, h⟩
      cases found with
      | true =>
        cases h
        exact Or.inl ⟨rfl, hp, by simp⟩
      | false =>
        obtain ⟨j, hj, hq, hpq, hbefore⟩ := ih.mp h
        exact Or.inr ⟨j, hj, hq, hpq, hp, hbefore⟩
    · rintro (⟨rfl, hp, -⟩ | ⟨j, hj, hq, hpq, hp, hbefore⟩)
      · exact ⟨true, hp, rfl⟩
      · exact ⟨false, hp, ih.mpr ⟨j, hj, hq, hpq, hbefore⟩⟩

end

/-! ## A computation for each element -/

section
variable {α β : Type} {f : α → C β}

theorem mapM_ok {l : List α} {r : List β} :
    l.mapM f = .ok r ↔ List.Forall₂ (fun a b => f a = .ok b) l r := by
  induction l generalizing r with
  | nil =>
    rw [List.mapM_nil, List.forall₂_nil_left_iff]
    exact ⟨fun h => (Except.ok.inj h).symm, fun h => h ▸ rfl⟩
  | cons a l ih =>
    rw [List.mapM_cons, bind_ok, List.forall₂_cons_left_iff]
    constructor
    · rintro ⟨b, hb, h⟩
      obtain ⟨bs, hbs, h⟩ := bind_ok.mp h
      cases h
      exact ⟨b, bs, hb, ih.mp hbs, rfl⟩
    · rintro ⟨b, bs, hb, hbs, rfl⟩
      exact ⟨b, hb, bind_ok.mpr ⟨bs, ih.mpr hbs, rfl⟩⟩

theorem mapM_exists {l : List α} : (∃ r, l.mapM f = .ok r) ↔ ∀ a ∈ l, ∃ b, f a = .ok b := by
  induction l with
  | nil => exact ⟨fun _ _ ha => absurd ha List.not_mem_nil, fun _ => ⟨[], rfl⟩⟩
  | cons a l ih =>
    rw [List.forall_mem_cons, ← ih]
    constructor
    · rintro ⟨r, h⟩
      obtain ⟨b, bs, hb, hbs, -⟩ := List.forall₂_cons_left_iff.mp (mapM_ok.mp h)
      exact ⟨⟨b, hb⟩, ⟨bs, mapM_ok.mpr hbs⟩⟩
    · rintro ⟨⟨b, hb⟩, ⟨bs, hbs⟩⟩
      exact ⟨b :: bs, mapM_ok.mpr (.cons hb (mapM_ok.mp hbs))⟩

/-- The values are those of `g`. -/
theorem mapM_eq_map {l : List α} {g : α → β} :
    l.mapM f = .ok (l.map g) ↔ ∀ a ∈ l, f a = .ok (g a) := by
  rw [mapM_ok, List.forall₂_map_right_iff, List.forall₂_same]

/-- A list that is read position by position. -/
theorem mapM_range {g : Nat → C α} {l : List α} (h : ∀ k a, l[k]? = some a → g k = .ok a) :
    (List.range l.length).mapM g = .ok l := by
  rw [mapM_ok, List.forall₂_iff_get]
  refine ⟨List.length_range, fun k _ hk => ?_⟩
  rw [List.get_eq_getElem, List.getElem_range]
  exact h k _ (List.getElem?_eq_getElem hk)

end

end Cs720.Lib
