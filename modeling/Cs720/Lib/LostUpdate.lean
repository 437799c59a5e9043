import Mathlib.Algebra.BigOperators.Group.Finset.Piecewise
import Mathlib.Algebra.Order.BigOperators.Group.Finset
import Mathlib.Logic.Relation

/-! # A counter without a lock

Each thread of `ps` adds 1 to a shared counter in `n` turns, with a read and then a write. What the
others wrote in between is lost. `lost_updates_iff` says which sums can come out.
-/

namespace Cs720.Lib

/-- The counter, the writes of each thread, and what it has read in a turn that is under way. -/
@[ext]
structure Tally (I : Type*) where
  count : Nat
  done : I → Nat
  seen : I → Option Nat

namespace Tally

variable {I : Type*} [DecidableEq I]

/-- No thread has begun. -/
def start : Tally I := ⟨0, fun _ => 0, fun _ => none⟩

inductive Step (n : Nat) (i : I) (t : Tally I) : Tally I → Prop
  | read : t.seen i = none → t.done i < n →
      Step n i t { t with seen := Function.update t.seen i (some t.count) }
  | write {v : Nat} : t.seen i = some v →
      Step n i t ⟨v + 1, Function.update t.done i (t.done i + 1), Function.update t.seen i none⟩

/-- The runs of the threads of `ps`. -/
abbrev Run (n : Nat) (ps : Finset I) : Tally I → Tally I → Prop :=
  Relation.ReflTransGen fun t t' => ∃ i ∈ ps, Step n i t t'

theorem Step.unique {n : Nat} {i : I} {t a b : Tally I} (ha : Step n i t a) (hb : Step n i t b) :
    a = b := by
  cases ha with
  | read h =>
    cases hb with
    | read => rfl
    | write h' => cases h.symm.trans h'
  | write h =>
    cases hb with
    | read h' => cases h'.symm.trans h
    | write h' =>
      cases h.symm.trans h'
      rfl

theorem Step.other {n : Nat} {i j : I} {t t' : Tally I} (h : Step n i t t') (hj : j ≠ i) :
    t'.seen j = t.seen j ∧ t'.done j = t.done j := by
  cases h with
  | read => exact ⟨Function.update_of_ne hj _ _, rfl⟩
  | write => exact ⟨Function.update_of_ne hj _ _, Function.update_of_ne hj _ _⟩

section
variable {n : Nat} {ps : Finset I} {t t' : Tally I} {i : I}

/-! ## What every run keeps -/

/-- The writes of all threads. -/
def total (ps : Finset I) (t : Tally I) : Nat := ∑ i ∈ ps, t.done i

/-- The upper bound, and how far the writes of each thread lift the counter. -/
structure Bounded (n : Nat) (ps : Finset I) (t : Tally I) : Prop where
  done_le : ∀ i ∈ ps, t.done i ≤ n
  open_lt : ∀ i ∈ ps, ∀ v, t.seen i = some v → t.done i < n
  count_le : t.count ≤ t.total ps
  seen_le : ∀ i ∈ ps, ∀ v, t.seen i = some v → v ≤ t.total ps
  count_pos : ∀ i ∈ ps, 0 < t.done i → 0 < t.count
  seen_pos : ∀ i ∈ ps, ∀ v, t.seen i = some v → 0 < t.done i → 0 < v
  two_le : 2 ≤ t.count ∨ ∃ i ∈ ps, t.done i ≤ 1

omit [DecidableEq I] in
theorem bounded_start (hps : ps.Nonempty) : Bounded n ps start := by
  obtain ⟨i, hi⟩ := hps
  constructor
  · simp [start]
  · simp [start]
  · simp [start]
  · simp [start]
  · simp [start]
  · simp [start]
  · exact Or.inr ⟨i, hi, by simp [start]⟩

theorem total_write (hi : i ∈ ps) (v : Nat) :
    total ps ⟨v + 1, Function.update t.done i (t.done i + 1), Function.update t.seen i none⟩ =
      t.total ps + 1 := by
  unfold total
  rw [Finset.sum_update_of_mem hi, Finset.sdiff_singleton_eq_erase,
    ← Finset.add_sum_erase ps t.done hi]
  omega

theorem Bounded.step (h : Bounded n ps t) (hi : i ∈ ps) (hstep : Step n i t t') :
    Bounded n ps t' := by
  cases hstep with
  | read hnone hlt =>
    have hseen : ∀ j v, Function.update t.seen i (some t.count) j = some v →
        j = i ∧ v = t.count ∨ t.seen j = some v := by
      intro j v hv
      rcases eq_or_ne j i with rfl | hj
      · rw [Function.update_self] at hv
        exact Or.inl ⟨rfl, (Option.some.inj hv).symm⟩
      · rw [Function.update_of_ne hj] at hv
        exact Or.inr hv
    constructor
    · exact h.done_le
    · intro j hj v hv
      rcases hseen j v hv with ⟨rfl, -⟩ | hv
      · exact hlt
      · exact h.open_lt j hj v hv
    · exact h.count_le
    · intro j hj v hv
      rcases hseen j v hv with ⟨-, rfl⟩ | hv
      · exact h.count_le
      · exact h.seen_le j hj v hv
    · exact h.count_pos
    · intro j hj v hv hpos
      rcases hseen j v hv with ⟨rfl, rfl⟩ | hv
      · exact h.count_pos j hj hpos
      · exact h.seen_pos j hj v hv hpos
    · exact h.two_le
  | @write v hv =>
    have hseen : ∀ j w, Function.update t.seen i none j = some w → j ≠ i ∧ t.seen j = some w := by
      intro j w hw
      rcases eq_or_ne j i with rfl | hj
      · rw [Function.update_self] at hw
        cases hw
      · rw [Function.update_of_ne hj] at hw
        exact ⟨hj, hw⟩
    constructor
    · intro j hj
      dsimp only
      rcases eq_or_ne j i with rfl | hji
      · rw [Function.update_self]
        exact h.open_lt j hj v hv
      · rw [Function.update_of_ne hji]
        exact h.done_le j hj
    · intro j hj w hw
      obtain ⟨hji, hw⟩ := hseen j w hw
      dsimp only
      rw [Function.update_of_ne hji]
      exact h.open_lt j hj w hw
    · rw [total_write hi]
      exact Nat.add_le_add_right (h.seen_le i hi v hv) 1
    · intro j hj w hw
      rw [total_write hi]
      exact Nat.le_succ_of_le (h.seen_le j hj w (hseen j w hw).2)
    · intro j _ _
      exact Nat.succ_pos v
    · intro j hj w hw hpos
      obtain ⟨hji, hw⟩ := hseen j w hw
      dsimp only at hpos
      rw [Function.update_of_ne hji] at hpos
      exact h.seen_pos j hj w hw hpos
    · -- The first write of a thread leaves it with one; a later one writes at least 2.
      rcases Nat.eq_zero_or_pos (t.done i) with h0 | hpos
      · exact Or.inr ⟨i, hi, by simp [h0]⟩
      · exact Or.inl (Nat.succ_le_succ (h.seen_pos i hi v hv hpos))

theorem Bounded.run (h : Bounded n ps t) (hrun : Run n ps t t') : Bounded n ps t' := by
  induction hrun with
  | refl => exact h
  | tail _ hstep ih =>
    obtain ⟨i, hi, hstep⟩ := hstep
    exact ih.step hi hstep

/-- A thread on its own loses nothing. -/
def Alone (i : I) (t : Tally I) : Prop :=
  t.count = t.done i ∧ ∀ v, t.seen i = some v → v = t.done i

theorem alone_run (h : Alone i t) (hrun : Run n {i} t t') : Alone i t' := by
  induction hrun with
  | refl => exact h
  | tail _ hstep ih =>
    obtain ⟨j, hj, hstep⟩ := hstep
    obtain rfl := Finset.mem_singleton.mp hj
    obtain ⟨hcount, hseen⟩ := ih
    cases hstep with
    | read => exact ⟨hcount, fun v hv => by simpa [hcount, eq_comm] using hv⟩
    | write hv => exact ⟨by simp [hseen _ hv], fun w hw => by simp at hw⟩

/-! ## What runs can do -/

theorem run_read (hi : i ∈ ps) (hnone : t.seen i = none) (hlt : t.done i < n) :
    Run n ps t { t with seen := Function.update t.seen i (some t.count) } :=
  .single ⟨i, hi, .read hnone hlt⟩

theorem run_write (hi : i ∈ ps) {v : Nat} (hv : t.seen i = some v) :
    Run n ps t ⟨v + 1, Function.update t.done i (t.done i + 1), Function.update t.seen i none⟩ :=
  .single ⟨i, hi, .write hv⟩

/-- A turn with nothing in between. -/
theorem run_turn (hi : i ∈ ps) (hnone : t.seen i = none) (hlt : t.done i < n) :
    Run n ps t ⟨t.count + 1, Function.update t.done i (t.done i + 1), t.seen⟩ := by
  have hwrite := run_write (n := n)
    (t := { t with seen := Function.update t.seen i (some t.count) }) hi (Function.update_self ..)
  rw [Function.update_idem, ← hnone, Function.update_eq_self] at hwrite
  exact (run_read hi hnone hlt).trans hwrite

/-- Idle threads do `k` turns, one after the other, as long as their caps allow it. -/
theorem run_turns {qs : Finset I} (hqs : qs ⊆ ps) (cap : I → Nat) (hcap : ∀ i ∈ qs, cap i ≤ n)
    {k : Nat} (hidle : ∀ i ∈ qs, t.seen i = none) (hdone : ∀ i ∈ qs, t.done i ≤ cap i)
    (hk : t.total qs + k ≤ ∑ i ∈ qs, cap i) :
    ∃ done, Run n ps t ⟨t.count + k, done, t.seen⟩ ∧ (∀ i ∉ qs, done i = t.done i) ∧
      (∀ i ∈ qs, done i ≤ cap i) ∧ ∑ i ∈ qs, done i = t.total qs + k := by
  induction k generalizing t with
  | zero => exact ⟨t.done, .refl, fun _ _ => rfl, hdone, rfl⟩
  | succ k ih =>
    obtain ⟨i, hi, hlt⟩ : ∃ i ∈ qs, t.done i < cap i := by
      by_contra hnot
      have hle : ∑ i ∈ qs, cap i ≤ t.total qs :=
        Finset.sum_le_sum fun i hi => not_lt.mp fun hlt => hnot ⟨i, hi, hlt⟩
      omega
    have hturn := run_turn (hqs hi) (hidle i hi) (hlt.trans_le (hcap i hi))
    have htotal : total qs ⟨t.count + 1, Function.update t.done i (t.done i + 1), t.seen⟩ =
        t.total qs + 1 := total_write hi t.count
    obtain ⟨done, hrun, hother, hle, hsum⟩ :=
      ih (t := ⟨t.count + 1, Function.update t.done i (t.done i + 1), t.seen⟩) hidle
        (fun j hj => by
          rcases eq_or_ne j i with rfl | hji
          · simpa using Nat.succ_le_of_lt hlt
          · simpa [hji] using hdone j hj)
        (by rw [htotal]; omega)
    refine ⟨done, ?_, ?_, hle, ?_⟩
    · rw [Nat.add_comm k 1, ← Nat.add_assoc]
      exact hturn.trans hrun
    · intro j hj
      rw [hother j hj]
      refine Function.update_of_ne ?_ _ _
      rintro rfl
      exact hj hi
    · rw [hsum, htotal]
      omega

/-- All threads have done their turns. -/
def Over (n : Nat) (ps : Finset I) (t : Tally I) : Prop := ∀ i ∈ ps, t.done i = n ∧ t.seen i = none

/-- All turns that are left. -/
theorem run_rest (hidle : ∀ i ∈ ps, t.seen i = none) (hdone : ∀ i ∈ ps, t.done i ≤ n) :
    ∃ t', Run n ps t t' ∧ Over n ps t' ∧
      t'.count + t.total ps = t.count + ps.card * n := by
  have hcard : ∑ _i ∈ ps, n = ps.card * n := Finset.sum_const_nat fun _ _ => rfl
  have hle : t.total ps ≤ ∑ _i ∈ ps, n := Finset.sum_le_sum hdone
  obtain ⟨done, hrun, -, hcap, hsum⟩ := run_turns (k := ps.card * n - t.total ps) subset_rfl
    (fun _ => n) (fun _ _ => le_rfl) hidle hdone (by omega)
  refine ⟨_, hrun, fun i hi => ⟨?_, hidle i hi⟩, ?_⟩
  · refine (Finset.sum_eq_sum_iff_of_le hcap).mp ?_ i hi
    omega
  · dsimp only
    omega

/-- The least count that `p` threads can come to. -/
def least (p n : Nat) : Nat := if p = 1 then n else min n 2

/-! ## The final counts -/

theorem count_ge (hps : ps.Nonempty) (hn : 1 ≤ n) (hrun : Run n ps start t) (hover : Over n ps t) :
    least ps.card n ≤ t.count := by
  have hbound := (bounded_start (n := n) hps).run hrun
  unfold least
  split
  · rename_i hone
    obtain ⟨i, rfl⟩ := Finset.card_eq_one.mp hone
    have halone := alone_run (i := i) ⟨rfl, by simp [start]⟩ hrun
    rw [halone.1, (hover i (by simp)).1]
  · obtain ⟨i, hi⟩ := hps
    have hpos := hbound.count_pos i hi
    rw [(hover i hi).1] at hpos
    rcases hbound.two_le with h | ⟨j, hj, h⟩
    · omega
    · rw [(hover j hj).1] at h
      omega

theorem count_le (hps : ps.Nonempty) (hrun : Run n ps start t) (hover : Over n ps t) :
    t.count ≤ ps.card * n := by
  have hbound := (bounded_start (n := n) hps).run hrun
  refine hbound.count_le.trans_eq ?_
  exact Finset.sum_const_nat fun i hi => (hover i hi).1

/-- One thread reads, the others do `k` turns, and it writes. -/
theorem run_lose (hi : i ∈ ps) (hn : 1 ≤ n) (cap : I → Nat) (hcap : ∀ j, cap j ≤ n) {k : Nat}
    (hk : k ≤ ∑ j ∈ ps.erase i, cap j) :
    ∃ done, Run n ps start ⟨1, done, fun _ => none⟩ ∧ done i = 1 ∧
      (∀ j ∈ ps.erase i, done j ≤ cap j) ∧ ∑ j ∈ ps.erase i, done j = k := by
  have hread : Run n ps start ⟨0, fun _ => 0, Function.update (fun _ => none) i (some 0)⟩ :=
    run_read hi rfl hn
  have hself : Function.update (fun _ => none) i (some 0) i = some 0 := Function.update_self ..
  have hidle : ∀ j ∈ ps.erase i, Function.update (fun _ => none) i (some 0) j = none :=
    fun j hj => Function.update_of_ne (Finset.ne_of_mem_erase hj) _ _
  obtain ⟨done, hrun, hother, hle, hsum⟩ := run_turns (k := k)
    (t := ⟨0, fun _ => 0, Function.update (fun _ => none) i (some 0)⟩) (Finset.erase_subset i ps)
    cap (fun j _ => hcap j) hidle (fun j _ => Nat.zero_le _) (by simpa [total] using hk)
  have hdone : done i = 0 := hother i (Finset.notMem_erase i ps)
  have hwrite := run_write (n := n)
    (t := ⟨0 + k, done, Function.update (fun _ => none) i (some 0)⟩) hi hself
  dsimp only at hwrite
  rw [Function.update_idem, hdone, Function.update_eq_self_iff.mpr rfl] at hwrite
  have hrest : ∀ j ∈ ps.erase i, Function.update done i (0 + 1) j = done j :=
    fun j hj => Function.update_of_ne (Finset.ne_of_mem_erase hj) _ _
  refine ⟨_, (hread.trans hrun).trans hwrite, Function.update_self .., ?_, ?_⟩
  · intro j hj
    rw [hrest j hj]
    exact hle j hj
  · rw [Finset.sum_congr rfl hrest, hsum]
    simp [total]

/-- After the first write of `i` a thread `j` reads for its last turn, `i` does `k` turns, and `j`
writes. -/
theorem run_lose_last {j : I} (hi : i ∈ ps) (hj : j ∈ ps.erase i) {k : Nat} (hk : k + 1 ≤ n) :
    ∃ done, Run n ps start ⟨2, done, fun _ => none⟩ ∧ done i = k + 1 ∧
      ∀ l ∈ ps.erase i, done l = n := by
  have hji := Finset.ne_of_mem_erase hj
  have hjps := Finset.mem_of_mem_erase hj
  have hcap : ∀ l, Function.update (fun _ => n) j (n - 1) l ≤ n := by
    intro l
    rcases eq_or_ne l j with rfl | hl
    · simp
    · simp [hl]
  obtain ⟨done, hrun, hone, hle, hsum⟩ := run_lose hi (by omega) _ hcap le_rfl
  have hfull := (Finset.sum_eq_sum_iff_of_le hle).mp hsum
  have hdonej : done j = n - 1 := by rw [hfull j hj, Function.update_self]
  have hread : Run n ps ⟨1, done, fun _ => none⟩
      ⟨1, done, Function.update (fun _ => none) j (some 1)⟩ :=
    run_read hjps rfl (by dsimp only; omega)
  have hnone : Function.update (fun _ => none) j (some 1) i = none :=
    Function.update_of_ne hji.symm _ _
  obtain ⟨done', hturns, hother, -, hsum'⟩ := run_turns (k := k)
    (t := ⟨1, done, Function.update (fun _ => none) j (some 1)⟩)
    (Finset.singleton_subset_iff.mpr hi) (fun _ => n) (fun _ _ => le_rfl)
    (fun l hl => by rw [Finset.mem_singleton.mp hl]; exact hnone)
    (fun l hl => by rw [Finset.mem_singleton.mp hl]; exact hone.trans_le (by omega))
    (by simpa [total, hone, Nat.add_comm] using hk)
  have hself : Function.update (fun _ => none) j (some 1) j = some 1 := Function.update_self ..
  have hwrite := run_write (n := n)
    (t := ⟨1 + k, done', Function.update (fun _ => none) j (some 1)⟩) hjps hself
  dsimp only at hwrite
  rw [Function.update_idem, Function.update_eq_self_iff.mpr rfl] at hwrite
  refine ⟨_, ((hrun.trans hread).trans hturns).trans hwrite, ?_, fun l hl => ?_⟩
  · rw [Function.update_of_ne hji.symm]
    simpa [total, hone, Nat.add_comm] using hsum'
  · have hli := Finset.ne_of_mem_erase hl
    have hsame : ∀ l ≠ i, done' l = done l := fun l hl => hother l (by simpa using hl)
    rcases eq_or_ne l j with rfl | hlj
    · rw [Function.update_self, hsame l hli, hdonej]
      omega
    · rw [Function.update_of_ne hlj, hsame l hli, hfull l hl, Function.update_of_ne hlj]

/-- Every count from the least one on comes out. If the others cannot lose as much as it takes
between the first read and the first write of `i`, then `i` does its turns between the last read and
the last write of some `j`. -/
theorem count_attained (hps : ps.Nonempty) (hn : 1 ≤ n) {c : Nat} (hlow : least ps.card n ≤ c)
    (hhigh : c ≤ ps.card * n) : ∃ t, Run n ps start t ∧ Over n ps t ∧ t.count = c := by
  obtain ⟨i, hi⟩ := hps
  have hcard := Finset.card_erase_add_one hi
  have hmul : ps.card * n = (ps.erase i).card * n + n := by rw [← hcard, Nat.add_one_mul]
  have hfinish : ∀ b done, Run n ps start ⟨b, done, fun _ => none⟩ → (∀ j ∈ ps, done j ≤ n) →
      b + ps.card * n = c + (done i + ∑ j ∈ ps.erase i, done j) →
      ∃ t, Run n ps start t ∧ Over n ps t ∧ t.count = c := by
    intro b done hrun hle hsum
    obtain ⟨t, hrest, hover, hcount⟩ := run_rest (t := ⟨b, done, fun _ => none⟩)
      (fun _ _ => rfl) hle
    refine ⟨t, hrun.trans hrest, hover, ?_⟩
    have htotal : total ps ⟨b, done, fun _ => none⟩ = done i + ∑ j ∈ ps.erase i, done j :=
      (Finset.add_sum_erase ps done hi).symm
    dsimp only at hcount
    omega
  unfold least at hlow
  rcases le_or_gt (ps.card * n - c) ((ps.erase i).card * n) with hfew | hmany
  · obtain ⟨done, hrun, hone, hle, hsum⟩ := run_lose (k := ps.card * n - c) hi hn (fun _ => n)
      (fun _ => le_rfl) (hfew.trans_eq (Finset.sum_const_nat fun _ _ => rfl).symm)
    refine hfinish 1 done hrun (fun j hj => ?_) ?_
    · rcases eq_or_ne j i with rfl | hji
      · exact hone.trans_le hn
      · exact hle j (Finset.mem_erase.mpr ⟨hji, hj⟩)
    · split at hlow <;> omega
  · have hcn : c < n := by omega
    have hmany : ps.card ≠ 1 := by
      intro hone
      rw [if_pos hone] at hlow
      omega
    rw [if_neg hmany] at hlow
    obtain ⟨j, hj⟩ : (ps.erase i).Nonempty := Finset.card_pos.mp (by omega)
    obtain ⟨done, hrun, hdone, hfull⟩ := run_lose_last (n := n) (k := n + 1 - c) hi hj (by omega)
    have hsum : ∑ l ∈ ps.erase i, done l = (ps.erase i).card * n := Finset.sum_const_nat hfull
    refine hfinish 2 done hrun (fun l hl => ?_) (by omega)
    rcases eq_or_ne l i with rfl | hli
    · omega
    · exact (hfull l (Finset.mem_erase.mpr ⟨hli, hl⟩)).le

/-- The counts that come out when all threads have done their turns. -/
theorem lost_updates_iff (hps : ps.Nonempty) (hn : 1 ≤ n) {c : Nat} :
    (∃ t, Run n ps start t ∧ Over n ps t ∧ t.count = c) ↔
      least ps.card n ≤ c ∧ c ≤ ps.card * n := by
  constructor
  · rintro ⟨t, hrun, hover, rfl⟩
    exact ⟨count_ge hps hn hrun hover, count_le hps hrun hover⟩
  · rintro ⟨hlow, hhigh⟩
    exact count_attained hps hn hlow hhigh

end

end Tally

end Cs720.Lib
