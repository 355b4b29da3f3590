import Mathlib.Algebra.BigOperators.Ring.Finset
import Mathlib.Algebra.Order.Ring.Int
import Mathlib.Algebra.BigOperators.Group.Finset.Sigma
import Mathlib.Data.Int.ModEq
import Mathlib.Tactic.Ring

/-!
# Linear systems modulo a number

Systems of linear equations over the integers, read modulo `m`.  A row may be
replaced by a multiple of itself plus a multiple of another row, if the first
factor is a unit; two rows may be exchanged.  A system in reduced row echelon
form has a solution exactly if its zero rows have right-hand sides that vanish.
-/

namespace EthosCpc.Library.LinearMod

open Finset (mem_range mul_sum sum_congr)

/-- Coefficients and right-hand sides. -/
structure System where
  rhs : Nat → Int
  lhs : Nat → Nat → Int

variable {m u v c : Int} {nrows ncols r i j : Nat} {s s' t : System} {x : Nat → Int}

/-- How far row `i` is from holding. -/
def System.residue (s : System) (ncols : Nat) (x : Nat → Int) (i : Nat) : Int :=
  ∑ k ∈ Finset.range ncols, s.lhs i k * x k - s.rhs i

/-- `x` solves the system modulo `m`. -/
def Solves (m : Int) (nrows ncols : Nat) (s : System) (x : Nat → Int) : Prop :=
  ∀ i < nrows, m ∣ s.residue ncols x i

/-- The systems have the same solutions. -/
def Equivalent (m : Int) (nrows ncols : Nat) (s t : System) : Prop :=
  ∀ x, Solves m nrows ncols s x ↔ Solves m nrows ncols t x

lemma Equivalent.refl : Equivalent m nrows ncols s s := fun _ => Iff.rfl

lemma Equivalent.trans (h : Equivalent m nrows ncols s s') (h' : Equivalent m nrows ncols s' t) :
    Equivalent m nrows ncols s t := fun x => (h x).trans (h' x)

/-! ## Row operations -/

/-- Row `j` of `t` is `u` times row `j` plus `c` times row `i` of `s`. -/
structure Combines (m : Int) (ncols : Nat) (s t : System) (u c : Int) (j i : Nat) : Prop where
  lhs : ∀ k < ncols, t.lhs j k ≡ u * s.lhs j k + c * s.lhs i k [ZMOD m]
  rhs : t.rhs j ≡ u * s.rhs j + c * s.rhs i [ZMOD m]

/-- Row `j` is the same in both systems. -/
def SameRow (ncols : Nat) (s t : System) (j : Nat) : Prop :=
  (∀ k < ncols, t.lhs j k = s.lhs j k) ∧ t.rhs j = s.rhs j

lemma residue_of_sameRow (h : SameRow ncols s t j) : t.residue ncols x j = s.residue ncols x j := by
  unfold System.residue
  rw [h.2]
  congr 1
  exact sum_congr rfl fun k hk => by rw [h.1 k (mem_range.1 hk)]

lemma Combines.residue (h : Combines m ncols s t u c j i) :
    t.residue ncols x j ≡ u * s.residue ncols x j + c * s.residue ncols x i [ZMOD m] := by
  have hsum : ∑ k ∈ Finset.range ncols, t.lhs j k * x k ≡
      ∑ k ∈ Finset.range ncols, (u * s.lhs j k + c * s.lhs i k) * x k [ZMOD m] := by
    rw [Int.modEq_iff_dvd, ← Finset.sum_sub_distrib]
    refine Finset.dvd_sum fun k hk => ?_
    rw [← sub_mul]
    exact Dvd.dvd.mul_right ((h.lhs k (mem_range.1 hk)).dvd) _
  have hsplit : ∑ k ∈ Finset.range ncols, (u * s.lhs j k + c * s.lhs i k) * x k =
      u * ∑ k ∈ Finset.range ncols, s.lhs j k * x k +
        c * ∑ k ∈ Finset.range ncols, s.lhs i k * x k := by
    rw [mul_sum, mul_sum, ← Finset.sum_add_distrib]
    exact sum_congr rfl fun k _ => by ring
  unfold System.residue
  calc _ ≡ ∑ k ∈ Finset.range ncols, (u * s.lhs j k + c * s.lhs i k) * x k -
        (u * s.rhs j + c * s.rhs i) [ZMOD m] := hsum.sub h.rhs
    _ = _ := by
        rw [hsplit]
        ring

lemma dvd_of_modEq {a b : Int} (h : a ≡ b [ZMOD m]) : m ∣ a ↔ m ∣ b := by
  rw [← Int.modEq_zero_iff_dvd, ← Int.modEq_zero_iff_dvd]
  exact ⟨h.symm.trans, h.trans⟩

lemma dvd_unit_mul {a : Int} (hu : u * v ≡ 1 [ZMOD m]) : m ∣ u * a ↔ m ∣ a := by
  constructor
  · intro h
    have hv : m ∣ v * (u * a) := Dvd.dvd.mul_left h v
    have heq : v * (u * a) ≡ 1 * a [ZMOD m] := by
      rw [← mul_assoc, mul_comm v u]
      exact hu.mul_right a
    exact (one_mul a) ▸ (dvd_of_modEq heq).1 hv
  · exact fun h => Dvd.dvd.mul_left h u

lemma equivalent_of_combines (hu : u * v ≡ 1 [ZMOD m]) (hi : c = 0 ∨ (i < nrows ∧ i ≠ j))
    (hrow : Combines m ncols s t u c j i) (hother : ∀ r < nrows, r ≠ j → SameRow ncols s t r) :
    Equivalent m nrows ncols s t := by
  have hsame : ∀ x, ∀ r < nrows, r ≠ j → t.residue ncols x r = s.residue ncols x r :=
    fun x r hr hne => residue_of_sameRow (hother r hr hne)
  have hcombine : ∀ x, (i < nrows ∧ i ≠ j → m ∣ s.residue ncols x i) →
      (m ∣ t.residue ncols x j ↔ m ∣ s.residue ncols x j) := by
    intro x hdvd
    have hc : m ∣ c * s.residue ncols x i := by
      cases hi with
      | inl hc =>
        rw [hc, zero_mul]
        exact dvd_zero m
      | inr hi => exact Dvd.dvd.mul_left (hdvd hi) c
    rw [dvd_of_modEq hrow.residue, dvd_add_left hc, dvd_unit_mul hu]
  intro x
  constructor
  · intro hs r hr
    by_cases hne : r = j
    · subst hne
      exact (hcombine x fun hi => hs i hi.1).2 (hs r hr)
    · rw [hsame x r hr hne]
      exact hs r hr
  intro ht r hr
  by_cases hne : r = j
  swap
  · rw [← hsame x r hr hne]
    exact ht r hr
  subst hne
  refine (hcombine x fun hi => ?_).1 (ht r hr)
  rw [← hsame x i hi.1 hi.2]
  exact ht i hi.1

lemma equivalent_of_swap (hi : i < nrows) (hj : j < nrows) (hlhs : ∀ k, t.lhs i k = s.lhs j k)
    (hlhs' : ∀ k, t.lhs j k = s.lhs i k) (hrhs : t.rhs i = s.rhs j) (hrhs' : t.rhs j = s.rhs i)
    (hother : ∀ r < nrows, r ≠ i → r ≠ j → SameRow ncols s t r) :
    Equivalent m nrows ncols s t := by
  intro x
  have hres : t.residue ncols x i = s.residue ncols x j := by
    unfold System.residue
    simp only [hlhs, hrhs]
  have hres' : t.residue ncols x j = s.residue ncols x i := by
    unfold System.residue
    simp only [hlhs', hrhs']
  constructor
  · intro hs r hr
    by_cases hri : r = i
    · rw [hri, hres]
      exact hs j hj
    by_cases hrj : r = j
    · rw [hrj, hres']
      exact hs i hi
    · rw [residue_of_sameRow (hother r hr hri hrj)]
      exact hs r hr
  intro ht r hr
  by_cases hri : r = i
  · rw [hri, ← hres']
    exact ht j hj
  by_cases hrj : r = j
  · rw [hrj, ← hres]
    exact ht i hi
  · rw [← residue_of_sameRow (hother r hr hri hrj)]
    exact ht r hr

/-! ## Reduced row echelon form -/

/-- Rows below `r` have pivots in the columns `piv`, the others are zero. -/
structure Echelon (nrows ncols : Nat) (s : System) (piv : Nat → Nat) (r : Nat) : Prop where
  r_le : r ≤ nrows
  piv_lt : ∀ i < r, piv i < ncols
  mono : ∀ i j, i < j → j < r → piv i < piv j
  one : ∀ i < r, s.lhs i (piv i) = 1
  left : ∀ i < r, ∀ k < piv i, s.lhs i k = 0
  column : ∀ i < r, ∀ j < nrows, j ≠ i → s.lhs j (piv i) = 0
  zero : ∀ i, r ≤ i → i < nrows → ∀ k < ncols, s.lhs i k = 0

variable {piv : Nat → Nat}

lemma Echelon.residue_zero (h : Echelon nrows ncols s piv r) (hi : r ≤ i) (hi' : i < nrows) :
    s.residue ncols x i = - s.rhs i := by
  unfold System.residue
  rw [Finset.sum_eq_zero, zero_sub]
  intro k hk
  rw [h.zero i hi hi' k (mem_range.1 hk), zero_mul]

lemma Echelon.not_solves (h : Echelon nrows ncols s piv r) (hi : r ≤ i) (hi' : i < nrows)
    (hrhs : ¬ m ∣ s.rhs i) : ¬ Solves m nrows ncols s x := by
  intro hx
  have hdvd := hx i hi'
  rw [h.residue_zero hi hi', dvd_neg] at hdvd
  exact hrhs hdvd

/-- The pivot variables are the right-hand sides, the others are zero. -/
def basicSolution (s : System) (piv : Nat → Nat) (r k : Nat) : Int :=
  ∑ i ∈ Finset.range r, if k = piv i then s.rhs i else 0

lemma Echelon.residue_basicSolution (h : Echelon nrows ncols s piv r) (hi : i < r) :
    s.residue ncols (basicSolution s piv r) i = 0 := by
  unfold System.residue
  have hsum : ∑ k ∈ Finset.range ncols, s.lhs i k * basicSolution s piv r k =
      ∑ j ∈ Finset.range r, s.lhs i (piv j) * s.rhs j := by
    unfold basicSolution
    simp only [mul_sum]
    rw [Finset.sum_comm]
    refine sum_congr rfl fun j hj => ?_
    have hmem : piv j ∈ Finset.range ncols :=
      mem_range.2 (h.piv_lt j (mem_range.1 hj))
    rw [Finset.sum_eq_single_of_mem (piv j) hmem fun k _ hk => by rw [if_neg hk, mul_zero],
      if_pos rfl]
  have hi' : i < nrows := Nat.lt_of_lt_of_le hi h.r_le
  rw [hsum, Finset.sum_eq_single_of_mem i (mem_range.2 hi), h.one i hi, one_mul, sub_self]
  intro j hj hne
  rw [h.column j (mem_range.1 hj) i hi' hne.symm, zero_mul]

lemma Echelon.solvable (h : Echelon nrows ncols s piv r)
    (hrhs : ∀ i, r ≤ i → i < nrows → m ∣ s.rhs i) : ∃ x, Solves m nrows ncols s x := by
  refine ⟨basicSolution s piv r, fun i hi => ?_⟩
  by_cases hir : i < r
  · rw [h.residue_basicSolution hir]
    exact dvd_zero m
  · rw [h.residue_zero (Nat.le_of_not_lt hir) hi, dvd_neg]
    exact hrhs i (Nat.le_of_not_lt hir) hi

end EthosCpc.Library.LinearMod
