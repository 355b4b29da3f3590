import EthosCpc.Library.Loop
import Mathlib.Algebra.Order.Archimedean.Basic
import Mathlib.Tactic.Positivity
import EthosCpc.Library.Inversion

/-!
# Rational approximations of constants in cvc5

`getApproximateConstant` of `theory/arith/arith_utilities.cpp`.  The absolute
value of the constant is scaled below one by a power of ten, and the grid of
multiples of `10^-prec` is searched by halving.  The result is rounded in the
right direction for positive constants only, and its error is scaled back with
it.
-/

namespace EthosCpc.Cvc5.Approximate

open Library
open Option (bind_eq_some_iff some.inj)
open Int (cast_natCast fract)

/-! ## The function -/

/-- A round of the loop that scales the constant: `cr` and `pow_ten`. -/
def scaleStep (s : ℚ × ℚ) : Option (ℚ × ℚ) :=
  if s.1 ≥ 1 then some (s.1 / 10, s.2 * 10) else none

/-- `curr`, for the bounds `lower` and `upper` of type `unsigned`. -/
def midpoint (s : ℕ × ℕ) : ℕ := (s.1 + s.2) % 2 ^ 32 / 2

/-- A round of the binary search, which ends at an error of at most `allow_err`. -/
def searchStep (cr den : ℚ) (s : ℕ × ℕ) : Option (ℕ × ℕ) :=
  let err := cr - midpoint s / den
  if |err| ≤ 1 / den then none
  else if err < 0 then some (s.1, midpoint s) else some (midpoint s, s.2)

/-- `curr_r`, moved to the side that is asked for. -/
def corrected (cr den : ℚ) (isLower : Bool) (curr : ℕ) : ℚ :=
  let err := cr - curr / den
  if 0 < err ∧ isLower = false then ((curr + 1) % 2 ^ 32 : ℕ) / den
  else if err < 0 ∧ isLower = true then ((curr + (2 ^ 32 - 1)) % 2 ^ 32 : ℕ) / den
  else curr / den

/-- `getApproximateConstant`, with at most `k` and `k'` rounds of its loops. -/
def getApproximateConstant (k k' : ℕ) (c : ℚ) (isLower : Bool) (prec : ℕ) : Option ℚ :=
  if c.den < 10 ^ prec then some c
  else if c = 0 then none
  else do
    let (cr, powTen) ← Loop.run scaleStep k (|c|, 1)
    let s ← Loop.run (searchStep cr (10 ^ prec : ℕ)) k' (0, 10 ^ prec)
    let r := corrected cr (10 ^ prec : ℕ) isLower (midpoint s) * powTen
    some (if 0 < c then r else -r)

/-- The bounds that are asked for. -/
def Brackets (c : ℚ) (isLower : Bool) (prec : ℕ) (c' : ℚ) : Prop :=
  if isLower then c' ≤ c ∧ c ≤ c' + 1 / 10 ^ prec else c' - 1 / 10 ^ prec ≤ c ∧ c ≤ c'

/-! ## Scaling -/

/-- `10^j` is the least power of ten above `a`. -/
def Scale (a : ℚ) (j : ℕ) : Prop := a < 10 ^ j ∧ ∀ i < j, (10 : ℚ) ^ i ≤ a

lemma exists_scale (a : ℚ) : ∃ j, Scale a j := by
  have hex : ∃ j : ℕ, a < 10 ^ j := pow_unbounded_of_one_lt a (by norm_num)
  exact ⟨Nat.find hex, Nat.find_spec hex, fun i hi => not_lt.1 (Nat.find_min hex hi)⟩

variable {a : ℚ}

lemma scaleStep_of_le {i : ℕ} (h : (10 : ℚ) ^ i ≤ a) :
    scaleStep (a / 10 ^ i, 10 ^ i) = some (a / 10 ^ (i + 1), 10 ^ (i + 1)) := by
  have hpos : (0 : ℚ) < 10 ^ i := by positivity
  rw [scaleStep, if_pos ((one_le_div hpos).2 h), pow_succ, div_div]

lemma reaches_scale {j : ℕ} (h : Scale a j) :
    Loop.Reaches scaleStep (a, 1) (a / 10 ^ j, 10 ^ j) := by
  have hreach : ∀ i ≤ j, Loop.Reaches scaleStep (a, 1) (a / 10 ^ i, 10 ^ i) := by
    intro i hi
    induction i with
    | zero =>
      rw [pow_zero, div_one]
      exact .refl
    | succ i ih => exact .tail (ih (by omega)) (scaleStep_of_le (h.2 i (by omega)))
  exact hreach j le_rfl

lemma scaleStep_end {j : ℕ} (h : Scale a j) : scaleStep (a / 10 ^ j, 10 ^ j) = none := by
  have hpos : (0 : ℚ) < 10 ^ j := by positivity
  exact if_neg (not_le.2 ((div_lt_one hpos).2 h.1))

/-! ## Searching -/

section Search

variable {cr : ℚ} {n : ℕ} {s : ℕ × ℕ}

/-- The searched number lies between the bounds. -/
structure Between (cr : ℚ) (n : ℕ) (s : ℕ × ℕ) : Prop where
  lower : (s.1 : ℚ) < cr * n
  upper : cr * n < s.2
  le : s.2 ≤ n

lemma Between.lt (h : Between cr n s) : s.1 < s.2 := by
  exact_mod_cast h.lower.trans h.upper

lemma Between.midpoint_eq (h : Between cr n s) (hn : n < 2 ^ 31) :
    midpoint s = (s.1 + s.2) / 2 := by
  have := h.lt
  have := h.le
  rw [midpoint, Nat.mod_eq_of_lt (by omega)]

lemma abs_err_le_iff (hn : 0 < n) (curr : ℕ) :
    |cr - curr / n| ≤ 1 / (n : ℚ) ↔ |cr * n - curr| ≤ 1 := by
  have hpos : (0 : ℚ) < n := Nat.cast_pos.2 hn
  have heq : cr - curr / n = (cr * n - curr) / n := by field_simp
  rw [heq, abs_div, abs_of_pos hpos, div_le_div_iff_of_pos_right hpos]

lemma err_neg_iff (hn : 0 < n) (curr : ℕ) : cr - curr / n < 0 ↔ cr * n < curr := by
  have hpos : (0 : ℚ) < n := Nat.cast_pos.2 hn
  rw [sub_neg, lt_div_iff₀ hpos]

lemma err_pos_iff (hn : 0 < n) (curr : ℕ) : 0 < cr - curr / n ↔ curr < cr * n := by
  have hpos : (0 : ℚ) < n := Nat.cast_pos.2 hn
  rw [sub_pos, div_lt_iff₀ hpos]

/-- A round keeps the bounds around the number and moves one of them to the middle. -/
lemma Between.step {s' : ℕ × ℕ} (h : Between cr n s) (hn : 0 < n) (hlt : n < 2 ^ 31)
    (hstep : searchStep cr n s = some s') : Between cr n s' ∧ s'.2 - s'.1 < s.2 - s.1 := by
  unfold searchStep at hstep
  simp only [abs_err_le_iff hn, err_neg_iff hn] at hstep
  have hmid := h.midpoint_eq hlt
  have hbounds := h.lt
  split at hstep
  · cases hstep
  rename_i hfar
  -- Bounds next to each other have the number within one of the lower one.
  have hwide : s.1 + 1 < s.2 := by
    by_contra hnarrow
    have hlow : midpoint s = s.1 := by omega
    refine hfar ?_
    rw [hlow, abs_le]
    have h1 := h.lower
    have h2 : (s.2 : ℚ) ≤ s.1 + 1 := by exact_mod_cast not_lt.1 hnarrow
    have h3 := h.upper
    constructor <;> linarith
  split at hstep
  · rename_i hneg
    cases hstep
    refine ⟨⟨h.lower, hneg, ?_⟩, ?_⟩
    · have := h.le
      show midpoint s ≤ n
      omega
    · show midpoint s - s.1 < s.2 - s.1
      omega
  rename_i hnneg
  cases hstep
  refine ⟨⟨?_, h.upper, h.le⟩, ?_⟩
  · refine lt_of_le_of_ne (not_lt.1 hnneg) fun heq => hfar ?_
    rw [heq, sub_self, abs_zero]
    exact zero_le_one
  · show s.2 - midpoint s < s.2 - s.1
    omega

lemma Between.ends (h : Between cr n s) (hn : 0 < n) (hlt : n < 2 ^ 31) :
    ∃ z, Loop.Reaches (searchStep cr n) s z ∧ searchStep cr n z = none ∧ Between cr n z := by
  induction hk : s.2 - s.1 using Nat.strong_induction_on generalizing s with
  | _ k ih =>
    cases hstep : searchStep cr n s with
    | none => exact ⟨s, .refl, hstep, h⟩
    | some s' =>
      obtain ⟨hs', hless⟩ := h.step hn hlt hstep
      obtain ⟨z, hz, hend, hbetween⟩ := ih _ (hk ▸ hless) hs' rfl
      exact ⟨z, .head hstep hz, hend, hbetween⟩

lemma searchStep_eq_none (hn : 0 < n) (h : searchStep cr n s = none) :
    |cr * n - midpoint s| ≤ 1 := by
  unfold searchStep at h
  simp only [abs_err_le_iff hn] at h
  split at h
  · assumption
  · split at h <;> contradiction

/-- The numerator of the result of a search that ends in the middle `curr`. -/
def numerator (x : ℚ) (isLower : Bool) (curr : ℕ) : ℕ :=
  if (curr : ℚ) < x ∧ isLower = false then curr + 1
  else if x < curr ∧ isLower = true then curr - 1 else curr

lemma corrected_eq (hn : 0 < n) (hcr : 0 < cr) {curr : ℕ} (hcurr : curr < 2 ^ 31)
    (isLower : Bool) : corrected cr n isLower curr = numerator (cr * n) isLower curr / n := by
  have hx : 0 < cr * n := mul_pos hcr (Nat.cast_pos.2 hn)
  unfold corrected numerator
  simp only [err_pos_iff hn, err_neg_iff hn]
  split
  · rw [Nat.mod_eq_of_lt (by omega)]
  split
  swap
  · rfl
  rename_i hless
  have hpos : 0 < curr := by exact_mod_cast hx.trans hless.1
  rw [show curr + (2 ^ 32 - 1) = curr - 1 + 2 ^ 32 by omega, Nat.add_mod_right,
    Nat.mod_eq_of_lt (by omega)]

end Search

/-! ## Rounding -/

section Rounding

variable {x : ℚ} {curr : ℕ}

lemma numerator_lower (hx : 0 < x) (hnear : |x - curr| ≤ 1) :
    (numerator x true curr : ℚ) ≤ x ∧ x ≤ numerator x true curr + 1 := by
  obtain ⟨hlow, hhigh⟩ := abs_le.1 hnear
  unfold numerator
  rw [if_neg (by simp)]
  split
  swap
  · rename_i hle
    have hle : (curr : ℚ) ≤ x := not_lt.1 fun h => hle ⟨h, rfl⟩
    exact ⟨hle, by linarith⟩
  rename_i hless
  have hpos : 0 < curr := by exact_mod_cast hx.trans hless.1
  rw [Nat.cast_sub hpos, Nat.cast_one]
  constructor <;> linarith [hless.1]

lemma numerator_upper (hnear : |x - curr| ≤ 1) :
    x ≤ numerator x false curr ∧ (numerator x false curr : ℚ) ≤ x + 1 := by
  obtain ⟨hlow, hhigh⟩ := abs_le.1 hnear
  unfold numerator
  split
  · rename_i hless
    rw [Nat.cast_add, Nat.cast_one]
    constructor <;> linarith [hless.1]
  rename_i hle
  have hle : x ≤ curr := not_lt.1 fun h => hle ⟨h, rfl⟩
  rw [if_neg (by simp)]
  exact ⟨hle, by linarith⟩

/-- A number that is no integer is rounded down or up. -/
lemma sub_numerator_lower (hx : 0 < x) (hnear : |x - curr| ≤ 1) (hfract : fract x ≠ 0) :
    x - numerator x true curr = fract x := by
  obtain ⟨hle, hge⟩ := numerator_lower hx hnear
  have hlt : x < numerator x true curr + 1 := by
    refine lt_of_le_of_ne hge fun heq => hfract ?_
    rw [heq]
    exact_mod_cast Int.fract_natCast (numerator x true curr + 1)
  have hfloor : ⌊x⌋ = (numerator x true curr : ℤ) := by
    rw [Int.floor_eq_iff]
    rw [cast_natCast]
    exact ⟨hle, hlt⟩
  rw [fract, hfloor, cast_natCast]

lemma numerator_upper_sub (hnear : |x - curr| ≤ 1) (hfract : fract x ≠ 0) :
    numerator x false curr - x = ⌈x⌉ - x := by
  obtain ⟨hle, hge⟩ := numerator_upper hnear
  have hlt : (numerator x false curr : ℚ) - 1 < x := by
    refine lt_of_le_of_ne (by linarith) fun heq => hfract ?_
    rw [← heq]
    exact_mod_cast Int.fract_intCast ((numerator x false curr : ℤ) - 1)
  have hceil : ⌈x⌉ = (numerator x false curr : ℤ) := by
    rw [Int.ceil_eq_iff]
    rw [cast_natCast]
    exact ⟨hlt, hle⟩
  rw [hceil, cast_natCast]

/-- The result is the number itself if and only if the search ends there, or next to it on the
side away from which it is moved. -/
lemma numerator_eq_iff {m : ℕ} (hm : 0 < m) (isLower : Bool) :
    numerator (m : ℚ) isLower curr = m ↔ curr = m ∨ curr = if isLower then m + 1 else m - 1 := by
  unfold numerator
  cases isLower with
  | true =>
    simp only [Bool.true_eq_false, and_false, if_false, and_true, if_true, Nat.cast_lt]
    split <;> omega
  | false =>
    simp only [Bool.false_eq_true, and_false, if_false, and_true, Nat.cast_lt]
    split <;> omega

end Rounding

/-! ## When the result brackets the constant -/

lemma Scale.unique {i j : ℕ} (hi : Scale a i) (hj : Scale a j) : i = j := by
  rcases lt_trichotomy i j with h | h | h
  · exact absurd hi.1 (not_lt.2 (hj.2 i h))
  · exact h
  · exact absurd hj.1 (not_lt.2 (hi.2 j h))

lemma Scale.of_lt_one (h : a < 1) : Scale a 0 :=
  ⟨by simpa using h, fun i hi => absurd hi (Nat.not_lt_zero i)⟩

/-- A constant that is scaled down to a multiple of the grid has a small denominator. -/
lemma Scale.eq_zero {c : ℚ} {j prec m : ℕ} (h : Scale c j) (hc : 0 < c)
    (hden : 10 ^ prec ≤ c.den) (hm : c / 10 ^ j * (10 ^ prec : ℕ) = m) : j = 0 := by
  cases j with
  | zero => rfl
  | succ i =>
    exfalso
    have hpow : (0 : ℚ) < 10 ^ (i + 1) := by positivity
    cases prec with
    | zero =>
      have hlt : c / 10 ^ (i + 1) < 1 := (div_lt_one hpow).2 h.1
      have hpos : 0 < c / 10 ^ (i + 1) := div_pos hc hpow
      rw [pow_zero, Nat.cast_one, mul_one] at hm
      rw [hm] at hlt hpos
      have h1 : m < 1 := by exact_mod_cast hlt
      have h2 : 0 < m := by exact_mod_cast hpos
      omega
    | succ p =>
      have heq : c = ((m * 10 ^ i : ℕ) : ℤ) / ((10 ^ p : ℕ) : ℤ) := by
        push_cast at hm ⊢
        rw [eq_div_iff (by positivity)]
        have hm' : c * 10 ^ (p + 1) = m * 10 ^ (i + 1) := by
          rw [← hm]
          field_simp
        rw [pow_succ, pow_succ] at hm'
        linarith
      have hdvd : (c.den : ℤ) ∣ ((10 ^ p : ℕ) : ℤ) := by
        have := Rat.den_dvd ((m * 10 ^ i : ℕ) : ℤ) ((10 ^ p : ℕ) : ℤ)
        rwa [Rat.divInt_eq_div, ← heq] at this
      have hle : c.den ≤ 10 ^ p := Nat.le_of_dvd (by positivity) (Int.natCast_dvd_natCast.1 hdvd)
      have hlt : 10 ^ p < 10 ^ (p + 1) := Nat.pow_lt_pow_right (by norm_num) p.lt_succ_self
      omega

/-- The denominator is small, or the constant is positive and scaled down no further than the
error allows, or it is negative and the search comes to end at it. -/
def ApproxOk (c : ℚ) (isLower : Bool) (prec : ℕ) : Prop :=
  c.den < 10 ^ prec ∨
  (0 < c ∧ ∃ j, Scale c j ∧ 10 ^ j * (if isLower then fract (c / 10 ^ j * (10 ^ prec : ℕ))
      else ⌈c / 10 ^ j * (10 ^ prec : ℕ)⌉ - c / 10 ^ j * (10 ^ prec : ℕ)) ≤ 1) ∨
  (c < 0 ∧ ∃ m : ℕ, m < 10 ^ prec ∧ -c * (10 ^ prec : ℕ) = m ∧
    ∃ s, Loop.Reaches (searchStep (-c) (10 ^ prec : ℕ)) (0, 10 ^ prec) s ∧
      searchStep (-c) (10 ^ prec : ℕ) s = none ∧
      (midpoint s = m ∨ midpoint s = if isLower then m + 1 else m - 1))

/-- The loops end, and it returns a constant that brackets the argument. -/
def Approximates (c : ℚ) (isLower : Bool) (prec : ℕ) : Prop :=
  ∃ k k' c', getApproximateConstant k k' c isLower prec = some c' ∧ Brackets c isLower prec c'

section Run

variable {c : ℚ} {isLower : Bool} {prec j : ℕ} {s : ℕ × ℕ}

/-- The result, for the ends of the loops. -/
def approximation (c : ℚ) (isLower : Bool) (prec j : ℕ) (s : ℕ × ℕ) : ℚ :=
  let r := corrected (|c| / 10 ^ j) (10 ^ prec : ℕ) isLower (midpoint s) * 10 ^ j
  if 0 < c then r else -r

lemma approximates_iff (hden : ¬ c.den < 10 ^ prec) (hc : c ≠ 0) (hj : Scale |c| j)
    (hs : Loop.Reaches (searchStep (|c| / 10 ^ j) (10 ^ prec : ℕ)) (0, 10 ^ prec) s)
    (hend : searchStep (|c| / 10 ^ j) (10 ^ prec : ℕ) s = none) :
    Approximates c isLower prec ↔ Brackets c isLower prec (approximation c isLower prec j s) := by
  constructor
  · rintro ⟨k, k', c', hrun, hbrackets⟩
    rw [getApproximateConstant, if_neg hden, if_neg hc] at hrun
    obtain ⟨z, hz, hrun⟩ := bind_inv hrun
    cases Loop.run_eq_of_reaches hz (reaches_scale hj) (scaleStep_end hj)
    obtain ⟨s', hs', hrun⟩ := bind_inv hrun
    cases Loop.run_eq_of_reaches hs' hs hend
    cases hrun
    exact hbrackets
  · intro hbrackets
    obtain ⟨k, hk⟩ := Loop.run_of_reaches (reaches_scale hj) (scaleStep_end hj)
    obtain ⟨k', hk'⟩ := Loop.run_of_reaches hs hend
    refine ⟨k, k', _, ?_, hbrackets⟩
    rw [getApproximateConstant, if_neg hden, if_neg hc]
    exact bind_eq_some_iff.2 ⟨_, hk, bind_eq_some_iff.2 ⟨_, hk', rfl⟩⟩

lemma scaled_pos (hc : c ≠ 0) : 0 < |c| / 10 ^ j := div_pos (abs_pos.2 hc) (by positivity)

lemma between_start (hc : c ≠ 0) (hj : Scale |c| j) :
    Between (|c| / 10 ^ j) (10 ^ prec) (0, 10 ^ prec) := by
  have hpos : (0 : ℚ) < 10 ^ j := by positivity
  have hgrid : (0 : ℚ) < (10 ^ prec : ℕ) := by positivity
  refine ⟨?_, ?_, le_rfl⟩
  · rw [Nat.cast_zero]
    exact mul_pos (scaled_pos hc) hgrid
  · exact mul_lt_of_lt_one_left hgrid ((div_lt_one hpos).2 hj.1)

lemma two_pow_bound (hprec : 10 ^ prec < 2 ^ 32) : 10 ^ prec < 2 ^ 31 := by
  have hlt : prec < 10 := by
    by_contra hge
    have := Nat.pow_le_pow_right (show 0 < 10 by norm_num) (not_lt.1 hge)
    omega
  calc 10 ^ prec ≤ 10 ^ 9 := Nat.pow_le_pow_right (by norm_num) (by omega)
    _ < 2 ^ 31 := by norm_num

/-- The result is a multiple of the scaled grid. -/
lemma approximation_eq (hprec : 10 ^ prec < 2 ^ 32) (hc : c ≠ 0)
    (hbetween : Between (|c| / 10 ^ j) (10 ^ prec) s) :
    approximation c isLower prec j s =
      if 0 < c then
        (numerator (|c| / 10 ^ j * (10 ^ prec : ℕ)) isLower (midpoint s) : ℚ) /
          (10 ^ prec : ℕ) * 10 ^ j
      else
        -((numerator (|c| / 10 ^ j * (10 ^ prec : ℕ)) isLower (midpoint s) : ℚ) /
          (10 ^ prec : ℕ) * 10 ^ j) := by
  have hlt := two_pow_bound hprec
  have hmid : midpoint s < 2 ^ 31 := by
    have := hbetween.midpoint_eq hlt
    have := hbetween.lt
    have := hbetween.le
    omega
  rw [approximation, corrected_eq (by positivity) (scaled_pos hc) hmid]

lemma brackets_pos {n : ℕ} (hc : 0 < c) {k : ℕ}
    (hside : if isLower then (k : ℚ) ≤ c / 10 ^ j * (10 ^ n : ℕ)
      else c / 10 ^ j * (10 ^ n : ℕ) ≤ k) :
    Brackets c isLower n (k / (10 ^ n : ℕ) * 10 ^ j) ↔
      10 ^ j * (if isLower then c / 10 ^ j * (10 ^ n : ℕ) - k
        else k - c / 10 ^ j * (10 ^ n : ℕ)) ≤ 1 := by
  have hpow : (0 : ℚ) < 10 ^ j := by positivity
  have hgrid : (0 : ℚ) < 10 ^ n := by positivity
  push_cast at hside ⊢
  have hcx : c = c / 10 ^ j * 10 ^ n / 10 ^ n * 10 ^ j := by field_simp
  generalize c / 10 ^ j * 10 ^ n = x at hside hcx ⊢
  subst hcx
  have herr : ∀ y : ℚ, y / 10 ^ n * 10 ^ j ≤ 1 / 10 ^ n ↔ 10 ^ j * y ≤ 1 := by
    intro y
    rw [div_mul_eq_mul_div, div_le_div_iff_of_pos_right hgrid, mul_comm]
  have hle : ∀ {y z : ℚ}, y ≤ z → y / 10 ^ n * 10 ^ j ≤ z / 10 ^ n * 10 ^ j := fun h =>
    mul_le_mul_of_nonneg_right ((div_le_div_iff_of_pos_right hgrid).2 h) hpow.le
  unfold Brackets
  cases isLower with
  | true =>
    simp only [if_true] at hside ⊢
    rw [← herr, and_iff_right (hle hside), sub_div, sub_mul, sub_le_iff_le_add']
  | false =>
    simp only [Bool.false_eq_true, if_false] at hside ⊢
    rw [← herr, and_iff_left (hle hside), sub_div, sub_mul, sub_le_comm]

lemma brackets_neg {n : ℕ} (hc : c < 0) {k : ℕ}
    (hside : if isLower then (k : ℚ) ≤ -c / 10 ^ j * (10 ^ n : ℕ)
      else -c / 10 ^ j * (10 ^ n : ℕ) ≤ k) :
    Brackets c isLower n (-(k / (10 ^ n : ℕ) * 10 ^ j)) ↔ (k : ℚ) = -c / 10 ^ j * (10 ^ n : ℕ) := by
  have hpow : (0 : ℚ) < 10 ^ j := by positivity
  have hgrid : (0 : ℚ) < 10 ^ n := by positivity
  push_cast at hside ⊢
  have hcx : c = -(-c / 10 ^ j * 10 ^ n / 10 ^ n * 10 ^ j) := by field_simp
  generalize -c / 10 ^ j * 10 ^ n = x at hside hcx ⊢
  subst hcx
  have hle : ∀ {y z : ℚ}, y / 10 ^ n * 10 ^ j ≤ z / 10 ^ n * 10 ^ j ↔ y ≤ z := by
    intro y z
    rw [mul_le_mul_iff_left₀ hpow, div_le_div_iff_of_pos_right hgrid]
  have herr : (0 : ℚ) < 1 / 10 ^ n := by positivity
  unfold Brackets
  cases isLower with
  | true =>
    simp only [if_true] at hside ⊢
    rw [neg_le_neg_iff, hle]
    constructor
    · rintro ⟨h, -⟩
      exact le_antisymm hside h
    · rintro rfl
      exact ⟨le_rfl, by linarith⟩
  | false =>
    simp only [Bool.false_eq_true, if_false] at hside ⊢
    rw [neg_le_neg_iff, hle]
    constructor
    · rintro ⟨-, h⟩
      exact le_antisymm h hside
    · rintro rfl
      exact ⟨by linarith, le_rfl⟩

lemma numerator_side {x : ℚ} {curr : ℕ} (hx : 0 < x) (hnear : |x - curr| ≤ 1) :
    if isLower then (numerator x isLower curr : ℚ) ≤ x else x ≤ numerator x isLower curr := by
  cases isLower with
  | true => exact (numerator_lower hx hnear).1
  | false => exact (numerator_upper hnear).1

/-- What is asked of the error of a positive constant does not depend on the search. -/
lemma error_iff {x : ℚ} {curr : ℕ} (hx : 0 < x) (hnear : |x - curr| ≤ 1)
    (hj : fract x = 0 → j = 0) :
    10 ^ j * (if isLower then x - numerator x isLower curr
      else numerator x isLower curr - x) ≤ 1 ↔
    10 ^ j * (if isLower then fract x else ⌈x⌉ - x) ≤ 1 := by
  by_cases hfract : fract x = 0
  swap
  · cases isLower with
    | true => simp only [if_true, sub_numerator_lower hx hnear hfract]
    | false => simp only [Bool.false_eq_true, if_false, numerator_upper_sub hnear hfract]
  rw [hj hfract, pow_zero, one_mul, one_mul]
  cases isLower with
  | true =>
    have := (numerator_lower hx hnear).2
    refine iff_of_true ?_ ?_
    · simp only [if_true]
      linarith
    · simp only [if_true]
      exact (Int.fract_lt_one x).le
  | false =>
    have := (numerator_upper hnear).2
    have := Int.ceil_lt_add_one x
    refine iff_of_true ?_ ?_
    · simp only [Bool.false_eq_true, if_false]
      linarith
    · simp only [Bool.false_eq_true, if_false]
      linarith

lemma approxOk_of_pos (hden : ¬ c.den < 10 ^ prec) (hc : 0 < c) (hj : Scale c j) :
    ApproxOk c isLower prec ↔ 10 ^ j * (if isLower then fract (c / 10 ^ j * (10 ^ prec : ℕ))
        else ⌈c / 10 ^ j * (10 ^ prec : ℕ)⌉ - c / 10 ^ j * (10 ^ prec : ℕ)) ≤ 1 := by
  constructor
  · rintro (h | ⟨-, i, hi, h⟩ | ⟨h, -⟩)
    · exact absurd h hden
    · rwa [hj.unique hi]
    · exact absurd hc h.not_gt
  · exact fun h => .inr (.inl ⟨hc, j, hj, h⟩)

lemma eq_zero_of_fract (hden : ¬ c.den < 10 ^ prec) (hc : 0 < c) (hj : Scale c j)
    (h : fract (c / 10 ^ j * (10 ^ prec : ℕ)) = 0) : j = 0 := by
  have hpos : 0 ≤ c / 10 ^ j * (10 ^ prec : ℕ) := by positivity
  have hfloor : 0 ≤ ⌊c / 10 ^ j * (10 ^ prec : ℕ)⌋ := Int.floor_nonneg.2 hpos
  obtain ⟨m, hm⟩ := Int.eq_ofNat_of_zero_le hfloor
  refine hj.eq_zero hc (not_lt.1 hden) (m := m) ?_
  rw [fract, sub_eq_zero, hm, cast_natCast] at h
  exact h

lemma search_unique {cr den : ℚ} {s0 s' : ℕ × ℕ}
    (hs : Loop.Reaches (searchStep cr den) s0 s) (hend : searchStep cr den s = none)
    (hs' : Loop.Reaches (searchStep cr den) s0 s') (hend' : searchStep cr den s' = none) :
    s' = s := by
  obtain ⟨k, hk⟩ := Loop.run_of_reaches hs' hend'
  exact Loop.run_eq_of_reaches hk hs hend

lemma approxOk_of_neg (hden : ¬ c.den < 10 ^ prec) (hc : c < 0) (hj : Scale (-c) j)
    (hs : Loop.Reaches (searchStep (-c / 10 ^ j) (10 ^ prec : ℕ)) (0, 10 ^ prec) s)
    (hend : searchStep (-c / 10 ^ j) (10 ^ prec : ℕ) s = none) :
    ApproxOk c isLower prec ↔ (numerator (-c / 10 ^ j * (10 ^ prec : ℕ)) isLower (midpoint s) : ℚ) =
        -c / 10 ^ j * (10 ^ prec : ℕ) := by
  have hpos : 0 < -c := neg_pos.2 hc
  have hgrid : (0 : ℚ) < (10 ^ prec : ℕ) := by positivity
  constructor
  · rintro (h | ⟨h, -⟩ | ⟨-, m, hlt, hm, s', hs', hend', hmid⟩)
    · exact absurd h hden
    · exact absurd hc h.not_gt
    · have hone : -c < 1 := by
        have h' : -c * (10 ^ prec : ℕ) < 1 * (10 ^ prec : ℕ) := by
          rw [hm, one_mul]
          exact_mod_cast hlt
        exact lt_of_mul_lt_mul_right h' hgrid.le
      obtain rfl := hj.unique (.of_lt_one hone)
      rw [pow_zero, div_one] at hs hend ⊢
      obtain rfl := search_unique hs hend hs' hend'
      have hm0 : 0 < m := by
        have : (0 : ℚ) < m := hm ▸ mul_pos hpos hgrid
        exact_mod_cast this
      rw [hm]
      exact_mod_cast (numerator_eq_iff hm0 isLower).2 hmid
  intro h
  have hden' : 10 ^ prec ≤ (-c).den := by
    rw [Rat.den_neg_eq_den]
    exact not_lt.1 hden
  obtain rfl := hj.eq_zero hpos hden' h.symm
  rw [pow_zero, div_one] at hs hend h
  generalize hk : numerator (-c * (10 ^ prec : ℕ)) isLower (midpoint s) = m at h
  have hm0 : 0 < m := by
    have : (0 : ℚ) < m := h ▸ mul_pos hpos hgrid
    exact_mod_cast this
  have hlt : m < 10 ^ prec := by
    have hone : -c < 1 := by simpa using hj.1
    have : (m : ℚ) < (10 ^ prec : ℕ) := h ▸ mul_lt_of_lt_one_left hgrid hone
    exact_mod_cast this
  rw [← h] at hk
  exact .inr (.inr ⟨hc, m, hlt, h.symm, s, hs, hend, (numerator_eq_iff hm0 isLower).1 hk⟩)

end Run

lemma brackets_self (c : ℚ) (isLower : Bool) (prec : ℕ) : Brackets c isLower prec c := by
  have : (0 : ℚ) < 1 / 10 ^ prec := by positivity
  unfold Brackets
  split
  · exact ⟨le_rfl, by linarith⟩
  · exact ⟨by linarith, le_rfl⟩

/-- The loops end and the result brackets the constant if and only if its denominator is small, or
it is positive and its scaling does not enlarge the error too much, or it is negative and found
exactly. -/
theorem approximates_iff_approxOk {prec : ℕ} (hprec : 10 ^ prec < 2 ^ 32) (c : ℚ)
    (isLower : Bool) : Approximates c isLower prec ↔ ApproxOk c isLower prec := by
  by_cases hden : c.den < 10 ^ prec
  · exact iff_of_true ⟨0, 0, c, if_pos hden, brackets_self c isLower prec⟩ (.inl hden)
  by_cases hc : c = 0
  · -- the assertion on the sign fails
    subst hc
    refine iff_of_false ?_ ?_
    · rintro ⟨k, k', c', hrun, -⟩
      rw [getApproximateConstant, if_neg hden, if_pos rfl] at hrun
      contradiction
    rintro (h | ⟨h, -⟩ | ⟨h, -⟩)
    · exact hden h
    · exact lt_irrefl _ h
    · exact lt_irrefl _ h
  obtain ⟨j, hj⟩ := exists_scale |c|
  have hgrid : 0 < 10 ^ prec := by positivity
  obtain ⟨s, hs, hend, hbetween⟩ := (between_start hc hj).ends hgrid (two_pow_bound hprec)
  have hnear := searchStep_eq_none hgrid hend
  have hx : 0 < |c| / 10 ^ j * (10 ^ prec : ℕ) :=
    mul_pos (scaled_pos hc) (Nat.cast_pos.2 hgrid)
  rw [approximates_iff hden hc hj hs hend, approximation_eq hprec hc hbetween]
  rcases lt_or_gt_of_ne hc with hneg | hpos
  · rw [abs_of_neg hneg] at hj hs hend hnear hx ⊢
    rw [if_neg hneg.not_gt, brackets_neg hneg (numerator_side hx hnear),
      approxOk_of_neg hden hneg hj hs hend]
  rw [abs_of_pos hpos] at hj hs hend hnear hx ⊢
  rw [if_pos hpos, brackets_pos hpos (numerator_side hx hnear), approxOk_of_pos hden hpos hj]
  exact error_iff hx hnear (eq_zero_of_fract hden hpos hj)

theorem approximates_iff_approxOk_half : Approximates (1 / 2) true 1 :=
  (approximates_iff_approxOk (by norm_num) _ _).2 (.inl (by decide +kernel))

/-- The result does not depend on the bounds for the loops. -/
lemma getApproximateConstant_unique {c a b : ℚ} {isLower : Bool} {prec k k' l l' : ℕ}
    (ha : getApproximateConstant k k' c isLower prec = some a)
    (hb : getApproximateConstant l l' c isLower prec = some b) : a = b := by
  unfold getApproximateConstant at ha hb
  split at ha
  · rw [if_pos ‹_›] at hb
    exact some.inj (ha.symm.trans hb)
  rw [if_neg ‹_›] at hb
  split at ha
  · cases ha
  rw [if_neg ‹_›] at hb
  obtain ⟨z, hz, ha⟩ := bind_inv ha
  obtain ⟨y, hy, hb⟩ := bind_inv hb
  cases Loop.run_unique hy hz
  obtain ⟨s, hs, ha⟩ := bind_inv ha
  obtain ⟨t, ht, hb⟩ := bind_inv hb
  cases Loop.run_unique ht hs
  exact some.inj (ha.symm.trans hb)

/-- A lower approximation of `-1/11` with one digit is `0`, and one of `1003/11` is `90`. -/
theorem not_approximates :
    ¬ (∀ (prec : ℕ) (c : ℚ) (isLower : Bool), 10 ^ prec < 2 ^ 32 → Approximates c isLower prec) ∧
      ¬ Approximates (-1 / 11) true 1 ∧ ¬ Approximates (1003 / 11) true 1 := by
  have hneg : ¬ Approximates (-1 / 11) true 1 := by
    rintro ⟨k, k', c', hrun, hbrackets⟩
    have heq : getApproximateConstant 5 5 (-1 / 11) true 1 = some 0 := by decide +kernel
    cases getApproximateConstant_unique hrun heq
    exact absurd hbrackets.1 (by norm_num)
  have hpos : ¬ Approximates (1003 / 11) true 1 := by
    rintro ⟨k, k', c', hrun, hbrackets⟩
    have heq : getApproximateConstant 5 5 (1003 / 11) true 1 = some 90 := by decide +kernel
    cases getApproximateConstant_unique hrun heq
    exact absurd hbrackets.2 (by norm_num)
  exact ⟨fun h => hneg (h 1 _ _ (by norm_num)), hneg, hpos⟩

end EthosCpc.Cvc5.Approximate
