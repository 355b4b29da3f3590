import Mathlib.Data.Nat.Log
import Mathlib.Tactic.Linarith
import Mathlib.Tactic.Ring

/-!
# Products and leading bits

The facts behind the usual circuits for the overflow of a multiplication.
Two set bits `i` and `j` make a product at least `2 ^ (i + j)`.  When no two
set bits reach the threshold `t`, the product needs at most one bit more
than `t`, and the remaining case can be read off that bit.
-/

namespace EthosCpc.Library

lemma two_pow_le_mul {a b i j t : Nat} (hi : a.testBit i = true) (hj : b.testBit j = true)
    (h : t ≤ i + j) : 2 ^ t ≤ a * b := by
  calc 2 ^ t ≤ 2 ^ (i + j) := Nat.pow_le_pow_right (by decide) h
    _ = 2 ^ i * 2 ^ j := Nat.pow_add 2 i j
    _ ≤ a * b := Nat.mul_le_mul (Nat.ge_two_pow_of_testBit hi) (Nat.ge_two_pow_of_testBit hj)

/-- When no two set bits reach the threshold, the product is small. -/
lemma succ_mul_succ_le {a b t : Nat} (ha : a < 2 ^ t) (hb : b < 2 ^ t)
    (h : ∀ i j, a.testBit i = true → b.testBit j = true → i + j < t) :
    (a + 1) * (b + 1) ≤ 2 ^ (t + 1) := by
  have hpow : 2 ^ (t + 1) = 2 ^ t + 2 ^ t := by rw [Nat.pow_succ]; omega
  by_cases ha0 : a = 0
  · rw [ha0, Nat.zero_add, Nat.one_mul]
    omega
  by_cases hb0 : b = 0
  · rw [hb0, Nat.zero_add, Nat.mul_one]
    omega
  have hlog := h _ _ (Nat.testBit_log2 ha0) (Nat.testBit_log2 hb0)
  calc (a + 1) * (b + 1) ≤ 2 ^ (Nat.log2 a + 1) * 2 ^ (Nat.log2 b + 1) :=
        Nat.mul_le_mul Nat.lt_log2_self Nat.lt_log2_self
    _ = 2 ^ (Nat.log2 a + 1 + (Nat.log2 b + 1)) := (Nat.pow_add ..).symm
    _ ≤ 2 ^ (t + 1) := Nat.pow_le_pow_right (by decide) (by omega)

/-! ## Unsigned overflow -/

/-- Unsigned multiplication overflows `n` bits when two set bits reach `n`, or bit `n`
of the product modulo `2 ^ (n + 1)` is set. -/
lemma umul_overflow_iff {a b n : Nat} (ha : a < 2 ^ n) (hb : b < 2 ^ n) :
    2 ^ n ≤ a * b ↔ (a * b % 2 ^ (n + 1)).testBit n = true ∨
      ∃ j l, b.testBit j = true ∧ a.testBit l = true ∧ n ≤ j + l := by
  by_cases hpair : ∃ j l, b.testBit j = true ∧ a.testBit l = true ∧ n ≤ j + l
  · obtain ⟨j, l, hj, hl, hjl⟩ := hpair
    refine iff_of_true (two_pow_le_mul hl hj (by omega)) (.inr ⟨j, l, hj, hl, hjl⟩)
  have hsmall : (a + 1) * (b + 1) ≤ 2 ^ (n + 1) := by
    apply succ_mul_succ_le ha hb
    intro l j hl hj
    by_contra hge
    exact hpair ⟨j, l, hj, hl, by omega⟩
  have hlt : a * b < 2 ^ (n + 1) := by nlinarith
  rw [Nat.mod_eq_of_lt hlt, or_iff_left hpair, Nat.testBit, Nat.shiftRight_eq_div_pow,
    Nat.one_and_eq_mod_two, bne_iff_ne]
  have hpos := Nat.two_pow_pos n
  have hdiv : a * b / 2 ^ n < 2 := by
    rw [Nat.div_lt_iff_lt_mul hpos, ← Nat.pow_succ']
    exact hlt
  rw [Nat.mod_eq_of_lt hdiv, ← Nat.one_le_iff_ne_zero, Nat.le_div_iff_mul_le hpos, Nat.one_mul]

/-! ## Signed overflow -/

lemma top_bits_ne_iff {h : Nat} {p : Int} (hh : 0 < h) (hlow : -(2 * h : Int) ≤ p)
    (hhigh : p ≤ 2 * h) :
    ((p % (4 * h : Int)).toNat / (2 * h) % 2 ≠ (p % (4 * h : Int)).toNat / h % 2) ↔
      (h : Int) ≤ p ∨ p < -(h : Int) := by
  have hdiv : ∀ m q : Nat, q * h ≤ m → m < (q + 1) * h → m / h = q := by
    intro m q hl hu
    exact Nat.div_eq_of_lt_le hl hu
  have hcase : ∀ m q : Nat, q * h ≤ m → m < (q + 1) * h → m / (2 * h) = q / 2 ∧ m / h = q := by
    intro m q hl hu
    have hmh := hdiv m q hl hu
    refine ⟨?_, hmh⟩
    rw [Nat.mul_comm 2 h, ← Nat.div_div_eq_div_mul, hmh]
  by_cases hneg : p < 0
  · have hmod : p % (4 * h : Int) = p + 4 * h := by
      rw [← Int.add_mul_emod_self_right p 1 (4 * h), Int.one_mul]
      exact Int.emod_eq_of_lt (by omega) (by omega)
    rw [hmod]
    by_cases hlt : p < -(h : Int)
    · obtain ⟨h1, h2⟩ := hcase (p + 4 * h).toNat 2 (by omega) (by omega)
      rw [h1, h2]
      omega
    obtain ⟨h1, h2⟩ := hcase (p + 4 * h).toNat 3 (by omega) (by omega)
    rw [h1, h2]
    omega
  have hmod : p % (4 * h : Int) = p := Int.emod_eq_of_lt (by omega) (by omega)
  rw [hmod]
  by_cases h0 : p < h
  · obtain ⟨h1, h2⟩ := hcase p.toNat 0 (by omega) (by omega)
    rw [h1, h2]
    omega
  by_cases h1 : p < 2 * h
  · obtain ⟨h2, h3⟩ := hcase p.toNat 1 (by omega) (by omega)
    rw [h2, h3]
    omega
  obtain ⟨h2, h3⟩ := hcase p.toNat 2 (by omega) (by omega)
  rw [h2, h3]
  omega

/-- The magnitude of a signed number, as the bits of its sign-xor give it. -/
def mag (z : Int) : Nat := if z < 0 then (-z - 1).toNat else z.toNat

lemma natAbs_le_mag (z : Int) : z.natAbs ≤ mag z + 1 := by
  unfold mag
  split <;> omega

lemma overflow_of_mag {x y : Int} {t : Nat} (h : 2 ^ t ≤ mag x * mag y) :
    (2 : Int) ^ t ≤ x * y ∨ x * y < -(2 : Int) ^ t := by
  have hcast : (2 : Int) ^ t ≤ (mag x : Int) * mag y := by exact_mod_cast h
  have hpos : (0 : Int) < 2 ^ t := by positivity
  unfold mag at hcast
  by_cases hx : x < 0
  · by_cases hy : y < 0
    · rw [if_pos hx, if_pos hy, Int.toNat_of_nonneg (by omega), Int.toNat_of_nonneg (by omega)]
        at hcast
      left
      nlinarith
    · rw [if_pos hx, if_neg hy, Int.toNat_of_nonneg (by omega), Int.toNat_of_nonneg (by omega)]
        at hcast
      right
      nlinarith
  by_cases hy : y < 0
  · rw [if_neg hx, if_pos hy, Int.toNat_of_nonneg (by omega), Int.toNat_of_nonneg (by omega)]
      at hcast
    right
    nlinarith
  rw [if_neg hx, if_neg hy, Int.toNat_of_nonneg (by omega), Int.toNat_of_nonneg (by omega)]
    at hcast
  left
  exact hcast

/-- Signed multiplication overflows `t + 1` bits when two set bits of the magnitudes
reach `t`, or the two top bits of the product modulo `2 ^ (t + 2)` differ. -/
lemma smul_overflow_iff {x y : Int} {t : Nat} (hx : mag x < 2 ^ t) (hy : mag y < 2 ^ t) :
    ((2 : Int) ^ t ≤ x * y ∨ x * y < -(2 : Int) ^ t) ↔
      ((x * y % (2 : Int) ^ (t + 2)).toNat / 2 ^ (t + 1) % 2 ≠
          (x * y % (2 : Int) ^ (t + 2)).toNat / 2 ^ t % 2) ∨
        ∃ j l, (mag y).testBit j = true ∧ (mag x).testBit l = true ∧ t ≤ j + l := by
  by_cases hpair : ∃ j l, (mag y).testBit j = true ∧ (mag x).testBit l = true ∧ t ≤ j + l
  · obtain ⟨j, l, hj, hl, hjl⟩ := hpair
    exact iff_of_true (overflow_of_mag (two_pow_le_mul hl hj (by omega)))
      (.inr ⟨j, l, hj, hl, hjl⟩)
  have hsmall : (mag x + 1) * (mag y + 1) ≤ 2 ^ (t + 1) := by
    apply succ_mul_succ_le hx hy
    intro l j hl hj
    by_contra hge
    exact hpair ⟨j, l, hj, hl, by omega⟩
  have habs : (x * y).natAbs ≤ 2 ^ (t + 1) := by
    rw [Int.natAbs_mul]
    exact (Nat.mul_le_mul (natAbs_le_mag x) (natAbs_le_mag y)).trans hsmall
  have hp1 : (2 : Nat) ^ (t + 1) = 2 * 2 ^ t := Nat.pow_succ'
  have hcast : ((2 ^ t : Nat) : Int) = (2 : Int) ^ t := by push_cast; rfl
  have hp2 : (2 : Int) ^ (t + 2) = 4 * ((2 ^ t : Nat) : Int) := by
    rw [hcast, pow_add]
    ring
  have htop := top_bits_ne_iff (h := 2 ^ t) (p := x * y) (Nat.two_pow_pos t) (by omega) (by omega)
  rw [or_iff_left hpair, hp1, hp2, htop, hcast]

end EthosCpc.Library
