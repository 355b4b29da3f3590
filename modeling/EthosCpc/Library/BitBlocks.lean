import Mathlib.Data.Nat.Bitwise
import Mathlib.Tactic.Ring

/-!
# Bits of numbers by blocks

Disjunction and exclusive disjunction of bits through sums and conjunctions, and
conjunctions of bits from those of blocks of bits.
-/

namespace EthosCpc.Library

lemma or_add_and (a b : Nat) : (a ||| b) + (a &&& b) = a + b := by
  induction a using Nat.strongRecOn generalizing b with
  | ind a ih =>
    rcases Nat.eq_zero_or_pos a with rfl | hpos
    · simp
    have hrec := ih (a / 2) (by omega) (b / 2)
    have hor : (a ||| b) / 2 = a / 2 ||| b / 2 := Nat.or_div_two
    have hand : (a &&& b) / 2 = a / 2 &&& b / 2 := Nat.and_div_two
    have hor' : (a ||| b) % 2 = 1 ↔ a % 2 = 1 ∨ b % 2 = 1 := Nat.or_mod_two_eq_one
    have hand' : (a &&& b) % 2 = 1 ↔ a % 2 = 1 ∧ b % 2 = 1 := Nat.and_mod_two_eq_one
    omega

lemma xor_add_and (a b : Nat) : (a ^^^ b) + (a &&& b) = a ||| b := by
  induction a using Nat.strongRecOn generalizing b with
  | ind a ih =>
    rcases Nat.eq_zero_or_pos a with rfl | hpos
    · simp
    have hrec := ih (a / 2) (by omega) (b / 2)
    have hxor : (a ^^^ b) / 2 = a / 2 ^^^ b / 2 := Nat.xor_div_two
    have hor : (a ||| b) / 2 = a / 2 ||| b / 2 := Nat.or_div_two
    have hand : (a &&& b) / 2 = a / 2 &&& b / 2 := Nat.and_div_two
    have hxor' : (a ^^^ b) % 2 = 1 ↔ ¬(a % 2 = 1 ↔ b % 2 = 1) := Nat.xor_mod_two_eq_one
    have hor' : (a ||| b) % 2 = 1 ↔ a % 2 = 1 ∨ b % 2 = 1 := Nat.or_mod_two_eq_one
    have hand' : (a &&& b) % 2 = 1 ↔ a % 2 = 1 ∧ b % 2 = 1 := Nat.and_mod_two_eq_one
    omega

/-- The bits of `a` from `low` on, `size` of them. -/
def block (a low size : Nat) : Nat := a / 2 ^ low % 2 ^ size

lemma block_lt (a low size : Nat) : block a low size < 2 ^ size :=
  Nat.mod_lt _ (Nat.two_pow_pos size)

lemma testBit_block {a low size i : Nat} (h : i < size) :
    (block a low size).testBit i = a.testBit (low + i) := by
  rw [block, Nat.testBit_mod_two_pow, Nat.testBit_div_two_pow, decide_eq_true h, Bool.true_and,
    Nat.add_comm]

lemma block_and (a b low size : Nat) :
    block (a &&& b) low size = block a low size &&& block b low size := by
  rw [block, Nat.and_div_two_pow, Nat.and_mod_two_pow]
  rfl

lemma mod_add_block (a low size : Nat) :
    a % 2 ^ low + 2 ^ low * block a low size = a % 2 ^ (low + size) := by
  rw [Nat.pow_add, Nat.mod_mul, block]

lemma eq_and_of_blocks {a b z w : Nat} (ha : a < 2 ^ w) (hz : z < 2 ^ w)
    (h : ∀ i < w, ∃ low size, low ≤ i ∧ i < low + size ∧
      block z low size = block a low size &&& block b low size) : z = a &&& b := by
  apply Nat.eq_of_testBit_eq
  intro i
  rcases Nat.lt_or_ge i w with hi | hi
  · obtain ⟨low, size, hlow, hsize, heq⟩ := h i hi
    have hbit := congrArg (Nat.testBit · (i - low)) heq
    rw [← block_and, testBit_block (by omega), testBit_block (by omega)] at hbit
    rwa [Nat.add_sub_cancel' hlow] at hbit
  have hpow : 2 ^ w ≤ 2 ^ i := Nat.pow_le_pow_right (by omega) hi
  have hand : a &&& b ≤ a := Nat.and_le_left
  rw [Nat.testBit_lt_two_pow (by omega), Nat.testBit_lt_two_pow (by omega)]

end EthosCpc.Library
