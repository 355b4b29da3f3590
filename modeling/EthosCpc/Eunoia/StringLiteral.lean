import EthosCpc.Eunoia.Literal
import EthosCpc.Library.Words

/-!
# Builtin operators on string literals

`eo::extract` on strings takes the first and the last position, both
inclusive, and clamps the last one to the length of the string.
-/

namespace EthosCpc

open Library

/-- `eo::extract` of the characters `i1` to `i2` of a string. -/
def eoStrExtract (s : Str) (i1 i2 : Int) : Str :=
  if i1 < 0 ∨ i2 < 0 ∨ i1 > s.length ∨ s.length = 0 then []
  else
    let v2 := if i2 ≥ s.length then s.length - 1 else i2.toNat
    (s.drop i1.toNat).take (v2 + 1 - i1.toNat)

lemma eoStrExtract_eq_substr (s : Str) (i1 i2 : Int) :
    eoStrExtract s i1 i2 = Words.substr s i1 (i2 - i1 + 1) := by
  unfold eoStrExtract Words.substr
  by_cases hout : i1 < 0 ∨ i2 < 0 ∨ i1 > s.length ∨ s.length = 0
  · rw [if_pos hout, if_neg]
    rintro ⟨h1, h2, h3⟩
    omega
  rw [if_neg hout]
  dsimp only
  by_cases hsub : 0 ≤ i1 ∧ i1 < s.length ∧ 0 < i2 - i1 + 1
  swap
  · rw [if_neg hsub, ← List.length_eq_zero_iff, List.length_take, List.length_drop]
    split <;> omega
  rw [if_pos hsub]
  by_cases hend : i2 ≥ s.length
  swap
  · rw [if_neg hend]
    congr 1
    omega
  -- the last position is behind the end
  rw [if_pos hend, List.take_of_length_le, List.take_of_length_le]
  · rw [List.length_drop]
    omega
  · rw [List.length_drop]
    omega

/-- All characters but the first. -/
lemma eoStrExtract_tail (s : Str) : eoStrExtract s 1 s.length = s.tail := by
  rw [eoStrExtract_eq_substr, show (s.length : Int) - 1 + 1 = s.length by omega]
  cases s with
  | nil => rfl
  | cons c s =>
    unfold Words.substr
    split
    · rw [show Int.toNat 1 = 1 from rfl, List.drop_succ_cons, List.drop_zero, List.tail_cons]
      apply List.take_of_length_le
      rw [List.length_cons]
      omega
    rename_i h
    rw [List.tail_cons]
    rw [List.length_cons] at h
    symm
    apply List.length_eq_zero_iff.1
    omega

lemma eoStrExtract_dropLast (s : Str) : eoStrExtract s 0 (s.length - 2) = s.dropLast := by
  rw [eoStrExtract_eq_substr, Words.substr_zero, List.dropLast_eq_take]
  congr 1
  omega

end EthosCpc
