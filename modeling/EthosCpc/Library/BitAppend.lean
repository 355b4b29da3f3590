import Mathlib.Data.Nat.Bitwise

/-!
# Bit-vectors of all widths under concatenation

Concatenation of bit-vectors is a monoid when the width is part of the element.
-/

namespace EthosCpc.Library

def bitAppend (x y : Σ w, BitVec w) : Σ w, BitVec w := ⟨x.1 + y.1, x.2 ++ y.2⟩

/-- Bit-vectors of all widths are equal if widths and numbers are. -/
lemma sigma_eq_of_toNat {x y : Σ w, BitVec w} (hw : x.1 = y.1)
    (h : x.2.toNat = y.2.toNat) : x = y := by
  obtain ⟨w, p⟩ := x
  obtain ⟨w', q⟩ := y
  obtain rfl : w = w' := hw
  have hpq : p = q := BitVec.eq_of_toNat_eq h
  rw [hpq]

lemma toNat_append_eq {w w' : Nat} (p : BitVec w) (q : BitVec w') :
    (p ++ q).toNat = p.toNat * 2 ^ w' + q.toNat := by
  rw [BitVec.toNat_append, ← Nat.shiftLeft_add_eq_or_of_lt q.isLt, Nat.shiftLeft_eq]

lemma bitAppend_assoc : Std.Associative bitAppend where
  assoc := by
    intro x y z
    refine sigma_eq_of_toNat (Nat.add_assoc _ _ _) ?_
    simp only [bitAppend, toNat_append_eq, Nat.add_mul, Nat.pow_add, Nat.mul_assoc, Nat.add_assoc]

lemma bitAppend_ident : Std.LawfulIdentity bitAppend ⟨0, 0#0⟩ where
  left_id := fun x => sigma_eq_of_toNat (Nat.zero_add _) (by simp [bitAppend])
  right_id := fun x => sigma_eq_of_toNat (Nat.add_zero _) (by simp [bitAppend])

end EthosCpc.Library
