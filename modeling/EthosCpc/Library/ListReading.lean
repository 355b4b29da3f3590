import Mathlib.Logic.Basic

/-!
# Products of the parts of a list

The parts of a list are read by a relation, as elements of a monoid, and the
list as the product of its parts.  Reversing the list reverses the product.
-/

namespace EthosCpc.Library

variable {α M : Type*} (R : α → M → Prop) (op : M → M → M) (e : M)

/-- The product of the parts of a list. -/
def ReadsList : List α → M → Prop
  | [], m => m = e
  | x :: xs, m => ∃ a b, R x a ∧ ReadsList xs b ∧ m = op a b

/-- An operation, or the one with the arguments in the opposite order. -/
def dirOp (rev : Bool) (a b : M) : M := if rev then op b a else op a b

@[simp] lemma dirOp_false (a b : M) : dirOp op false a b = op a b := rfl

@[simp] lemma dirOp_true (a b : M) : dirOp op true a b = op b a := rfl

lemma dirOp_not (rev : Bool) : dirOp (dirOp op rev) true = dirOp op (!rev) := by
  cases rev <;> rfl

variable {R op e}

lemma readsList_cons {x : α} {xs : List α} {m : M} :
    ReadsList R op e (x :: xs) m ↔ ∃ a b, R x a ∧ ReadsList R op e xs b ∧ m = op a b :=
  Iff.rfl

section Monoid

variable (hassoc : ∀ a b c, op (op a b) c = op a (op b c)) (hleft : ∀ a, op e a = a)
  (hright : ∀ a, op a e = a)

include hleft hright in
lemma readsList_singleton {x : α} {m : M} : ReadsList R op e [x] m ↔ R x m := by
  constructor
  · rintro ⟨a, b, ha, rfl, rfl⟩
    rw [hright]
    exact ha
  · intro h
    exact ⟨m, e, h, rfl, (hright m).symm⟩

include hassoc hleft

lemma readsList_append {xs ys : List α} {m : M} : ReadsList R op e (xs ++ ys) m ↔
      ∃ a b, ReadsList R op e xs a ∧ ReadsList R op e ys b ∧ m = op a b := by
  induction xs generalizing m with
  | nil =>
    constructor
    · intro h
      exact ⟨e, m, rfl, h, (hleft m).symm⟩
    rintro ⟨a, b, rfl, hb, rfl⟩
    rw [hleft]
    exact hb
  | cons x xs ih =>
    rw [List.cons_append, readsList_cons]
    constructor
    · rintro ⟨a, b, ha, hb, rfl⟩
      obtain ⟨c, d, hc, hd, rfl⟩ := ih.1 hb
      exact ⟨op a c, d, ⟨a, c, ha, hc, rfl⟩, hd, (hassoc a c d).symm⟩
    · rintro ⟨p, d, ⟨a, c, ha, hc, rfl⟩, hd, rfl⟩
      exact ⟨a, op c d, ha, ih.2 ⟨c, d, hc, hd, rfl⟩, hassoc a c d⟩

include hright

lemma readsList_reverse {xs : List α} {m : M} :
    ReadsList R (dirOp op true) e xs.reverse m ↔ ReadsList R op e xs m := by
  induction xs generalizing m with
  | nil => exact Iff.rfl
  | cons x xs ih =>
    rw [List.reverse_cons, readsList_append (fun a b c => (hassoc c b a).symm) hright,
      readsList_cons]
    constructor
    · rintro ⟨b, a, hb, ha, rfl⟩
      rw [readsList_singleton hright hleft] at ha
      exact ⟨a, b, ha, ih.1 hb, rfl⟩
    · rintro ⟨a, b, ha, hb, rfl⟩
      exact ⟨b, a, ih.2 hb, (readsList_singleton hright hleft).2 ha, rfl⟩

end Monoid

end EthosCpc.Library
