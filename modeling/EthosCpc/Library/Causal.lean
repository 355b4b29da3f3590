import Mathlib.Order.Basic

/-!
# Definitions by earlier values

A family of equations that define the value at `n` from the values below
`n` has a solution.  The types of the values may depend on `n`.
-/

namespace EthosCpc.Library

variable {A : Nat → Type*}

/-- The value at `n` depends on the values below `n` only. -/
def Causal (F : ∀ n, (∀ m, A m) → A n) : Prop :=
  ∀ n f g, (∀ m < n, f m = g m) → F n f = F n g

/-- The values of the equations, from the left; `d` stands where nothing is defined yet. -/
def causalValue (d : ∀ n, A n) (F : ∀ n, (∀ m, A m) → A n) (n : Nat) : A n :=
  F n fun m => if _ : m < n then causalValue d F m else d m

lemma Causal.exists_solution {F : ∀ n, (∀ m, A m) → A n} (hF : Causal F) (d : ∀ n, A n) :
    ∃ f : ∀ n, A n, ∀ n, f n = F n f := by
  refine ⟨causalValue d F, fun n => ?_⟩
  rw [causalValue]
  refine hF n _ _ fun m hm => ?_
  rw [dif_pos hm]

end EthosCpc.Library
