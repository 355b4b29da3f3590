import Mathlib.Data.List.Basic

/-!
# Assignments of typed variables

An assignment gives every variable a value of its own type.  What a
binder does to an assignment is `override`: it takes the values of its
variables from elsewhere and leaves the others alone.  A list of binders
is then one binder, whatever it repeats and in whatever order.
-/

namespace EthosCpc.Library.Assignment

variable {V : Type} {D : V → Type} [DecidableEq V] {vs ws : List V} {e e' ρ ρ' : ∀ v, D v}

/-- The values of `e` on the variables `vs`, those of `ρ` elsewhere. -/
def override (vs : List V) (e ρ : ∀ v, D v) : ∀ v, D v := fun v => if v ∈ vs then e v else ρ v

lemma override_of_mem {v : V} (h : v ∈ vs) : override vs e ρ v = e v := if_pos h

lemma override_of_not_mem {v : V} (h : v ∉ vs) : override vs e ρ v = ρ v := if_neg h

@[simp] lemma override_nil : override [] e ρ = ρ := by
  funext v
  exact override_of_not_mem List.not_mem_nil

/-- A variable with one value only may be bound or not. -/
lemma override_eq_of_subsingleton (h : ∀ v ∈ vs, v ∉ ws → Subsingleton (D v))
    (h' : ∀ v ∈ ws, v ∉ vs → Subsingleton (D v)) : override vs e ρ = override ws e ρ := by
  funext v
  by_cases hv : v ∈ vs
  · by_cases hw : v ∈ ws
    · rw [override_of_mem hv, override_of_mem hw]
    · exact (h v hv hw).elim _ _
  by_cases hw : v ∈ ws
  · exact (h' v hw hv).elim _ _
  · rw [override_of_not_mem hv, override_of_not_mem hw]

lemma override_congr (h : ∀ v ∈ vs, e v = e' v) : override vs e ρ = override vs e' ρ := by
  funext v
  by_cases hv : v ∈ vs
  · rw [override_of_mem hv, override_of_mem hv, h v hv]
  · rw [override_of_not_mem hv, override_of_not_mem hv]

lemma override_cons (v : V) : override (v :: vs) e ρ =
    override vs e (Function.update ρ v (e v)) := by
  funext w
  by_cases hw : w ∈ vs
  · rw [override_of_mem hw, override_of_mem (List.mem_cons_of_mem v hw)]
  rw [override_of_not_mem hw]
  by_cases hv : w = v
  · subst hv
    rw [override_of_mem List.mem_cons_self, Function.update_self]
  · rw [override_of_not_mem (by simp [hv, hw]), Function.update_of_ne hv]

end EthosCpc.Library.Assignment
