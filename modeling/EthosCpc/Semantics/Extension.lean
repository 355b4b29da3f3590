import EthosCpc.Library.Causal
import EthosCpc.Semantics.Value

/-!
# Interpretations of defined constants

The value of a term depends on the constants that occur in it.  So a
constant whose value is to be computed from terms over earlier constants
can be interpreted, and all such constants at once.
-/

namespace EthosCpc

open Library

variable {Γ : Nat → Ty}

def Term.consts : Term → List Nat
  | .const n => [n]
  | .app f a => f.consts ++ a.consts
  | _ => []

/-- An interpretation with other values for the constants. -/
def Interp.withConst (I : Interp Γ) (f : ∀ n, Dom I.U (Γ n)) : Interp Γ := { I with const := f }

variable {I : Interp Γ} {f g : ∀ n, Dom I.U (Γ n)} {t : Term}

lemma symVal_withConst (s : Sym) : symVal (I.withConst f) s = symVal I s := by
  cases s <;> rfl

lemma applyDen_withConst : applyDen (I.withConst f) = applyDen I := by
  funext d v
  cases d with
  | part s args =>
    show complete (I.withConst f) s (args ++ [v]) = complete I s (args ++ [v])
    unfold complete
    rw [symVal_withConst]
    rfl
  | val u =>
    obtain ⟨T, x⟩ := u
    cases T <;> rfl

lemma den_withConst (h : ∀ n ∈ t.consts, f n = g n) :
    den (I.withConst f) t = den (I.withConst g) t := by
  induction t with
  | const n =>
    have hn : f n = g n := h n (List.mem_singleton_self n)
    show some (Den.val ⟨Γ n, f n⟩) = some (Den.val ⟨Γ n, g n⟩)
    rw [hn]
  | app p a ihp iha =>
    have hp := ihp fun n hn => h n (List.mem_append_left _ hn)
    have ha := iha fun n hn => h n (List.mem_append_right _ hn)
    show ((den (I.withConst f) p).bind fun d => _) = ((den (I.withConst g) p).bind fun d => _)
    rw [hp, ha, applyDen_withConst, ← applyDen_withConst (f := g)]
    rfl
  | sym s =>
    show complete (I.withConst f) s [] = complete (I.withConst g) s []
    unfold complete
    rw [symVal_withConst, symVal_withConst]
    rfl
  | _ => rfl

lemma value_withConst (h : ∀ n ∈ t.consts, f n = g n) :
    value (I.withConst f) t = value (I.withConst g) t :=
  congrArg (fun d => Option.bind d Den.val?) (den_withConst h)

end EthosCpc
