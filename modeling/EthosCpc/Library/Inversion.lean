import Mathlib.Data.Option.Defs

/-!
# Computations that return

What the parts of a computation return that may fail.
-/

namespace EthosCpc

variable {α β : Type*} {x : Option α} {b : β}

lemma bind_inv {f : α → Option β} (h : x.bind f = some b) : ∃ a, x = some a ∧ f a = some b :=
  Option.bind_eq_some_iff.1 h

lemma map_inv {f : α → β} (h : x.map f = some b) : ∃ a, x = some a ∧ f a = b :=
  Option.map_eq_some_iff.1 h

end EthosCpc
