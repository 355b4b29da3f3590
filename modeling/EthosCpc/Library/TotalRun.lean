import Mathlib.Control.Monad.Basic

/-!
# Computations that return

Total correctness of computations with a state that may fail: from a given
state, a computation returns, with a result and a state that have the given
property.
-/

namespace EthosCpc.Library

universe u

variable {σ α β : Type u}

/-- `m` returns from `s`, with a result and a state that satisfy `Q`. -/
def Returns (m : StateT σ Option α) (s : σ) (Q : α → σ → Prop) : Prop :=
  ∃ a s', m s = some (a, s') ∧ Q a s'

namespace Returns

variable {m : StateT σ Option α} {f : α → StateT σ Option β} {s : σ} {Q Q' : α → σ → Prop}
  {R : β → σ → Prop}

lemma mono (h : Returns m s Q) (hQ : ∀ a s', Q a s' → Q' a s') : Returns m s Q' := by
  obtain ⟨a, s', hm, ha⟩ := h
  exact ⟨a, s', hm, hQ a s' ha⟩

lemma pure {a : α} (h : Q a s) : Returns (Pure.pure a) s Q := ⟨a, s, rfl, h⟩

lemma bind (h : Returns m s Q) (hf : ∀ a s', Q a s' → Returns (f a) s' R) :
    Returns (m >>= f) s R := by
  obtain ⟨a, s', hm, ha⟩ := h
  obtain ⟨b, s'', hfa, hb⟩ := hf a s' ha
  refine ⟨b, s'', ?_, hb⟩
  change (m s).bind (fun p => f p.1 p.2) = some (b, s'')
  rw [hm, Option.bind_some, hfa]

lemma get_bind {f : σ → StateT σ Option β} (h : Returns (f s) s R) :
    Returns ((MonadState.get : StateT σ Option σ) >>= f) s R := h

lemma modify_bind {g : σ → σ} {f : PUnit → StateT σ Option β} (h : Returns (f ⟨⟩) (g s) R) :
    Returns ((MonadState.modifyGet fun s => (⟨⟩, g s)) >>= f) s R := h

lemma read {o : σ → Option α} {a : α} (ho : o s = some a) (h : Q a s) :
    Returns (fun s => (o s).map fun a => (a, s)) s Q := by
  refine ⟨a, s, ?_, h⟩
  change (o s).map _ = some (a, s)
  rw [ho]
  rfl

end Returns

end EthosCpc.Library
