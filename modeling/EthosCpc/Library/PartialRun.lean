import Mathlib.Control.Monad.Basic
import EthosCpc.Library.Inversion

/-!
# Computations that keep an invariant

Partial correctness of computations with a state that may fail: in a state that
satisfies the invariant, a computation that returns leaves such a state and a
result with the given property.
-/

namespace EthosCpc.Library

universe u

variable {σ α β : Type u}

/-- `m` keeps the invariant and returns results with `P` only. -/
def Keeps (Inv : σ → Prop) (m : StateT σ Option α) (P : α → Prop) : Prop :=
  ∀ s, Inv s → ∀ a s', m s = some (a, s') → Inv s' ∧ P a

namespace Keeps

variable {Inv : σ → Prop} {m : StateT σ Option α} {f : α → StateT σ Option β} {P : α → Prop}
  {Q : β → Prop}

lemma mono {P' : α → Prop} (h : Keeps Inv m P) (hP : ∀ a, P a → P' a) : Keeps Inv m P' := by
  intro s hs a s' hm
  obtain ⟨hs', ha⟩ := h s hs a s' hm
  exact ⟨hs', hP a ha⟩

lemma pure {a : α} (ha : P a) : Keeps Inv (Pure.pure a) P := by
  intro s hs b s' hm
  cases hm
  exact ⟨hs, ha⟩

lemma bind (h : Keeps Inv m P) (hf : ∀ a, P a → Keeps Inv (f a) Q) : Keeps Inv (m >>= f) Q := by
  intro s hs b s' hm
  obtain ⟨⟨a, s1⟩, hm1, hm2⟩ := bind_inv hm
  obtain ⟨hs1, ha⟩ := h s hs a s1 hm1
  exact hf a ha s1 hs1 b s' hm2

lemma lift {o : Option α} (ho : ∀ a, o = some a → P a) : Keeps Inv (StateT.lift o) P := by
  intro s hs a s' hm
  obtain ⟨b, hb, heq⟩ := bind_inv hm
  cases heq
  exact ⟨hs, ho a hb⟩

lemma map {g : α → β} (h : Keeps Inv m P) (hg : ∀ a, P a → Q (g a)) : Keeps Inv (g <$> m) Q := by
  intro s hs b s' hm
  obtain ⟨⟨a, s1⟩, hm1, heq⟩ := bind_inv hm
  obtain ⟨hs1, ha⟩ := h s hs a s1 hm1
  cases heq
  exact ⟨hs1, hg a ha⟩

lemma get : Keeps Inv (MonadState.get : StateT σ Option σ) Inv := by
  intro s hs a s' hm
  cases hm
  exact ⟨hs, hs⟩

lemma modify {g : σ → σ} (hg : ∀ s, Inv s → Inv (g s)) :
    Keeps Inv (modifyThe σ g : StateT σ Option PUnit) fun _ => True := by
  intro s hs a s' hm
  cases hm
  exact ⟨hg s hs, trivial⟩

lemma ite {c : Prop} [Decidable c] {m' : StateT σ Option α} (h : c → Keeps Inv m P)
    (h' : ¬ c → Keeps Inv m' P) : Keeps Inv (if c then m else m') P := by
  by_cases hc : c
  · rw [if_pos hc]
    exact h hc
  · rw [if_neg hc]
    exact h' hc

end Keeps

end EthosCpc.Library
