import Mathlib.Data.List.FinRange
import Mathlib.Data.List.Perm.Subperm
import Mathlib.Logic.Relation

/-!
# Transitivity chains in cvc5

`EqProof::buildTransitivityChain` of `theory/uf/eq_proof.cpp`, on equalities as
the pairs of their sides.  An equality of the chain is searched for from the
left side of the conclusion, and the rest of the chain among the others.
-/

namespace EthosCpc.Cvc5.EqChain

open Relation List

variable {α : Type}

section Algorithm

variable [DecidableEq α]

/-- A premise with `a` on the left, if `a` occurs in it. -/
def orient (a : α) (premise : α × α) : Option (α × α) :=
  if a = premise.1 then some premise else if a = premise.2 then some premise.swap else none

/-- `EqProof::buildTransitivityChain`, with the premises as it leaves them. -/
def buildTransitivityChain (conclusion : α × α) (premises : List (α × α)) :
    Bool × List (α × α) :=
  let closed := (finRange premises.length).findSome? fun i : Fin premises.length =>
    match orient conclusion.1 (premises.get i) with
    | none => none
    | some premiseNode =>
      if conclusion.2 = premiseNode.2 then some [conclusion]
      else
        let res := buildTransitivityChain (premiseNode.2, conclusion.2) (premises.eraseIdx i)
        if res.1 then some (premiseNode :: res.2) else none
  match closed with
  | some chain => (true, chain)
  | none => (false, premises)
termination_by premises.length
decreasing_by
  have := i.2
  rw [length_eraseIdx_of_lt this]
  omega

end Algorithm

/-- Two nodes are the sides of an equality. -/
def Joined (es : List (α × α)) (a b : α) : Prop := (a, b) ∈ es ∨ (b, a) ∈ es

/-- Connection in the undirected graph of the equalities. -/
def Connected (es : List (α × α)) : α → α → Prop := ReflTransGen (Joined es)

/-- `(= s x1)`, `(= x1 x2)`, …, `(= xk t)`. -/
def Links : α → List (α × α) → α → Prop
  | s, [], t => s = t
  | s, e :: es, t => e.1 = s ∧ Links e.2 es t

/-- The equalities of a chain are some of the premises, up to symmetry. -/
def Uses (chain premises : List (α × α)) : Prop :=
  ∃ used, used <+~ premises ∧ Forall₂ (fun e p => e = p ∨ e = p.swap) chain used

/-- After the last visit to its first node, a path does not come back to it. -/
lemma exists_avoiding {R : α → α → Prop} {s t : α} (h : ReflTransGen R s t) (hne : t ≠ s) :
    ∃ x, x ≠ s ∧ R s x ∧ ReflTransGen (fun a b => R a b ∧ a ≠ s ∧ b ≠ s) x t := by
  induction h with
  | refl => exact absurd rfl hne
  | @tail b c _ hbc ih =>
    by_cases hb : b = s
    · exact ⟨c, hne, hb ▸ hbc, .refl⟩
    · obtain ⟨x, hx, hsx, hxb⟩ := ih hb
      exact ⟨x, hx, hsx, hxb.tail ⟨hbc, hb, hne⟩⟩

lemma connected_of_links {es chain : List (α × α)} {s t : α} (h : Links s chain t)
    (huses : Uses chain es) : Connected es s t := by
  obtain ⟨used, hsub, hall⟩ := huses
  have hmem := hsub.subset
  clear hsub
  induction hall generalizing s with
  | nil => exact h ▸ .refl
  | @cons e p chain used hep _ ih =>
    obtain ⟨rfl, hrest⟩ := h
    obtain ⟨hp, hmem⟩ := cons_subset.1 hmem
    refine .head ?_ (ih hrest hmem)
    rcases hep with rfl | rfl
    · exact .inl hp
    · exact .inr hp

/-- The answer: a chain of the premises, or the premises as they were. -/
structure Answer (s t : α) (premises : List (α × α)) (r : Bool × List (α × α)) : Prop where
  links : r.1 = true → Links s r.2 t
  uses : r.1 = true → Uses r.2 premises
  unchanged : r.1 = false → r.2 = premises
  complete : Connected premises s t → r.1 = true

variable [DecidableEq α] {s t : α} {premises : List (α × α)}

lemma orient_eq_some {p e : α × α} (h : orient s p = some e) : e.1 = s ∧ (e = p ∨ e = p.swap) := by
  unfold orient at h
  split at h
  · rename_i heq
    cases h
    exact ⟨heq.symm, .inl rfl⟩
  split at h
  · rename_i heq
    cases h
    exact ⟨heq.symm, .inr rfl⟩
  · cases h

lemma buildTransitivityChain_spec (hne : s ≠ t) (premises : List (α × α)) :
    Answer s t premises (buildTransitivityChain (s, t) premises) := by
  induction hn : premises.length using Nat.strong_induction_on generalizing s premises with
  | _ n ih =>
    have hperm : ∀ i : Fin premises.length, premises.get i :: premises.eraseIdx i ~ premises :=
      fun i => getElem_cons_eraseIdx_perm i.2
    have hrec : ∀ (i : Fin premises.length) {x : α}, x ≠ t →
        Answer x t (premises.eraseIdx i) (buildTransitivityChain (x, t) (premises.eraseIdx i)) := by
      intro i x hx
      refine ih _ ?_ hx _ rfl
      have := i.2
      rw [length_eraseIdx_of_lt this]
      omega
    rw [buildTransitivityChain]
    dsimp only
    split
    · rename_i chain hchain
      obtain ⟨i, _, hi⟩ := exists_of_findSome?_eq_some hchain
      split at hi
      · cases hi
      rename_i e he
      obtain ⟨hs, hep⟩ := orient_eq_some he
      split at hi
      · -- the chain is closed
        rename_i ht
        cases hi
        have heq : (s, t) = e := Prod.ext hs.symm ht
        refine ⟨fun _ => ⟨rfl, rfl⟩, fun _ => ⟨[premises.get i], ?_, ?_⟩, nofun, fun _ => rfl⟩
        · exact singleton_subperm_iff.2 (get_mem _ _)
        · exact .cons (heq ▸ hep) .nil
      rename_i ht
      split at hi
      swap
      · cases hi
      rename_i hres
      cases hi
      have hans := hrec i (Ne.symm ht)
      obtain ⟨used, hsub, hall⟩ := hans.uses hres
      refine ⟨fun _ => ⟨hs, hans.links hres⟩, fun _ => ⟨premises.get i :: used, ?_, ?_⟩, nofun,
        fun _ => rfl⟩
      · exact ((subperm_cons _).2 hsub).trans (hperm i).subperm
      · exact .cons hep hall
    rename_i hnone
    refine ⟨nofun, nofun, fun _ => rfl, fun hconn => ?_⟩
    obtain ⟨x, hx, hjoined, havoid⟩ := exists_avoiding hconn hne.symm
    -- the first equality of a path that does not come back to `s`
    obtain ⟨i, hi⟩ : ∃ i : Fin premises.length, orient s (premises.get i) = some (s, x) := by
      rcases hjoined with hmem | hmem
      · obtain ⟨i, hi⟩ := get_of_mem hmem
        exact ⟨i, by rw [hi, orient, if_pos rfl]⟩
      · obtain ⟨i, hi⟩ := get_of_mem hmem
        exact ⟨i, by rw [hi, orient, if_neg (Ne.symm hx), if_pos rfl]; rfl⟩
    have hclosed := findSome?_eq_none_iff.1 hnone i (mem_finRange i)
    rw [hi] at hclosed
    dsimp only at hclosed
    by_cases ht : t = x
    · rw [if_pos ht] at hclosed
      cases hclosed
    have hkeep : ∀ {a b : α}, (a, b) ∈ premises → a ≠ s → b ≠ s → (a, b) ∈ premises.eraseIdx i := by
      intro a b hab ha hb
      refine (mem_cons.1 ((hperm i).mem_iff.2 hab)).resolve_left fun heq => ?_
      rcases (orient_eq_some hi).2 with h | h
      · exact ha (congrArg Prod.fst (heq.trans h.symm))
      · exact hb ((congrArg Prod.snd heq).trans (congrArg Prod.fst h).symm)
    have hrest : Connected (premises.eraseIdx i) x t :=
      ReflTransGen.mono (fun a b h => h.1.imp (fun hab => hkeep hab h.2.1 h.2.2)
        fun hba => hkeep hba h.2.2 h.2.1) _ _ havoid
    rw [if_neg ht, if_pos ((hrec i (Ne.symm ht)).complete hrest)] at hclosed
    cases hclosed

/-- A chain is found if and only if the sides of the conclusion are connected, and otherwise the
premises stay as they are. -/
theorem buildTransitivityChain_correct (hne : s ≠ t) (premises : List (α × α)) :
    let r := buildTransitivityChain (s, t) premises
    (r.1 = true ↔ Connected premises s t) ∧
      (r.1 = true → Links s r.2 t ∧ Uses r.2 premises) ∧ (r.1 = false → r.2 = premises) := by
  have h := buildTransitivityChain_spec hne premises
  exact ⟨⟨fun hr => connected_of_links (h.links hr) (h.uses hr), h.complete⟩,
    fun hr => ⟨h.links hr, h.uses hr⟩, h.unchanged⟩

/-- A chain with an equality turned round. -/
theorem buildTransitivityChain_correct_two :
    (buildTransitivityChain (0, 2) [(1, 0), (0, 0), (1, 2)]).1 = true :=
  (buildTransitivityChain_correct (by decide) _).1.2
    (.head (.inr (.head _)) (.single (.inl (by decide))))

end EthosCpc.Cvc5.EqChain
