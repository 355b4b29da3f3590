import EthosCpc.Cvc5.CnfStream
import EthosCpc.Library.TotalRun
import Mathlib.Algebra.Order.BigOperators.Group.List
import Mathlib.Algebra.Order.Ring.Nat

/-!
# Soundness and completeness of the conversion to clauses

The invariant of a stream: the assignments of SAT variables that satisfy the
clauses give every literal the value of its node, and every assignment of the
atoms that satisfies what was asserted extends to such an assignment.  The first
part needs no fresh variables, the second one needs that the clauses speak about
variables below the next one only.
-/

namespace EthosCpc.Cvc5

open List (all_map any_nil not_mem_nil sum_cons)
open Library
open List (Forall₂ any_cons any_eq_true any_map forall_mem_cons forall_mem_singleton map_cons
  mem_append mem_cons mem_singleton)
open Function (update update_of_ne update_self)

variable {α : Type}

/-! ## Values -/

namespace CnfNode

mutual

/-- The value of a formula. -/
def eval (v : α → Bool) : CnfNode α → Bool
  | .const b => b
  | .atom a => v a
  | .not f => !f.eval v
  | .nary .and fs => (evals v fs).all id
  | .nary .or fs => (evals v fs).any id
  | .binary .xor f g => f.eval v ^^ g.eval v
  | .binary .implies f g => !f.eval v || g.eval v
  | .binary .equal f g => f.eval v == g.eval v
  | .ite c f g => if c.eval v then f.eval v else g.eval v

def evals (v : α → Bool) : List (CnfNode α) → List Bool
  | [] => []
  | f :: fs => f.eval v :: evals v fs

end

mutual

/-- The atoms of a formula. -/
def atoms : CnfNode α → List α
  | .const _ => []
  | .atom a => [a]
  | .not f => f.atoms
  | .nary _ fs => atomsOf fs
  | .binary _ f g => f.atoms ++ g.atoms
  | .ite c f g => c.atoms ++ (f.atoms ++ g.atoms)

def atomsOf : List (CnfNode α) → List α
  | [] => []
  | f :: fs => f.atoms ++ atomsOf fs

end

def IsNot (n : CnfNode α) : Prop := ∃ f, n = .not f

mutual

/-- No negation stands directly under a negation. -/
def NoDoubleNegation : CnfNode α → Prop
  | .const _ | .atom _ => True
  | .not f => ¬ f.IsNot ∧ f.NoDoubleNegation
  | .nary _ fs => NoDoubleNegations fs
  | .binary _ f g => f.NoDoubleNegation ∧ g.NoDoubleNegation
  | .ite c f g => c.NoDoubleNegation ∧ f.NoDoubleNegation ∧ g.NoDoubleNegation

def NoDoubleNegations : List (CnfNode α) → Prop
  | [] => True
  | f :: fs => f.NoDoubleNegation ∧ NoDoubleNegations fs

end

/-- Induction on formulas, with a hypothesis for every child. -/
@[elab_as_elim, induction_eliminator]
lemma rec' {motive : CnfNode α → Prop} (const : ∀ b, motive (.const b))
    (atom : ∀ a, motive (.atom a)) (not : ∀ f, motive f → motive (.not f))
    (nary : ∀ k fs, (∀ f ∈ fs, motive f) → motive (.nary k fs))
    (binary : ∀ k f g, motive f → motive g → motive (.binary k f g))
    (ite : ∀ c f g, motive c → motive f → motive g → motive (.ite c f g)) (n : CnfNode α) :
    motive n :=
  @CnfNode.rec α motive (fun fs => ∀ f ∈ fs, motive f) const atom not nary binary ite (by simp)
    (fun f fs hf hfs => by simpa using ⟨hf, hfs⟩) n

variable {fs : List (CnfNode α)} {n : CnfNode α}

lemma noDoubleNegations_iff : NoDoubleNegations fs ↔ ∀ f ∈ fs, f.NoDoubleNegation := by
  induction fs with
  | nil => simp [NoDoubleNegations]
  | cons f fs ih => rw [NoDoubleNegations, ih, forall_mem_cons]

lemma NoDoubleNegation.children (h : n.NoDoubleNegation) :
    ∀ c ∈ n.children, c.NoDoubleNegation := by
  cases n with
  | const b => simp [CnfNode.children]
  | atom a => simp [CnfNode.children]
  | not f => exact forall_mem_singleton.2 h.2
  | nary k fs => exact noDoubleNegations_iff.1 h
  | binary k f g => simpa [CnfNode.children, NoDoubleNegation] using h
  | ite c f g => simpa [CnfNode.children, NoDoubleNegation] using h

lemma evals_eq_map (v : α → Bool) (fs : List (CnfNode α)) : evals v fs = fs.map (eval v) := by
  induction fs with
  | nil => rfl
  | cons f fs ih => rw [evals, ih, map_cons]

lemma sizes_eq (fs : List (CnfNode α)) : sizes fs = (fs.map size).sum := by
  induction fs with
  | nil => rfl
  | cons f fs ih => rw [sizes, ih, map_cons, sum_cons]

lemma size_eq (n : CnfNode α) : n.size = (n.children.map size).sum + 1 := by
  cases n with
  | nary k fs => rw [size, sizes_eq, children]
  | _ => simp [size, children, Nat.add_assoc]

lemma size_lt_of_mem {c : CnfNode α} (h : c ∈ n.children) : c.size < n.size := by
  rw [size_eq n]
  exact Nat.lt_succ_of_le (List.single_le_sum (by simp) _ (List.mem_map_of_mem h))

lemma mem_atomsOf {a : α} : a ∈ atomsOf fs ↔ ∃ f ∈ fs, a ∈ f.atoms := by
  induction fs with
  | nil => simp [atomsOf]
  | cons f fs ih => simp [atomsOf, ih]

lemma mem_atoms {a : α} (h : a ∈ n.atoms) : n = .atom a ∨ ∃ c ∈ n.children, a ∈ c.atoms := by
  cases n with
  | const b => simp [atoms] at h
  | atom b => exact .inl (congrArg _ (mem_singleton.1 h).symm)
  | not f => exact .inr ⟨f, by simp [children], h⟩
  | nary k fs => exact .inr (mem_atomsOf.1 h)
  | binary k f g => exact .inr (by simpa [children, atoms] using h)
  | ite c f g => exact .inr (by simpa [children, atoms] using h)

end CnfNode

def SatLiteral.value (σ : Nat → Bool) (l : SatLiteral) : Bool := σ l.var ^^ l.negated

@[simp] lemma SatLiteral.value_neg (σ : Nat → Bool) (l : SatLiteral) :
    l.neg.value σ = !l.value σ := by
  simp [SatLiteral.value, SatLiteral.neg]

@[simp] lemma SatLiteral.neg_neg (l : SatLiteral) : l.neg.neg = l := by
  simp [SatLiteral.neg]

def clauseValue (σ : Nat → Bool) (c : List SatLiteral) : Bool := c.any (·.value σ)

lemma clauseValue_eraseDups (σ : Nat → Bool) (c : List SatLiteral) :
    clauseValue σ c.eraseDups = clauseValue σ c := by
  rw [Bool.eq_iff_iff, clauseValue, clauseValue, any_eq_true, any_eq_true]
  exact exists_congr fun l => and_congr_left' List.mem_eraseDups

lemma value_congr {σ τ : Nat → Bool} {l : SatLiteral} (h : σ l.var = τ l.var) :
    l.value σ = l.value τ := by
  rw [SatLiteral.value, SatLiteral.value, h]

lemma clauseValue_congr {σ τ : Nat → Bool} {c : List SatLiteral}
    (h : ∀ l ∈ c, σ l.var = τ l.var) : clauseValue σ c = clauseValue τ c := by
  rw [Bool.eq_iff_iff, clauseValue, clauseValue, any_eq_true, any_eq_true]
  exact exists_congr fun l => and_congr_right fun hl => by rw [value_congr (h l hl)]

namespace CnfStream

/-- The assignment satisfies the clauses, with the fixed variables. -/
structure Models (s : CnfStream α) (σ : Nat → Bool) : Prop where
  true_eq : σ trueVar = true
  false_eq : σ falseVar = false
  clauses : ∀ c ∈ s.clauses, clauseValue σ c.1 = true

/-- The assignment gives the literals of the atoms their values. -/
def Agrees (s : CnfStream α) (σ : Nat → Bool) (v : α → Bool) : Prop :=
  ∀ a l, s.nodeToLiteral (.atom a) = some l → l.value σ = v a

/-- The literals of both signs have a node, or none has. -/
def Paired (s : CnfStream α) : Prop :=
  ∀ l, (s.literalToNode l.neg).isSome = (s.literalToNode l).isSome

def HasAtoms (s : CnfStream α) (n : CnfNode α) : Prop :=
  ∀ a ∈ n.atoms, ∃ l, s.nodeToLiteral (.atom a) = some l

def Extends (s s' : CnfStream α) : Prop :=
  ∀ n l, s.nodeToLiteral n = some l → s'.nodeToLiteral n = some l

/-- The clauses define the literals, and say what `P` says about the atoms. -/
structure Encodes (s : CnfStream α) (P : (α → Bool) → Prop) : Prop where
  fixed : 2 ≤ s.nextVar
  bounded : ∀ n l, s.nodeToLiteral n = some l → l.var < s.nextVar
  clausesBounded : ∀ c ∈ s.clauses, ∀ l ∈ c.1, l.var < s.nextVar
  negated : ∀ n : CnfNode α, ¬ n.IsNot →
    s.nodeToLiteral (.not n) = (s.nodeToLiteral n).map SatLiteral.neg
  atoms : ∀ n l, s.nodeToLiteral n = some l → s.HasAtoms n
  paired : s.Paired
  sound : ∀ σ, s.Models σ → ∀ v, s.Agrees σ v →
    (∀ n l, s.nodeToLiteral n = some l → l.value σ = n.eval v) ∧ P v
  complete : ∀ v, P v → ∃ σ, s.Models σ ∧ s.Agrees σ v

variable {s s' s'' : CnfStream α} {P Q : (α → Bool) → Prop} {σ : Nat → Bool} {v : α → Bool}
  {n : CnfNode α}

lemma Extends.refl (s : CnfStream α) : s.Extends s := fun _ _ h => h

lemma Extends.trans (h : s.Extends s') (h' : s'.Extends s'') : s.Extends s'' :=
  fun n l hn => h' n l (h n l hn)

lemma Extends.free (h : s.Extends s') (hn : s'.nodeToLiteral n = none) :
    s.nodeToLiteral n = none := by
  cases hmap : s.nodeToLiteral n with
  | none => rfl
  | some l => exact (h n l hmap).symm.trans hn

lemma HasAtoms.mono (h : s.HasAtoms n) (hs : s.Extends s') : s'.HasAtoms n := by
  intro a ha
  obtain ⟨l, hl⟩ := h a ha
  exact ⟨l, hs _ l hl⟩

lemma Encodes.congr (hs : s.Encodes P) (h : ∀ v, P v ↔ Q v) : s.Encodes Q where
  fixed := hs.fixed
  bounded := hs.bounded
  clausesBounded := hs.clausesBounded
  negated := hs.negated
  atoms := hs.atoms
  paired := hs.paired
  sound := fun σ hσ v hv => (hs.sound σ hσ v hv).imp_right (h v).1
  complete := fun v hv => hs.complete v ((h v).2 hv)

/-! ## Literals with a meaning -/

/-- The literal is that of a node with the values `F`, or of its negation. -/
def Denotes (s : CnfStream α) (l : SatLiteral) (F : (α → Bool) → Bool) : Prop :=
  ∃ n l', s.nodeToLiteral n = some l' ∧
    ((l = l' ∧ ∀ v, F v = n.eval v) ∨ (l = l'.neg ∧ ∀ v, F v = !n.eval v))

variable {l : SatLiteral} {F : (α → Bool) → Bool}

lemma denotes_of_map (h : s.nodeToLiteral n = some l) : s.Denotes l fun v => n.eval v :=
  ⟨n, l, h, .inl ⟨rfl, fun _ => rfl⟩⟩

lemma Denotes.mono (h : s.Denotes l F) (hs : s.Extends s') : s'.Denotes l F := by
  obtain ⟨n, l', hn, h⟩ := h
  exact ⟨n, l', hs n l' hn, h⟩

lemma Denotes.neg (h : s.Denotes l F) : s.Denotes l.neg fun v => !F v := by
  obtain ⟨n, l', hn, ⟨rfl, hF⟩ | ⟨rfl, hF⟩⟩ := h
  · exact ⟨n, l, hn, .inr ⟨rfl, fun v => congrArg _ (hF v)⟩⟩
  · exact ⟨n, l', hn, .inl ⟨SatLiteral.neg_neg l', fun v => by simp [hF]⟩⟩

lemma Denotes.bounded (h : s.Denotes l F) (hs : s.Encodes P) : l.var < s.nextVar := by
  obtain ⟨n, l', hn, ⟨rfl, -⟩ | ⟨rfl, -⟩⟩ := h
  · exact hs.bounded n l hn
  · exact hs.bounded n l' hn

lemma Denotes.value (h : s.Denotes l F)
    (hσ : ∀ n l, s.nodeToLiteral n = some l → l.value σ = n.eval v) : l.value σ = F v := by
  obtain ⟨n, l', hn, ⟨rfl, hF⟩ | ⟨rfl, hF⟩⟩ := h
  · rw [hF, hσ n l hn]
  · rw [SatLiteral.value_neg, hF, hσ n l' hn]

/-! ## Clauses -/

def addClauses (s : CnfStream α) (cs : List (List SatLiteral)) : CnfStream α :=
  cs.foldl addClause s

lemma addClauses_cons (s : CnfStream α) (c : List SatLiteral) (cs : List (List SatLiteral)) :
    s.addClauses (c :: cs) = (s.addClause c).addClauses cs := rfl

lemma addClauses_append (s : CnfStream α) (cs ds : List (List SatLiteral)) :
    s.addClauses (cs ++ ds) = (s.addClauses cs).addClauses ds := List.foldl_append

/-- What adding clauses does to a stream. -/
structure Added (s : CnfStream α) (cs : List (List SatLiteral)) (s' : CnfStream α) : Prop where
  nextVar : s'.nextVar = s.nextVar
  nodeToLiteral : s'.nodeToLiteral = s.nodeToLiteral
  literalToNode : s'.literalToNode = s.literalToNode
  models : ∀ σ, s'.Models σ ↔ s.Models σ ∧ ∀ c ∈ cs, clauseValue σ c = true
  clauses : ∀ c ∈ s'.clauses, c ∈ s.clauses ∨ ∃ c' ∈ cs, c.1 = c'.eraseDups

lemma models_addClause (s : CnfStream α) (c : List SatLiteral) (σ : Nat → Bool) :
    (s.addClause c).Models σ ↔ s.Models σ ∧ clauseValue σ c = true := by
  rw [← clauseValue_eraseDups σ c]
  constructor
  · intro h
    obtain ⟨hc, hcs⟩ := forall_mem_cons.1 h.clauses
    exact ⟨⟨h.true_eq, h.false_eq, hcs⟩, hc⟩
  · rintro ⟨h, hc⟩
    exact ⟨h.true_eq, h.false_eq, forall_mem_cons.2 ⟨hc, h.clauses⟩⟩

lemma added_addClauses (s : CnfStream α) (cs : List (List SatLiteral)) :
    s.Added cs (s.addClauses cs) := by
  induction cs generalizing s with
  | nil => exact ⟨rfl, rfl, rfl, by simp [addClauses], fun c hc => .inl hc⟩
  | cons c cs ih =>
    have h := ih (s.addClause c)
    rw [addClauses_cons]
    refine ⟨h.nextVar, h.nodeToLiteral, h.literalToNode, ?_, ?_⟩
    · intro σ
      rw [h.models, models_addClause, forall_mem_cons, and_assoc]
    intro d hd
    rcases h.clauses d hd with hd | ⟨c', hc', heq⟩
    · rcases mem_cons.1 hd with rfl | hd
      · exact .inr ⟨c, .head _, rfl⟩
      · exact .inl hd
    · exact .inr ⟨c', List.mem_cons_of_mem c hc', heq⟩

variable {cs : List (List SatLiteral)}

lemma Added.bounded (h : s.Added cs s') {b : Nat}
    (hs : ∀ c ∈ s.clauses, ∀ l ∈ c.1, l.var < b) (hcs : ∀ c ∈ cs, ∀ l ∈ c, l.var < b) :
    ∀ c ∈ s'.clauses, ∀ l ∈ c.1, l.var < b := by
  intro c hc l hl
  rcases h.clauses c hc with hc | ⟨c', hc', heq⟩
  · exact hs c hc l hl
  · rw [heq] at hl
    exact hcs c' hc' l (List.mem_eraseDups.1 hl)

lemma Encodes.assert (hs : s.Encodes P) (hcs : ∀ c ∈ cs, ∀ l ∈ c, ∃ F, s.Denotes l F)
    (h : ∀ σ v, (∀ n l, s.nodeToLiteral n = some l → l.value σ = n.eval v) →
      ((∀ c ∈ cs, clauseValue σ c = true) ↔ Q v)) :
    (s.addClauses cs).Encodes fun v => P v ∧ Q v := by
  have hadd := s.added_addClauses cs
  have hnext := hadd.nextVar
  have hmap := hadd.nodeToLiteral
  have hagrees : ∀ {σ v}, (s.addClauses cs).Agrees σ v ↔ s.Agrees σ v := by
    intro σ v
    rw [Agrees, Agrees, hmap]
  refine ⟨hnext ▸ hs.fixed, ?_, ?_, ?_, ?_, ?_, ?_, ?_⟩
  · rw [hmap, hnext]
    exact hs.bounded
  · rw [hnext]
    refine hadd.bounded hs.clausesBounded ?_
    intro c hc l hl
    obtain ⟨F, hF⟩ := hcs c hc l hl
    exact hF.bounded hs
  · rw [hmap]
    exact hs.negated
  · intro n l hn
    rw [hmap] at hn
    exact (hs.atoms n l hn).mono fun n l h => by rw [hmap, h]
  · intro l
    rw [hadd.literalToNode]
    exact hs.paired l
  · intro σ hσ v hv
    obtain ⟨hσ, hclauses⟩ := (hadd.models σ).1 hσ
    obtain ⟨hvals, hP⟩ := hs.sound σ hσ v (hagrees.1 hv)
    rw [hmap]
    exact ⟨hvals, hP, (h σ v hvals).1 hclauses⟩
  rintro v ⟨hP, hQ⟩
  obtain ⟨σ, hσ, hv⟩ := hs.complete v hP
  have hvals := (hs.sound σ hσ v hv).1
  exact ⟨σ, (hadd.models σ).2 ⟨hσ, (h σ v hvals).2 hQ⟩, hagrees.2 hv⟩

/-! ## New literals -/

/-- A node without literal got one: a fixed variable for a constant, and the next one otherwise. -/
structure NewLit [DecidableEq α] (s : CnfStream α) (node : CnfNode α) (lit : SatLiteral)
    (s' : CnfStream α) : Prop where
  map : s'.nodeToLiteral = Function.update (Function.update s.nodeToLiteral node (some lit))
    (.not node) (some lit.neg)
  clauses : s'.clauses = s.clauses
  paired : s'.Paired
  lit_eq : (node = .const true ∧ lit = ⟨trueVar, false⟩ ∧ s'.nextVar = s.nextVar) ∨
    (node = .const false ∧ lit = ⟨falseVar, false⟩ ∧ s'.nextVar = s.nextVar) ∨
    ((∀ b, node ≠ .const b) ∧ lit = ⟨s.nextVar, false⟩ ∧ s'.nextVar = s.nextVar + 1)

section Literals

variable [DecidableEq α] {node : CnfNode α} {lit : SatLiteral}

omit [DecidableEq α] in
lemma not_ne_self (node : CnfNode α) : node ≠ .not node := by
  intro h
  have hsize := congrArg CnfNode.size h
  rw [CnfNode.size] at hsize
  omega

lemma NewLit.map_self (h : s.NewLit node lit s') : s'.nodeToLiteral node = some lit := by
  rw [h.map, update_of_ne (not_ne_self node), update_self]

lemma NewLit.map_not (h : s.NewLit node lit s') : s'.nodeToLiteral (.not node) = some lit.neg := by
  rw [h.map, update_self]

lemma NewLit.map_other (h : s.NewLit node lit s') (hn : n ≠ node) (hn' : n ≠ .not node) :
    s'.nodeToLiteral n = s.nodeToLiteral n := by
  rw [h.map, update_of_ne hn', update_of_ne hn]

lemma NewLit.cases (h : s.NewLit node lit s') {l : SatLiteral} (hn : s'.nodeToLiteral n = some l) :
    (n = node ∧ l = lit) ∨ (n = .not node ∧ l = lit.neg) ∨ s.nodeToLiteral n = some l := by
  by_cases hnode : n = node
  · subst hnode
    exact .inl ⟨rfl, Option.some.inj (hn.symm.trans h.map_self)⟩
  by_cases hnot : n = .not node
  · subst hnot
    exact .inr (.inl ⟨rfl, Option.some.inj (hn.symm.trans h.map_not)⟩)
  · exact .inr (.inr ((h.map_other hnode hnot).symm.trans hn))

lemma NewLit.extends (h : s.NewLit node lit s') (hs : s.Encodes P) (hnode : ¬ node.IsNot)
    (hfree : s.nodeToLiteral node = none) : s.Extends s' := by
  intro n l hn
  rw [h.map_other, hn]
  · rintro rfl
    rw [hfree] at hn
    contradiction
  rintro rfl
  rw [hs.negated node hnode, hfree] at hn
  contradiction

lemma NewLit.nextVar_le (h : s.NewLit node lit s') : s.nextVar ≤ s'.nextVar := by
  rcases h.lit_eq with ⟨-, -, h⟩ | ⟨-, -, h⟩ | ⟨-, -, h⟩ <;> omega

lemma NewLit.bounded (h : s.NewLit node lit s') (hs : s.Encodes P) : lit.var < s'.nextVar := by
  have hfixed := hs.fixed
  rcases h.lit_eq with ⟨-, rfl, hnext⟩ | ⟨-, rfl, hnext⟩ | ⟨-, rfl, hnext⟩
  · rw [hnext]
    exact Nat.lt_of_lt_of_le Nat.zero_lt_two hfixed
  · rw [hnext]
    exact hfixed
  · exact Nat.lt_of_lt_of_eq (Nat.lt_succ_self _) hnext.symm

lemma NewLit.exists_value (h : s.NewLit node lit s') (hσ : s.Models σ)
    (v : α → Bool) : ∃ τ, (∀ x < s.nextVar, τ x = σ x) ∧ lit.value τ = node.eval v := by
  rcases h.lit_eq with ⟨rfl, rfl, -⟩ | ⟨rfl, rfl, -⟩ | ⟨-, rfl, -⟩
  · refine ⟨σ, fun _ _ => rfl, ?_⟩
    rw [SatLiteral.value, hσ.true_eq]
    rfl
  · refine ⟨σ, fun _ _ => rfl, ?_⟩
    rw [SatLiteral.value, hσ.false_eq]
    rfl
  refine ⟨update σ s.nextVar (node.eval v), ?_, ?_⟩
  · intro x hx
    exact update_of_ne (Nat.ne_of_lt hx) _ _
  · simp [SatLiteral.value]

lemma Encodes.define (hs : s.Encodes P) (hnew : s.NewLit node lit s') (hnode : ¬ node.IsNot)
    (hfree : s.nodeToLiteral node = none)
    (hatoms : ∀ a ∈ node.atoms, node = .atom a ∨ ∃ l, s.nodeToLiteral (.atom a) = some l)
    {cs : List (List SatLiteral)} (hcs : ∀ c ∈ cs, ∀ l ∈ c, l.var < s'.nextVar)
    (hdef : ∀ σ v, σ trueVar = true → σ falseVar = false →
      (∀ n l, s.nodeToLiteral n = some l → l.value σ = n.eval v) →
      (∀ a, node = .atom a → lit.value σ = v a) →
      ((∀ c ∈ cs, clauseValue σ c = true) ↔ lit.value σ = node.eval v)) :
    (s'.addClauses cs).Encodes P := by
  have hadd := s'.added_addClauses cs
  have hnext := hadd.nextVar
  have hmap := hadd.nodeToLiteral
  have hext := hnew.extends hs hnode hfree
  have hle := hnew.nextVar_le
  refine ⟨?_, ?_, ?_, ?_, ?_, ?_, ?_, ?_⟩
  · rw [hnext]
    exact hs.fixed.trans hle
  · intro n l hn
    rw [hmap] at hn
    rw [hnext]
    rcases hnew.cases hn with ⟨rfl, rfl⟩ | ⟨rfl, rfl⟩ | hn
    · exact hnew.bounded hs
    · exact hnew.bounded hs
    · exact Nat.lt_of_lt_of_le (hs.bounded n l hn) hle
  · rw [hnext]
    refine hadd.bounded ?_ hcs
    rw [hnew.clauses]
    intro c hc l hl
    exact Nat.lt_of_lt_of_le (hs.clausesBounded c hc l hl) hle
  · intro m hm
    rw [hmap]
    by_cases hmn : m = node
    · subst hmn
      rw [hnew.map_not, hnew.map_self]
      rfl
    rw [hnew.map_other, hnew.map_other hmn, hs.negated m hm]
    · rintro rfl
      exact hm ⟨node, rfl⟩
    · rintro rfl
      exact hnode ⟨m, rfl⟩
    · intro heq
      exact hmn (CnfNode.not.inj heq)
  · intro n l hn
    rw [hmap] at hn
    have hnodeAtoms : s'.HasAtoms node := by
      intro a ha
      rcases hatoms a ha with hatom | ⟨l, hl⟩
      · exact ⟨lit, hatom ▸ hnew.map_self⟩
      · exact ⟨l, hext _ l hl⟩
    have hall : s'.HasAtoms n := by
      rcases hnew.cases hn with ⟨rfl, -⟩ | ⟨rfl, -⟩ | hn
      · exact hnodeAtoms
      · exact hnodeAtoms
      · exact (hs.atoms n l hn).mono hext
    exact hall.mono fun n l h => by rw [hmap, h]
  · intro l
    rw [hadd.literalToNode]
    exact hnew.paired l
  · intro σ hσ v hv
    obtain ⟨hσ', hclauses⟩ := (hadd.models σ).1 hσ
    have hmodels : s.Models σ := ⟨hσ'.true_eq, hσ'.false_eq, hnew.clauses ▸ hσ'.clauses⟩
    have hagrees : s.Agrees σ v := fun a l hl => hv a l (by rw [hmap]; exact hext _ l hl)
    obtain ⟨hvals, hP⟩ := hs.sound σ hmodels v hagrees
    have hatom : ∀ a, node = .atom a → lit.value σ = v a := fun a ha =>
      hv a lit (by rw [hmap, ← ha, hnew.map_self])
    have hlit := (hdef σ v hσ.true_eq hσ.false_eq hvals hatom).1 hclauses
    refine ⟨?_, hP⟩
    intro n l hn
    rw [hmap] at hn
    rcases hnew.cases hn with ⟨rfl, rfl⟩ | ⟨rfl, rfl⟩ | hn
    · exact hlit
    · rw [SatLiteral.value_neg, hlit, CnfNode.eval]
    · exact hvals n l hn
  intro v hP
  obtain ⟨σ, hσ, hv⟩ := hs.complete v hP
  obtain ⟨τ, hτ, hlit⟩ := hnew.exists_value hσ v
  have htrue : τ trueVar = true :=
    (hτ _ (Nat.lt_of_lt_of_le Nat.zero_lt_two hs.fixed)).trans hσ.true_eq
  have hfalse : τ falseVar = false := (hτ _ hs.fixed).trans hσ.false_eq
  have hvals : ∀ n l, s.nodeToLiteral n = some l → l.value τ = n.eval v := by
    intro n l hn
    rw [value_congr (hτ _ (hs.bounded n l hn))]
    exact (hs.sound σ hσ v hv).1 n l hn
  have hatom : ∀ a, node = .atom a → lit.value τ = v a := by
    rintro a rfl
    exact hlit
  refine ⟨τ, (hadd.models τ).2 ⟨⟨htrue, hfalse, ?_⟩,
    (hdef τ v htrue hfalse hvals hatom).2 hlit⟩, ?_⟩
  · rw [hnew.clauses]
    intro c hc
    rw [clauseValue_congr fun l hl => hτ _ (hs.clausesBounded c hc l hl)]
    exact hσ.clauses c hc
  intro a l hl
  rw [hmap] at hl
  rcases hnew.cases hl with ⟨heq, rfl⟩ | ⟨heq, -⟩ | hl
  · exact hatom a heq.symm
  · cases heq
  · exact hvals _ l hl

end Literals

end CnfStream

def CnfCall.formula : CnfCall α → CnfNode α
  | .convertAndAssert n _ _ => n
  | .ensureLiteral n => n

def CnfCall.Holds (v : α → Bool) : CnfCall α → Prop
  | .convertAndAssert n _ negated => n.eval v = !negated
  | .ensureLiteral _ => True

/-! ## Operations on the maps -/

section Stream

open CnfStream

variable {s s' : CnfStream α} {P : (α → Bool) → Prop} {node : CnfNode α}
  {l : SatLiteral}

lemma getLiteral_returns (h : s.nodeToLiteral node = some l) :
    Returns (getLiteral node) s fun l' s' => l' = l ∧ s' = s :=
  Returns.read h ⟨rfl, rfl⟩

def LiteralsOf (s : CnfStream α) (ns : List (CnfNode α)) (ls : List SatLiteral) : Prop :=
  Forall₂ (fun n l => s.nodeToLiteral n = some l) ns ls

variable {ns : List (CnfNode α)} {k : CnfNary}

lemma getLiterals_returns (h : ∀ n ∈ ns, ∃ l, s.nodeToLiteral n = some l) :
    Returns (getLiterals ns) s fun ls s' => LiteralsOf s ns ls ∧ s' = s := by
  induction ns with
  | nil => exact Returns.pure ⟨.nil, rfl⟩
  | cons n ns ih =>
    obtain ⟨⟨l, hl⟩, hns⟩ := forall_mem_cons.1 h
    rw [getLiterals]
    refine (getLiteral_returns hl).bind ?_
    rintro _ _ ⟨rfl, rfl⟩
    refine (ih hns).bind ?_
    rintro ls _ ⟨hls, rfl⟩
    exact Returns.pure ⟨.cons hl hls, rfl⟩

lemma assertClauses_returns (cs : List (List SatLiteral)) (s : CnfStream α) :
    Returns (assertClauses cs) s fun _ s' => s' = s.addClauses cs := by
  induction cs generalizing s with
  | nil => exact Returns.pure rfl
  | cons c cs ih =>
    rw [assertClauses]
    exact Returns.modify_bind (ih _)

lemma assertClause_returns (c : List SatLiteral) (s : CnfStream α) :
    Returns (assertClause c) s fun _ s' => s' = s.addClauses [c] := ⟨_, _, rfl, rfl⟩

/-- Only the back queries and the lists for notification differ. -/
structure Kept (s s' : CnfStream α) : Prop where
  nextVar : s'.nextVar = s.nextVar
  clauses : s'.clauses = s.clauses
  nodeToLiteral : s'.nodeToLiteral = s.nodeToLiteral
  paired : s.Paired → s'.Paired

lemma Kept.extends (h : Kept s s') : s.Extends s' := fun n l hn => by rw [h.nodeToLiteral, hn]

lemma CnfStream.Encodes.kept (hs : s.Encodes P) (h : Kept s s') : s'.Encodes P where
  fixed := by
    rw [h.nextVar]
    exact hs.fixed
  bounded := by
    rw [h.nodeToLiteral, h.nextVar]
    exact hs.bounded
  clausesBounded := by
    rw [h.clauses, h.nextVar]
    exact hs.clausesBounded
  negated := by
    rw [h.nodeToLiteral]
    exact hs.negated
  atoms := by
    intro n l hn
    rw [h.nodeToLiteral] at hn
    exact (hs.atoms n l hn).mono h.extends
  paired := h.paired hs.paired
  sound := by
    intro σ hσ v hv
    rw [h.nodeToLiteral]
    exact hs.sound σ ⟨hσ.true_eq, hσ.false_eq, h.clauses ▸ hσ.clauses⟩ v
      fun a l hl => hv a l (h.extends _ l hl)
  complete := by
    intro v hv
    obtain ⟨σ, hσ, hagrees⟩ := hs.complete v hv
    exact ⟨σ, ⟨hσ.true_eq, hσ.false_eq, h.clauses.symm ▸ hσ.clauses⟩,
      fun a l hl => hagrees a l (by rw [← h.nodeToLiteral, hl])⟩

lemma SatLiteral.neg_ne_self (l : SatLiteral) : l.neg ≠ l := by
  intro h
  have hneg := congrArg SatLiteral.negated h
  simp [SatLiteral.neg] at hneg

lemma SatLiteral.neg_inj {l l' : SatLiteral} (h : l.neg = l'.neg) : l = l' := by
  rw [← SatLiteral.neg_neg l, h, SatLiteral.neg_neg]

lemma kept_of_store (lit : SatLiteral)
    (hmap : s'.nodeToLiteral = s.nodeToLiteral) (hclauses : s'.clauses = s.clauses)
    (hnext : s'.nextVar = s.nextVar)
    (hself : ∀ l, l = lit ∨ l = lit.neg → (s'.literalToNode l).isSome)
    (hother : ∀ l, l ≠ lit → l ≠ lit.neg → s'.literalToNode l = s.literalToNode l) : Kept s s' := by
  refine ⟨hnext, hclauses, hmap, ?_⟩
  intro hs l
  by_cases hl : l = lit ∨ l = lit.neg
  · have hneg : l.neg = lit ∨ l.neg = lit.neg := by
      rcases hl with rfl | rfl
      · exact .inr rfl
      · exact .inl (SatLiteral.neg_neg lit)
    rw [hself l hl, hself l.neg hneg]
  obtain ⟨hne, hne'⟩ := not_or.1 hl
  rw [hother l hne hne', hother l.neg, hs l]
  · rintro rfl
    exact hne' (SatLiteral.neg_neg l).symm
  · intro h
    exact hne (SatLiteral.neg_inj h)

/-- The stream after `insert_safe`. -/
def storeSafe (s : CnfStream α) (l : SatLiteral) (n : CnfNode α) : CnfStream α :=
  if (s.literalToNode l).isSome then s
  else { s with literalToNode := Function.update s.literalToNode l (some n) }

lemma storeSafe_self (s : CnfStream α) (l : SatLiteral) (n : CnfNode α) :
    ((storeSafe s l n).literalToNode l).isSome := by
  rw [storeSafe]
  split
  · assumption
  · simp

lemma storeSafe_other (s : CnfStream α) {l l' : SatLiteral} (n : CnfNode α) (h : l' ≠ l) :
    (storeSafe s l n).literalToNode l' = s.literalToNode l' := by
  rw [storeSafe]
  split
  · rfl
  · exact update_of_ne h _ _

lemma storeSafe_rest (s : CnfStream α) (l : SatLiteral) (n : CnfNode α) :
    (storeSafe s l n).nodeToLiteral = s.nodeToLiteral ∧ (storeSafe s l n).clauses = s.clauses ∧
      (storeSafe s l n).nextVar = s.nextVar := by
  rw [storeSafe]
  split <;> exact ⟨rfl, rfl, rfl⟩

lemma insertLiteralSafe_returns (l : SatLiteral) (n : CnfNode α) (s : CnfStream α) :
    Returns (insertLiteralSafe l n) s fun _ s' => s' = storeSafe s l n := ⟨_, _, rfl, rfl⟩

lemma storeLiteral_returns (lit : SatLiteral) (node : CnfNode α) (s : CnfStream α) :
    Returns (storeLiteral lit node) s fun _ s' => Kept s s' := by
  rw [storeLiteral]
  refine (insertLiteralSafe_returns lit node s).bind ?_
  rintro _ _ rfl
  refine (insertLiteralSafe_returns lit.neg (.not node) _).mono ?_
  rintro _ _ rfl
  obtain ⟨hmap, hclauses, hnext⟩ := storeSafe_rest s lit node
  obtain ⟨hmap', hclauses', hnext'⟩ := storeSafe_rest (storeSafe s lit node) lit.neg (.not node)
  refine kept_of_store lit (hmap'.trans hmap) (hclauses'.trans hclauses) (hnext'.trans hnext) ?_ ?_
  · rintro l (rfl | rfl)
    · rw [storeSafe_other _ _ (SatLiteral.neg_ne_self l).symm]
      exact storeSafe_self s l node
    · exact storeSafe_self _ _ _
  · intro l hl hl'
    rw [storeSafe_other _ _ hl', storeSafe_other _ _ hl]

/-! ## New literals -/

variable [DecidableEq α]

variable {lit : SatLiteral}

lemma insert_returns (hs : s.Encodes P) (hnode : ¬ node.IsNot) (hfree : s.nodeToLiteral node = none)
    (hlit : (node = .const true ∧ lit = ⟨trueVar, false⟩ ∧ s'.nextVar = s.nextVar) ∨
      (node = .const false ∧ lit = ⟨falseVar, false⟩ ∧ s'.nextVar = s.nextVar) ∨
      ((∀ b, node ≠ .const b) ∧ lit = ⟨s.nextVar, false⟩ ∧ s'.nextVar = s.nextVar + 1))
    (hs' : s' = { s with nextVar := s'.nextVar }) :
    Returns (do
        insertNode node lit
        insertNode (.not node) lit.neg
        pure lit) s' fun l s'' => l = lit ∧ s.NewLit node lit s'' := by
  have hmap : s'.nodeToLiteral = s.nodeToLiteral := by rw [hs']
  have hins : Returns (insertNode node lit) s' fun _ s'' =>
      s'' = { s' with nodeToLiteral := update s'.nodeToLiteral node (some lit) } := by
    refine ⟨(), _, if_neg ?_, rfl⟩
    simp [hasLiteral, hmap, hfree]
  refine hins.bind ?_
  rintro _ _ rfl
  have hnot : (update s'.nodeToLiteral node (some lit)) (.not node) = none := by
    rw [update_of_ne (not_ne_self node).symm, hmap, hs.negated node hnode, hfree]
    rfl
  refine Returns.bind (Q := fun _ s'' => s'' = { s' with
    nodeToLiteral := update (update s'.nodeToLiteral node (some lit))
      (.not node) (some lit.neg) }) ⟨(), _, if_neg ?_, rfl⟩ ?_
  · simp [hasLiteral, hnot]
  rintro _ _ rfl
  refine Returns.pure ⟨rfl, ?_, ?_, ?_, hlit⟩
  · rw [hmap]
  · rw [hs']
  intro l
  rw [hs']
  exact hs.paired l

lemma nodeLiteral_returns (hs : s.Encodes P) (hnode : ¬ node.IsNot)
    (hfree : s.nodeToLiteral node = none) :
    Returns (nodeLiteral node) s fun lit s' => s.NewLit node lit s' := by
  rw [nodeLiteral]
  refine Returns.get_bind ?_
  rw [if_neg (by simp [hasLiteral, hfree])]
  have hmake : Returns (makeLiteral node) s fun lit s' =>
      ((node = .const true ∧ lit = ⟨trueVar, false⟩ ∧ s'.nextVar = s.nextVar) ∨
        (node = .const false ∧ lit = ⟨falseVar, false⟩ ∧ s'.nextVar = s.nextVar) ∨
        ((∀ b, node ≠ .const b) ∧ lit = ⟨s.nextVar, false⟩ ∧ s'.nextVar = s.nextVar + 1)) ∧
      s' = { s with nextVar := s'.nextVar } := by
    cases node with
    | const b =>
      cases b with
      | true => exact ⟨_, _, rfl, .inl ⟨rfl, rfl, rfl⟩, rfl⟩
      | false => exact ⟨_, _, rfl, .inr (.inl ⟨rfl, rfl, rfl⟩), rfl⟩
    | _ => exact ⟨_, _, rfl, .inr (.inr ⟨by simp, rfl, rfl⟩), rfl⟩
  refine hmake.bind ?_
  rintro lit s' ⟨hlit, hs'⟩
  refine (insert_returns hs hnode hfree hlit hs').mono ?_
  rintro _ s'' ⟨rfl, hnew⟩
  exact hnew

lemma CnfStream.NewLit.kept {s₁ s2 : CnfStream α} (h : Kept s s₁)
    (hnew : s₁.NewLit node lit s2) (h' : Kept s2 s') : s.NewLit node lit s' where
  map := by rw [h'.nodeToLiteral, hnew.map, h.nodeToLiteral]
  clauses := by rw [h'.clauses, hnew.clauses, h.clauses]
  paired := h'.paired hnew.paired
  lit_eq := by
    rw [h'.nextVar, ← h.nextVar]
    exact hnew.lit_eq

omit [DecidableEq α] in
lemma Kept.refl (s : CnfStream α) : Kept s s := ⟨rfl, rfl, rfl, id⟩

variable (flitPolicy : FormulaLitPolicy) (isInternalBoolVar : α → Bool)

lemma newLiteral_returns (hs : s.Encodes P) (hnode : ¬ node.IsNot)
    (hfree : s.nodeToLiteral node = none) (isTheoryAtom : Bool) :
    Returns (newLiteral flitPolicy node isTheoryAtom) s fun lit s' => s.NewLit node lit s' := by
  rw [newLiteral]
  refine Returns.modify_bind ?_
  set s₁ : CnfStream α := if (!isTheoryAtom && flitPolicy = .trackAndNotify) = true then
    { s with notifyFormulas := s.notifyFormulas.insert node } else s with hs1
  have hkept : Kept s s₁ := by
    rw [hs1]
    split <;> exact ⟨rfl, rfl, rfl, id⟩
  have hfree1 : s₁.nodeToLiteral node = none := by rw [hkept.nodeToLiteral, hfree]
  refine (nodeLiteral_returns (hs.kept hkept) hnode hfree1).bind ?_
  intro lit s2 hnew
  split
  · refine (storeLiteral_returns lit node s2).bind ?_
    intro _ s3 hkept'
    exact Returns.pure (NewLit.kept hkept hnew hkept')
  · exact Returns.pure (NewLit.kept hkept hnew (Kept.refl s2))

/-! ## Definitions -/

/-- The stream after a definition of the literal of a node. -/
structure Defined (s : CnfStream α) (P : (α → Bool) → Prop) (node : CnfNode α)
    (s' : CnfStream α) : Prop where
  encodes : s'.Encodes P
  extends' : s.Extends s'
  mapped : ∃ l, s'.nodeToLiteral node = some l

variable {s₁ : CnfStream α}

variable {cs : List (List SatLiteral)}

lemma defined_of_clauses (hs : s.Encodes P) (hnode : ¬ node.IsNot)
    (hfree : s.nodeToLiteral node = none)
    (hnew : s.NewLit node lit s₁)
    (hchildren : ∀ c ∈ node.children, ∃ l, s.nodeToLiteral c = some l)
    (hcs : ∀ c ∈ cs, ∀ l ∈ c, l = lit ∨ l = lit.neg ∨ ∃ F, s.Denotes l F)
    (hdef : ∀ σ v, σ trueVar = true → σ falseVar = false →
      (∀ n l, s.nodeToLiteral n = some l → l.value σ = n.eval v) →
      (∀ a, node = .atom a → lit.value σ = v a) →
      ((∀ c ∈ cs, clauseValue σ c = true) ↔ lit.value σ = node.eval v)) :
    Defined s P node (s₁.addClauses cs) := by
  have hmap := (s₁.added_addClauses cs).nodeToLiteral
  refine ⟨hs.define hnew hnode hfree ?_ ?_ hdef, ?_, lit, by rw [hmap, hnew.map_self]⟩
  · intro a ha
    rcases CnfNode.mem_atoms ha with hatom | ⟨c, hc, ha⟩
    · exact .inl hatom
    · obtain ⟨l, hl⟩ := hchildren c hc
      exact .inr (hs.atoms c l hl a ha)
  · intro c hc l hl
    rcases hcs c hc l hl with rfl | rfl | ⟨F, hF⟩
    · exact hnew.bounded hs
    · exact hnew.bounded hs
    · exact Nat.lt_of_lt_of_le (hF.bounded hs) hnew.nextVar_le
  intro n l hn
  rw [hmap]
  exact hnew.extends hs hnode hfree n l hn

lemma define_returns (hs : s.Encodes P) (hnode : ¬ node.IsNot) (hfree : s.nodeToLiteral node = none)
    (hchildren : ∀ c ∈ node.children, ∃ l, s.nodeToLiteral c = some l)
    {cs : SatLiteral → List (List SatLiteral)}
    (hcs : ∀ lit, ∀ c ∈ cs lit, ∀ l ∈ c, l = lit ∨ l = lit.neg ∨ ∃ F, s.Denotes l F)
    (hdef : ∀ lit σ v, (∀ n l, s.nodeToLiteral n = some l → l.value σ = n.eval v) →
      ((∀ c ∈ cs lit, clauseValue σ c = true) ↔ lit.value σ = node.eval v)) :
    Returns (do
        let lit ← newLiteral flitPolicy node false
        assertClauses (cs lit)) s fun _ s' => Defined s P node s' := by
  refine (newLiteral_returns flitPolicy hs hnode hfree false).bind ?_
  intro lit s₁ hnew
  refine (assertClauses_returns (cs lit) s₁).mono ?_
  rintro _ _ rfl
  exact defined_of_clauses hs hnode hfree hnew hchildren (hcs lit)
    fun σ v _ _ hvals _ => hdef lit σ v hvals

omit [DecidableEq α] in
lemma exists_denotes (h : s.nodeToLiteral node = some l) :
    (∃ F, s.Denotes l F) ∧ ∃ F, s.Denotes l.neg F :=
  ⟨⟨_, denotes_of_map h⟩, ⟨_, (denotes_of_map h).neg⟩⟩

omit [DecidableEq α] in
lemma not_isNot_nary (k : CnfNary) (fs : List (CnfNode α)) : ¬ (CnfNode.nary k fs).IsNot := by
  rintro ⟨f, hf⟩
  cases hf

/-- The connectives with two children. -/
lemma handleBinary_returns (hs : s.Encodes P) {k : CnfBinary} {f g : CnfNode α}
    (hfree : s.nodeToLiteral (.binary k f g) = none) {a b : SatLiteral}
    (hf : s.nodeToLiteral f = some a) (hg : s.nodeToLiteral g = some b)
    {cs : SatLiteral → SatLiteral → SatLiteral → List (List SatLiteral)}
    (hcs : ∀ lit, ∀ c ∈ cs a b lit, ∀ l ∈ c,
      l = lit ∨ l = lit.neg ∨ (l = a ∨ l = a.neg) ∨ l = b ∨ l = b.neg)
    (hdef : ∀ lit σ v, a.value σ = f.eval v → b.value σ = g.eval v →
      ((∀ c ∈ cs a b lit, clauseValue σ c = true) ↔ lit.value σ = (CnfNode.binary k f g).eval v)) :
    Returns (do
        let a ← getLiteral f
        let b ← getLiteral g
        let lit ← newLiteral flitPolicy (.binary k f g) false
        assertClauses (cs a b lit)) s fun _ s' => Defined s P (.binary k f g) s' := by
  refine (getLiteral_returns hf).bind ?_
  rintro _ _ ⟨rfl, rfl⟩
  refine (getLiteral_returns hg).bind ?_
  rintro _ _ ⟨rfl, rfl⟩
  obtain ⟨ha, ha'⟩ := exists_denotes hf
  obtain ⟨hb, hb'⟩ := exists_denotes hg
  refine define_returns flitPolicy hs (by rintro ⟨_, h⟩; cases h) hfree
    (by simp [CnfNode.children, hf, hg]) ?_ fun lit σ v hvals =>
      hdef lit σ v (hvals _ _ hf) (hvals _ _ hg)
  intro lit c hc l hl
  rcases hcs lit c hc l hl with rfl | rfl | (rfl | rfl) | rfl | rfl
  · exact .inl rfl
  · exact .inr (.inl rfl)
  · exact .inr (.inr ha)
  · exact .inr (.inr ha')
  · exact .inr (.inr hb)
  · exact .inr (.inr hb')

section Binary

variable {f g : CnfNode α} {a b : SatLiteral} (hs : s.Encodes P)
  (hf : s.nodeToLiteral f = some a) (hg : s.nodeToLiteral g = some b)

include hs hf hg

lemma handleXor_returns (hfree : s.nodeToLiteral (.binary .xor f g) = none) :
    Returns (handleXor flitPolicy f g) s fun _ s' => Defined s P (.binary .xor f g) s' := by
  refine handleBinary_returns flitPolicy hs hfree hf hg (by simp) ?_
  intro lit σ v ha hb
  simp only [clauseValue, forall_mem_cons, any_cons, SatLiteral.value_neg, ha, hb, CnfNode.eval]
  cases f.eval v <;> cases g.eval v <;> cases lit.value σ <;> simp

lemma handleImplies_returns (hfree : s.nodeToLiteral (.binary .implies f g) = none) :
    Returns (handleImplies flitPolicy f g) s fun _ s' =>
      Defined s P (.binary .implies f g) s' := by
  refine handleBinary_returns flitPolicy hs hfree hf hg (by simp) ?_
  intro lit σ v ha hb
  simp only [clauseValue, forall_mem_cons, any_cons, SatLiteral.value_neg, ha, hb, CnfNode.eval]
  cases f.eval v <;> cases g.eval v <;> cases lit.value σ <;> simp

lemma handleIff_returns (hfree : s.nodeToLiteral (.binary .equal f g) = none) :
    Returns (handleIff flitPolicy f g) s fun _ s' => Defined s P (.binary .equal f g) s' := by
  refine handleBinary_returns flitPolicy hs hfree hf hg (by simp) ?_
  intro lit σ v ha hb
  simp only [clauseValue, forall_mem_cons, any_cons, SatLiteral.value_neg, ha, hb, CnfNode.eval]
  cases f.eval v <;> cases g.eval v <;> cases lit.value σ <;> simp

end Binary

lemma handleIte_returns (hs : s.Encodes P) {c f g : CnfNode α}
    (hfree : s.nodeToLiteral (.ite c f g) = none) {d a b : SatLiteral}
    (hc : s.nodeToLiteral c = some d) (hf : s.nodeToLiteral f = some a)
    (hg : s.nodeToLiteral g = some b) :
    Returns (handleIte flitPolicy c f g) s fun _ s' => Defined s P (.ite c f g) s' := by
  rw [handleIte]
  refine (getLiteral_returns hc).bind ?_
  rintro _ _ ⟨rfl, rfl⟩
  refine (getLiteral_returns hf).bind ?_
  rintro _ _ ⟨rfl, rfl⟩
  refine (getLiteral_returns hg).bind ?_
  rintro _ _ ⟨rfl, rfl⟩
  have hd := exists_denotes hc
  have ha := exists_denotes hf
  have hb := exists_denotes hg
  refine define_returns flitPolicy hs (by rintro ⟨_, h⟩; cases h) hfree
    (by simp [CnfNode.children, hc, hf, hg]) (by simp [hd, ha, hb]) ?_
  intro lit σ v hvals
  simp only [clauseValue, forall_mem_cons, any_cons, SatLiteral.value_neg, hvals _ _ hc,
    hvals _ _ hf, hvals _ _ hg, CnfNode.eval]
  cases c.eval v <;> cases f.eval v <;> cases g.eval v <;> cases lit.value σ <;> simp

variable {fs : List (CnfNode α)} {ls : List SatLiteral}

omit [DecidableEq α] in
lemma LiteralsOf.values (h : LiteralsOf s fs ls) {σ : Nat → Bool} {v : α → Bool}
    (hvals : ∀ n l, s.nodeToLiteral n = some l → l.value σ = n.eval v) :
    CnfNode.evals v fs = ls.map (·.value σ) := by
  induction h with
  | nil => rfl
  | cons hf _ ih => rw [CnfNode.evals, map_cons, ih, hvals _ _ hf]

omit [DecidableEq α] in
lemma LiteralsOf.denotes
    (h : LiteralsOf s fs ls) : ∀ l ∈ ls, (∃ F, s.Denotes l F) ∧ ∃ F, s.Denotes l.neg F := by
  induction h with
  | nil => simp
  | cons hf _ ih => exact forall_mem_cons.2 ⟨exists_denotes hf, ih⟩

lemma LiteralsOf.of_newLit (hs : s.Encodes P) (hnew : s.NewLit node lit s₁) (hnode : ¬ node.IsNot)
    (hfree : s.nodeToLiteral node = none)
    (hfs : ∀ f ∈ fs, ∃ l, s.nodeToLiteral f = some l) (h : LiteralsOf s₁ fs ls) :
    LiteralsOf s fs ls := by
  induction h with
  | nil => exact .nil
  | cons hf _ ih =>
    obtain ⟨⟨l, hl⟩, hfs⟩ := forall_mem_cons.1 hfs
    refine .cons ?_ (ih hfs)
    rw [hl, ← hf, hnew.extends hs hnode hfree _ l hl]

/-- The connectives with any number of children: a clause for each of them, and one with all. -/
lemma handleNary_returns (hs : s.Encodes P) (hfree : s.nodeToLiteral (.nary k fs) = none)
    (hfs : ∀ f ∈ fs, ∃ l, s.nodeToLiteral f = some l)
    (each : SatLiteral → SatLiteral → List SatLiteral)
    (all : SatLiteral → List SatLiteral → List SatLiteral)
    (heach : ∀ lit l, ∀ l' ∈ each lit l, l' = lit ∨ l' = lit.neg ∨ l' = l ∨ l' = l.neg)
    (hall : ∀ lit ls, ∀ l' ∈ all lit ls, l' = lit ∨ l' = lit.neg ∨ ∃ l ∈ ls, l' = l ∨ l' = l.neg)
    (hdef : ∀ lit σ v ls, CnfNode.evals v fs = ls.map (·.value σ) →
      (((∀ l ∈ ls, clauseValue σ (each lit l) = true) ∧ clauseValue σ (all lit ls) = true) ↔
        lit.value σ = (CnfNode.nary k fs).eval v)) :
    Returns (do
        let lit ← newLiteral flitPolicy (.nary k fs) false
        let ls ← getLiterals fs
        assertClauses (ls.map (each lit))
        assertClause (all lit ls)) s fun _ s' => Defined s P (.nary k fs) s' := by
  have hnode := not_isNot_nary k fs
  refine (newLiteral_returns flitPolicy hs hnode hfree false).bind ?_
  intro lit s₁ hnew
  have hfs1 : ∀ f ∈ fs, ∃ l, s₁.nodeToLiteral f = some l := by
    intro f hf
    obtain ⟨l, hl⟩ := hfs f hf
    exact ⟨l, hnew.extends hs hnode hfree f l hl⟩
  refine (getLiterals_returns hfs1).bind ?_
  rintro ls _ ⟨hls, rfl⟩
  refine (assertClauses_returns _ _).bind ?_
  rintro _ _ rfl
  refine (assertClause_returns _ _).mono ?_
  rintro _ _ rfl
  have hls' := LiteralsOf.of_newLit hs hnew hnode hfree hfs hls
  rw [← addClauses_append]
  refine defined_of_clauses hs hnode hfree hnew hfs ?_ ?_
  · intro c hc l' hl'
    rcases mem_append.1 hc with hc | hc
    · obtain ⟨l, hl, rfl⟩ := List.mem_map.1 hc
      rcases heach lit l l' hl' with h | h | rfl | rfl
      · exact .inl h
      · exact .inr (.inl h)
      · exact .inr (.inr (hls'.denotes l' hl).1)
      · exact .inr (.inr (hls'.denotes l hl).2)
    rw [mem_singleton.1 hc] at hl'
    rcases hall lit ls l' hl' with h | h | ⟨l, hl, rfl | rfl⟩
    · exact .inl h
    · exact .inr (.inl h)
    · exact .inr (.inr (hls'.denotes l' hl).1)
    · exact .inr (.inr (hls'.denotes l hl).2)
  · intro σ v _ _ hvals _
    rw [← hdef lit σ v ls (hls'.values hvals), List.forall_mem_append, List.forall_mem_map,
      forall_mem_singleton]

lemma handleOr_returns (hs : s.Encodes P) (hfree : s.nodeToLiteral (.nary .or fs) = none)
    (hfs : ∀ f ∈ fs, ∃ l, s.nodeToLiteral f = some l) :
    Returns (handleOr flitPolicy fs) s fun _ s' => Defined s P (.nary .or fs) s' := by
  refine handleNary_returns flitPolicy hs hfree hfs (fun lit l => [lit, l.neg])
    (fun lit ls => ls ++ [lit.neg]) (by simp) ?_ ?_
  · intro lit ls l' hl'
    rcases mem_append.1 hl' with hl' | hl'
    · exact .inr (.inr ⟨l', hl', .inl rfl⟩)
    · exact .inr (.inl (mem_singleton.1 hl'))
  intro lit σ v ls hls
  rw [CnfNode.eval, hls]
  simp only [clauseValue, List.any_append, any_cons, any_map, SatLiteral.value_neg, any_nil]
  cases hlit : lit.value σ with
  | true => simp
  | false => simp

lemma handleAnd_returns (hs : s.Encodes P) (hfree : s.nodeToLiteral (.nary .and fs) = none)
    (hfs : ∀ f ∈ fs, ∃ l, s.nodeToLiteral f = some l) :
    Returns (handleAnd flitPolicy fs) s fun _ s' => Defined s P (.nary .and fs) s' := by
  rw [handleAnd]
  simp only [List.map_map]
  refine handleNary_returns flitPolicy hs hfree hfs (fun lit l => [lit.neg, l.neg.neg])
    (fun lit ls => ls.map SatLiteral.neg ++ [lit]) (by simp) ?_ ?_
  · intro lit ls l' hl'
    rcases mem_append.1 hl' with hl' | hl'
    · obtain ⟨l, hl, rfl⟩ := List.mem_map.1 hl'
      exact .inr (.inr ⟨l, hl, .inr rfl⟩)
    · exact .inl (mem_singleton.1 hl')
  intro lit σ v ls hls
  rw [CnfNode.eval, hls]
  simp only [clauseValue, List.any_append, any_cons, any_map, all_map,
    SatLiteral.value_neg, any_nil]
  cases hlit : lit.value σ with
  | true => simp
  | false => simp

/-! ## Traversal -/

lemma defined_of_leaf (hs : s.Encodes P) (hfree : s.nodeToLiteral node = none)
    (hnew : s.NewLit node lit s')
    (hleaf : (∃ b, node = .const b) ∨ ∃ a, node = .atom a) : Defined s P node s' := by
  change Defined s P node (s'.addClauses [])
  refine defined_of_clauses hs ?_ hfree hnew ?_ (by simp) ?_
  · rintro ⟨f, rfl⟩
    rcases hleaf with ⟨b, h⟩ | ⟨a, h⟩ <;> cases h
  · rcases hleaf with ⟨b, rfl⟩ | ⟨a, rfl⟩ <;> simp [CnfNode.children]
  intro σ v htrue hfalse _ hatom
  have hlit : lit.value σ = node.eval v := by
    rcases hleaf with ⟨b, rfl⟩ | ⟨a, rfl⟩
    · rcases hnew.lit_eq with ⟨hb, rfl, -⟩ | ⟨hb, rfl, -⟩ | ⟨hb, -, -⟩
      · rw [hb, SatLiteral.value, htrue]
        rfl
      · rw [hb, SatLiteral.value, hfalse]
        rfl
      · exact absurd rfl (hb b)
    · exact hatom a rfl
  simp [hlit]

lemma convertAtom_returns (hs : s.Encodes P) (hfree : s.nodeToLiteral node = none)
    (hleaf : (∃ b, node = .const b) ∨ ∃ a, node = .atom a) :
    Returns (convertAtom flitPolicy isInternalBoolVar node) s fun _ s' => Defined s P node s' := by
  have hnode : ¬ node.IsNot := by
    rintro ⟨f, rfl⟩
    rcases hleaf with ⟨b, h⟩ | ⟨a, h⟩ <;> cases h
  have htheory : Returns (newLiteral flitPolicy node true) s fun _ s' => Defined s P node s' :=
    (newLiteral_returns flitPolicy hs hnode hfree true).mono fun lit s' hnew =>
      defined_of_leaf hs hfree hnew hleaf
  unfold convertAtom
  refine Returns.get_bind ?_
  rw [if_neg (by simp [hasLiteral, hfree])]
  rcases hleaf with ⟨b, rfl⟩ | ⟨a, rfl⟩
  · exact htheory
  dsimp only
  split
  swap
  · exact htheory
  refine Returns.modify_bind ?_
  -- the list of variables is not part of the invariant
  have hkept : Kept s { s with booleanVariables := s.booleanVariables ++ [a] } :=
    ⟨rfl, rfl, rfl, id⟩
  refine (newLiteral_returns flitPolicy (hs.kept hkept) hnode hfree _).mono ?_
  intro lit s' hnew
  have hdef := defined_of_leaf (hs.kept hkept) hfree hnew (.inr ⟨a, rfl⟩)
  exact ⟨hdef.encodes, hdef.extends', hdef.mapped⟩

lemma handle_returns (hs : s.Encodes P) (hnode : ¬ node.IsNot) (hfree : s.nodeToLiteral node = none)
    (hchildren : ∀ c ∈ node.children, ∃ l, s.nodeToLiteral c = some l) :
    Returns (handle flitPolicy isInternalBoolVar node) s fun _ s' => Defined s P node s' := by
  rw [handle]
  refine Returns.get_bind ?_
  rw [if_neg (by simp [hasLiteral, hfree])]
  have hleaf : ((∃ b, node = .const b) ∨ ∃ a, node = .atom a) → Returns (do
      let _ ← convertAtom flitPolicy isInternalBoolVar node
      pure ()) s fun _ s' => Defined s P node s' := fun h =>
    (convertAtom_returns flitPolicy isInternalBoolVar hs hfree h).bind fun _ _ hdef =>
      Returns.pure hdef
  cases node with
  | const b => exact hleaf (.inl ⟨b, rfl⟩)
  | atom a => exact hleaf (.inr ⟨a, rfl⟩)
  | not f => exact absurd ⟨f, rfl⟩ hnode
  | nary k fs =>
    cases k with
    | and => exact handleAnd_returns flitPolicy hs hfree hchildren
    | or => exact handleOr_returns flitPolicy hs hfree hchildren
  | binary k f g =>
    obtain ⟨a, hf⟩ := hchildren f (by simp [CnfNode.children])
    obtain ⟨b, hg⟩ := hchildren g (by simp [CnfNode.children])
    cases k with
    | xor => exact handleXor_returns flitPolicy hs hf hg hfree
    | implies => exact handleImplies_returns flitPolicy hs hf hg hfree
    | equal => exact handleIff_returns flitPolicy hs hf hg hfree
  | ite c f g =>
    obtain ⟨d, hc⟩ := hchildren c (by simp [CnfNode.children])
    obtain ⟨a, hf⟩ := hchildren f (by simp [CnfNode.children])
    obtain ⟨b, hg⟩ := hchildren g (by simp [CnfNode.children])
    exact handleIte_returns flitPolicy hs hfree hc hf hg

lemma toCNFLoop_succ (fuel : Nat) (n : CnfNode α) (visit : List (CnfNode α))
    (cache : CnfNode α → Option Bool) (s : CnfStream α) :
    toCNFLoop flitPolicy isInternalBoolVar (fuel + 1) (n :: visit) cache s =
      if s.hasLiteral n then toCNFLoop flitPolicy isInternalBoolVar fuel visit cache s
      else
        match cache n with
        | none => toCNFLoop flitPolicy isInternalBoolVar fuel (n.children ++ n :: visit)
            (update cache n (some false)) s
        | some false => (handle flitPolicy isInternalBoolVar n s).bind fun p =>
          toCNFLoop flitPolicy isInternalBoolVar fuel visit (update cache n (some true)) p.2
        | some true => toCNFLoop flitPolicy isInternalBoolVar fuel visit cache s := by
  rw [toCNFLoop]
  change (if s.hasLiteral n = true then toCNFLoop flitPolicy isInternalBoolVar fuel visit cache
    else _) s = _
  split
  · rfl
  cases cache n with
  | none => rfl
  | some b => cases b <;> rfl

lemma toCNFLoop_mapped (h : ∃ l, s.nodeToLiteral node = some l) (fuel : Nat)
    (visit : List (CnfNode α)) (cache : CnfNode α → Option Bool) :
    toCNFLoop flitPolicy isInternalBoolVar (fuel + 1) (node :: visit) cache s =
      toCNFLoop flitPolicy isInternalBoolVar fuel visit cache s := by
  obtain ⟨l, hl⟩ := h
  rw [toCNFLoop_succ, if_pos (by rw [hasLiteral, hl]; rfl)]

/-- What the traversal has done when a list of nodes is taken from the stack. -/
structure Reached (s : CnfStream α) (P : (α → Bool) → Prop) (ns : List (CnfNode α))
    (cache : CnfNode α → Option Bool) (s' : CnfStream α) (cache' : CnfNode α → Option Bool) :
    Prop where
  encodes : s'.Encodes P
  extends' : s.Extends s'
  mapped : ∀ n ∈ ns, ∃ l, s'.nodeToLiteral n = some l
  cache_eq : ∀ m, s'.nodeToLiteral m = none → cache' m = cache m

/-- From a stack with `ns` on top, at most `b` steps lead to the stack below. -/
def Converts (s : CnfStream α) (P : (α → Bool) → Prop) (ns : List (CnfNode α))
    (cache : CnfNode α → Option Bool) (b : Nat) : Prop :=
  ∃ k ≤ b, ∃ s' cache', Reached s P ns cache s' cache' ∧ ∀ fuel visit,
    toCNFLoop flitPolicy isInternalBoolVar (k + fuel) (ns ++ visit) cache s =
      toCNFLoop flitPolicy isInternalBoolVar fuel visit cache' s'

lemma visits_of_size (n : CnfNode α) (hn : n.NoDoubleNegation) :
    ∀ {s : CnfStream α} {cache : CnfNode α → Option Bool}, s.Encodes P →
      (∀ m, cache m ≠ none → s.nodeToLiteral m = none → n.size < m.size) →
      Converts flitPolicy isInternalBoolVar s P [n] cache (2 * n.size) := by
  induction hsize : n.size using Nat.strong_induction_on generalizing n with
  | _ size ih =>
    subst hsize
    intro s cache hs hcache
    have hpos : 1 ≤ n.size := by
      rw [CnfNode.size_eq]
      omega
    cases hmap : s.nodeToLiteral n with
    | some l =>
      refine ⟨1, by omega, s, cache, ⟨hs, Extends.refl s, ?_, fun _ _ => rfl⟩, ?_⟩
      · exact forall_mem_singleton.2 ⟨l, hmap⟩
      intro fuel visit
      rw [Nat.add_comm]
      exact toCNFLoop_mapped flitPolicy isInternalBoolVar ⟨l, hmap⟩ fuel visit cache
    | none =>
      have hunvisited : cache n = none := by
        by_contra hne
        exact absurd (hcache n hne hmap) (Nat.lt_irrefl _)
      -- the children, while the node is on the stack
      have hlist : ∀ ns : List (CnfNode α), (∀ c ∈ ns, c ∈ n.children) →
          ∀ {s : CnfStream α} {cache : CnfNode α → Option Bool}, s.Encodes P →
            (∀ m, cache m ≠ none → s.nodeToLiteral m = none → n.size ≤ m.size) →
            Converts flitPolicy isInternalBoolVar s P ns cache (2 * (ns.map CnfNode.size).sum) := by
        intro ns
        induction ns with
        | nil =>
          intro _ s cache hs _
          refine ⟨0, by simp, s, cache, ⟨hs, Extends.refl s, by simp, fun _ _ => rfl⟩, ?_⟩
          intro fuel visit
          rw [Nat.zero_add, List.nil_append]
        | cons c ns ihs =>
          intro hmem s cache hs hcache
          obtain ⟨hc, hns⟩ := forall_mem_cons.1 hmem
          have hlt := CnfNode.size_lt_of_mem hc
          obtain ⟨k, hk, s₁, cache1, hvis, hrun⟩ := ih c.size hlt c (hn.children c hc) rfl hs
            fun m hm hfree => Nat.lt_of_lt_of_le hlt (hcache m hm hfree)
          have hcache1 : ∀ m, cache1 m ≠ none → s₁.nodeToLiteral m = none → n.size ≤ m.size := by
            intro m hm hfree
            rw [hvis.cache_eq m hfree] at hm
            exact hcache m hm (hvis.extends'.free hfree)
          obtain ⟨k', hk', s2, cache2, hvis', hrun'⟩ := ihs hns hvis.encodes hcache1
          refine ⟨k + k', by rw [map_cons, sum_cons]; omega, s2, cache2,
            ⟨hvis'.encodes, hvis.extends'.trans hvis'.extends', ?_, ?_⟩, ?_⟩
          · refine forall_mem_cons.2 ⟨?_, hvis'.mapped⟩
            obtain ⟨l, hl⟩ := hvis.mapped c (by simp)
            exact ⟨l, hvis'.extends' c l hl⟩
          · intro m hm
            rw [hvis'.cache_eq m hm, hvis.cache_eq m (hvis'.extends'.free hm)]
          intro fuel visit
          rw [Nat.add_assoc, ← hrun' fuel visit]
          exact hrun (k' + fuel) (ns ++ visit)
      have hcache' : ∀ m, update cache n (some false) m ≠ none →
          s.nodeToLiteral m = none → n.size ≤ m.size := by
        intro m hm hfree
        by_cases hmn : m = n
        · rw [hmn]
        · rw [update_of_ne hmn] at hm
          exact (hcache m hm hfree).le
      obtain ⟨k, hk, s₁, cache1, hvis, hrun⟩ := hlist n.children (fun _ h => h) hs hcache'
      have hsum := n.size_eq
      have hfirst : ∀ fuel visit,
          toCNFLoop flitPolicy isInternalBoolVar (k + 1 + fuel + 1) (n :: visit) cache s =
            toCNFLoop flitPolicy isInternalBoolVar (fuel + 1) (n :: visit) cache1 s₁ := by
        intro fuel visit
        rw [toCNFLoop_succ, if_neg (by simp [hasLiteral, hmap]), hunvisited, Nat.add_assoc,
          Nat.add_comm 1 fuel]
        exact hrun (fuel + 1) (n :: visit)
      cases hmap1 : s₁.nodeToLiteral n with
      | some l =>
        -- the literal of a negation was inserted with that of its child
        refine ⟨k + 2, by omega, s₁, cache1, ⟨hvis.encodes, hvis.extends',
          forall_mem_singleton.2 ⟨l, hmap1⟩, ?_⟩, ?_⟩
        · intro m hm
          rw [hvis.cache_eq m hm, update_of_ne]
          rintro rfl
          rw [hmap1] at hm
          contradiction
        intro fuel visit
        rw [show k + 2 + fuel = k + 1 + fuel + 1 by omega]
        exact (hfirst fuel visit).trans
          (toCNFLoop_mapped flitPolicy isInternalBoolVar ⟨l, hmap1⟩ fuel visit cache1)
      | none =>
        have hnode : ¬ n.IsNot := by
          rintro ⟨f, rfl⟩
          obtain ⟨l, hl⟩ := hvis.mapped f (by simp [CnfNode.children])
          rw [hvis.encodes.negated f hn.1, hl] at hmap1
          contradiction
        obtain ⟨⟨⟩, s2, hhandle, hdef⟩ := handle_returns flitPolicy isInternalBoolVar
          hvis.encodes hnode hmap1 hvis.mapped
        refine ⟨k + 2, by omega, s2, update cache1 n (some true), ⟨hdef.encodes,
          hvis.extends'.trans hdef.extends', forall_mem_singleton.2 hdef.mapped, ?_⟩, ?_⟩
        · intro m hm
          have hmn : m ≠ n := by
            rintro rfl
            obtain ⟨l, hl⟩ := hdef.mapped
            rw [hl] at hm
            contradiction
          rw [update_of_ne hmn, hvis.cache_eq m (hdef.extends'.free hm), update_of_ne hmn]
        intro fuel visit
        have hcached : cache1 n = some false := by rw [hvis.cache_eq n hmap1, update_self]
        rw [show k + 2 + fuel = k + 1 + fuel + 1 by omega]
        refine (hfirst fuel visit).trans ?_
        rw [toCNFLoop_succ, if_neg (by simp [hasLiteral, hmap1]), hcached]
        change (handle flitPolicy isInternalBoolVar n s₁).bind _ = _
        rw [hhandle]
        rfl

/-- The stream after a formula got a literal, for either sign. -/
structure Converted (s : CnfStream α) (P : (α → Bool) → Prop) (n : CnfNode α) (negated : Bool)
    (l : SatLiteral) (s' : CnfStream α) : Prop where
  encodes : s'.Encodes P
  extends' : s.Extends s'
  denotes : s'.Denotes l fun v => n.eval v ^^ negated
  mapped : ∃ l', s'.nodeToLiteral n = some l'

variable {n : CnfNode α}

lemma toCNF_returns (hs : s.Encodes P) (hn : n.NoDoubleNegation) (negated : Bool) :
    Returns (toCNF flitPolicy isInternalBoolVar n negated) s fun l s' =>
      Converted s P n negated l s' := by
  have hcache : ∀ m, (fun _ => none : CnfNode α → Option Bool) m ≠ none →
      s.nodeToLiteral m = none → n.size < m.size := fun m hm => absurd rfl hm
  obtain ⟨k, hk, s', cache', hvis, hrun⟩ :=
    visits_of_size flitPolicy isInternalBoolVar n hn hs hcache
  obtain ⟨l, hl⟩ := hvis.mapped n (by simp)
  have hloop : Returns (toCNFLoop flitPolicy isInternalBoolVar (2 * n.size) [n] fun _ => none) s
      fun _ s'' => s'' = s' := by
    obtain ⟨fuel, hfuel⟩ := Nat.exists_eq_add_of_le hk
    refine ⟨(), s', ?_, rfl⟩
    rw [hfuel]
    refine (hrun fuel []).trans ?_
    cases fuel <;> rfl
  rw [toCNF]
  refine hloop.bind ?_
  rintro _ _ rfl
  refine (getLiteral_returns hl).bind ?_
  rintro _ _ ⟨rfl, rfl⟩
  refine Returns.pure ⟨hvis.encodes, hvis.extends', ?_, _, hl⟩
  cases negated with
  | false => exact ⟨n, _, hl, .inl ⟨rfl, fun v => Bool.xor_false _⟩⟩
  | true => exact ⟨n, _, hl, .inr ⟨rfl, fun v => Bool.xor_true _⟩⟩

/-- The stream after the formulas of a list got literals. -/
structure ConvertedAll (s : CnfStream α) (P : (α → Bool) → Prop) (ns : List (CnfNode α))
    (negated : Bool) (ls : List SatLiteral) (s' : CnfStream α) : Prop where
  encodes : s'.Encodes P
  extends' : s.Extends s'
  denotes : Forall₂ (fun n l => s'.Denotes l fun v => n.eval v ^^ negated) ns ls
  mapped : ∀ n ∈ ns, ∃ l', s'.nodeToLiteral n = some l'

lemma toCNFs_returns (hns : ∀ n ∈ ns, n.NoDoubleNegation)
    (negated : Bool) : ∀ {s : CnfStream α}, s.Encodes P →
      Returns (toCNFs flitPolicy isInternalBoolVar ns negated) s fun ls s' =>
        ConvertedAll s P ns negated ls s' := by
  induction ns with
  | nil =>
    intro s hs
    exact Returns.pure ⟨hs, Extends.refl s, .nil, by simp⟩
  | cons n ns ih =>
    intro s hs
    obtain ⟨hn, hns⟩ := forall_mem_cons.1 hns
    rw [toCNFs]
    refine (toCNF_returns flitPolicy isInternalBoolVar hs hn negated).bind ?_
    intro l s₁ hl
    refine (ih hns hl.encodes).bind ?_
    intro ls s2 hls
    refine Returns.pure ⟨hls.encodes, hl.extends'.trans hls.extends',
      .cons (hl.denotes.mono hls.extends') hls.denotes, ?_⟩
    obtain ⟨l', hl'⟩ := hl.mapped
    exact forall_mem_cons.2 ⟨⟨l', hls.extends' n l' hl'⟩, hls.mapped⟩

/-! ## Assertions -/

/-- The stream after a formula was asserted, for either sign. -/
structure Asserted (s : CnfStream α) (P : (α → Bool) → Prop) (n : CnfNode α) (negated : Bool)
    (s' : CnfStream α) : Prop where
  encodes : s'.Encodes fun v => P v ∧ n.eval v = !negated
  extends' : s.Extends s'
  atoms : s'.HasAtoms n

omit [DecidableEq α] in
lemma hasAtoms_of_children (hs : s.Encodes P) (hleaf : ∀ a, n ≠ .atom a)
    (h : ∀ c ∈ n.children, ∃ l, s.nodeToLiteral c = some l) : s.HasAtoms n := by
  intro a ha
  rcases CnfNode.mem_atoms ha with rfl | ⟨c, hc, ha⟩
  · exact absurd rfl (hleaf a)
  · obtain ⟨l, hl⟩ := h c hc
    exact hs.atoms c l hl a ha

variable {negated : Bool}

omit [DecidableEq α] in
lemma asserted_of_clauses (hs : s₁.Encodes P) (hext : s.Extends s₁) (hatoms : s₁.HasAtoms n)
    (hcs : ∀ c ∈ cs, ∀ l ∈ c, ∃ F, s₁.Denotes l F)
    (h : ∀ σ v, (∀ n l, s₁.nodeToLiteral n = some l → l.value σ = n.eval v) →
      ((∀ c ∈ cs, clauseValue σ c = true) ↔ n.eval v = !negated)) :
    Asserted s P n negated (s₁.addClauses cs) := by
  have hmap := (s₁.added_addClauses cs).nodeToLiteral
  have hext' : s₁.Extends (s₁.addClauses cs) := fun n l hl => by rw [hmap, hl]
  exact ⟨hs.assert hcs h, hext.trans hext', hatoms.mono hext'⟩

/-- The clauses of the connectives with two children. -/
lemma assertBinary_returns (hs : s.Encodes P) {k : CnfBinary} {f g : CnfNode α}
    (hf : f.NoDoubleNegation) (hg : g.NoDoubleNegation) (negated : Bool)
    (cs : SatLiteral → SatLiteral → List (List SatLiteral))
    (hcs : ∀ p q, ∀ c ∈ cs p q, ∀ l ∈ c, (l = p ∨ l = p.neg) ∨ l = q ∨ l = q.neg)
    (hdef : ∀ p q σ v, p.value σ = f.eval v → q.value σ = g.eval v →
      ((∀ c ∈ cs p q, clauseValue σ c = true) ↔ (CnfNode.binary k f g).eval v = !negated)) :
    Returns (do
        let p ← toCNF flitPolicy isInternalBoolVar f false
        let q ← toCNF flitPolicy isInternalBoolVar g false
        assertClauses (cs p q)) s fun _ s' => Asserted s P (.binary k f g) negated s' := by
  refine (toCNF_returns flitPolicy isInternalBoolVar hs hf false).bind ?_
  intro p s₁ hp
  refine (toCNF_returns flitPolicy isInternalBoolVar hp.encodes hg false).bind ?_
  intro q s2 hq
  refine (assertClauses_returns _ _).mono ?_
  rintro _ _ rfl
  have hp' := hp.denotes.mono hq.extends'
  obtain ⟨l, hl⟩ := hp.mapped
  refine asserted_of_clauses hq.encodes (hp.extends'.trans hq.extends')
    (hasAtoms_of_children hq.encodes (by simp) ?_) ?_ ?_
  · simpa [CnfNode.children] using ⟨⟨l, hq.extends' f l hl⟩, hq.mapped⟩
  · intro c hc l hl
    rcases hcs p q c hc l hl with (rfl | rfl) | rfl | rfl
    · exact ⟨_, hp'⟩
    · exact ⟨_, hp'.neg⟩
    · exact ⟨_, hq.denotes⟩
    · exact ⟨_, hq.denotes.neg⟩
  intro σ v hvals
  exact hdef p q σ v ((hp'.value hvals).trans (Bool.xor_false _))
    ((hq.denotes.value hvals).trans (Bool.xor_false _))

omit [DecidableEq α] in
lemma any_value_of_forall₂ (h : Forall₂ (fun n l => s.Denotes l fun v => n.eval v ^^ negated) fs ls)
    {σ : Nat → Bool} {v : α → Bool}
    (hvals : ∀ n l, s.nodeToLiteral n = some l → l.value σ = n.eval v) :
    clauseValue σ ls = (CnfNode.evals v fs).any (· ^^ negated) := by
  induction h with
  | nil => rfl
  | cons hl _ ih =>
    rw [CnfNode.evals, any_cons, ← ih, clauseValue, any_cons, hl.value hvals]
    rfl

omit [DecidableEq α] in
lemma denotes_of_forall₂ {F : CnfNode α → (α → Bool) → Bool}
    (h : Forall₂ (fun n l => s.Denotes l (F n)) fs ls) : ∀ l ∈ ls, ∃ G, s.Denotes l G := by
  induction h with
  | nil => simp
  | cons hl _ ih => exact forall_mem_cons.2 ⟨⟨_, hl⟩, ih⟩

lemma convertAndAssertClause_returns (hs : s.Encodes P)
    (hfs : ∀ f ∈ fs, f.NoDoubleNegation) {negated : Bool}
    (hk : ∀ v, ((CnfNode.evals v fs).any (· ^^ negated) = true ↔
      (CnfNode.nary k fs).eval v = !negated)) :
    Returns (convertAndAssertClause flitPolicy isInternalBoolVar fs negated) s fun _ s' =>
      Asserted s P (.nary k fs) negated s' := by
  rw [convertAndAssertClause]
  refine (toCNFs_returns flitPolicy isInternalBoolVar hfs negated hs).bind ?_
  intro ls s₁ hls
  refine (assertClause_returns _ _).mono ?_
  rintro _ _ rfl
  refine asserted_of_clauses hls.encodes hls.extends'
    (hasAtoms_of_children (n := .nary k fs) hls.encodes (by simp) hls.mapped) ?_ ?_
  · exact forall_mem_singleton.2 (denotes_of_forall₂ hls.denotes)
  · intro σ v hvals
    rw [forall_mem_singleton, any_value_of_forall₂ hls.denotes hvals, hk]

/-- The clauses of a conditional. -/
lemma convertAndAssertIte_returns (hs : s.Encodes P) {c f g : CnfNode α}
    (hc : c.NoDoubleNegation) (hf : f.NoDoubleNegation) (hg : g.NoDoubleNegation)
    (negated : Bool) :
    Returns (convertAndAssertIte flitPolicy isInternalBoolVar c f g negated) s fun _ s' =>
      Asserted s P (.ite c f g) negated s' := by
  rw [convertAndAssertIte]
  refine (toCNF_returns flitPolicy isInternalBoolVar hs hc false).bind ?_
  intro p s₁ hp
  refine (toCNF_returns flitPolicy isInternalBoolVar hp.encodes hf negated).bind ?_
  intro q s2 hq
  refine (toCNF_returns flitPolicy isInternalBoolVar hq.encodes hg negated).bind ?_
  intro r s3 hr
  refine (assertClauses_returns _ _).mono ?_
  rintro _ _ rfl
  have hext := hq.extends'.trans hr.extends'
  have hp' := hp.denotes.mono hext
  have hq' := hq.denotes.mono hr.extends'
  obtain ⟨l, hl⟩ := hp.mapped
  obtain ⟨l', hl'⟩ := hq.mapped
  refine asserted_of_clauses hr.encodes (hp.extends'.trans hext)
    (hasAtoms_of_children hr.encodes (by simp) ?_) ?_ ?_
  · simpa [CnfNode.children] using ⟨⟨l, hext c l hl⟩, ⟨l', hr.extends' f l' hl'⟩, hr.mapped⟩
  · have hall : ∀ l ∈ [p.neg, p, q, r], ∃ F, s3.Denotes l F := by
      simpa using ⟨⟨_, hp'.neg⟩, ⟨_, hp'⟩, ⟨_, hq'⟩, ⟨_, hr.denotes⟩⟩
    intro c hc l hl
    refine hall l ?_
    simp only [mem_cons, not_mem_nil, or_false] at hc
    rcases hc with rfl | rfl
    · simp only [mem_cons, not_mem_nil, or_false] at hl ⊢
      tauto
    · simp only [mem_cons, not_mem_nil, or_false] at hl ⊢
      tauto
  · intro σ v hvals
    simp only [clauseValue, forall_mem_cons, any_cons, SatLiteral.value_neg,
      hp'.value hvals, hq'.value hvals, hr.denotes.value hvals, CnfNode.eval]
    cases c.eval v <;> cases f.eval v <;> cases g.eval v <;> cases negated <;> simp

lemma assertLiteral_returns (hs : s.Encodes P) (hn : n.NoDoubleNegation) (negated : Bool) :
    Returns (do
        let lit ← toCNF flitPolicy isInternalBoolVar n negated
        assertClause [lit]) s fun _ s' => Asserted s P n negated s' := by
  refine (toCNF_returns flitPolicy isInternalBoolVar hs hn negated).bind ?_
  intro l s₁ hl
  refine (assertClause_returns _ _).mono ?_
  rintro _ _ rfl
  obtain ⟨l', hl'⟩ := hl.mapped
  refine asserted_of_clauses hl.encodes hl.extends' (hl.encodes.atoms n l' hl') ?_ ?_
  · exact forall_mem_singleton.2 (forall_mem_singleton.2 ⟨_, hl.denotes⟩)
  intro σ v hvals
  rw [forall_mem_singleton, clauseValue, any_cons, hl.denotes.value hvals]
  cases n.eval v <;> cases negated <;> simp

/-- The stream after the formulas of a list were asserted, for either sign. -/
structure AssertedEach (s : CnfStream α) (P : (α → Bool) → Prop) (ns : List (CnfNode α))
    (negated : Bool) (s' : CnfStream α) : Prop where
  encodes : s'.Encodes fun v => P v ∧ ∀ n ∈ ns, n.eval v = !negated
  extends' : s.Extends s'
  atoms : ∀ n ∈ ns, s'.HasAtoms n

lemma convertAndAssertEach_returns (negated : Bool)
    (h : ∀ f ∈ fs, ∀ {s : CnfStream α} {P : (α → Bool) → Prop}, s.Encodes P →
      Returns (convertAndAssert flitPolicy isInternalBoolVar f negated) s fun _ s' =>
        Asserted s P f negated s') :
    ∀ {s : CnfStream α} {P : (α → Bool) → Prop}, s.Encodes P →
      Returns (convertAndAssertEach flitPolicy isInternalBoolVar fs negated) s fun _ s' =>
        AssertedEach s P fs negated s' := by
  induction fs with
  | nil =>
    intro s P hs
    exact Returns.pure ⟨hs.congr (by simp), Extends.refl s, by simp⟩
  | cons f fs ih =>
    intro s P hs
    obtain ⟨hf, hfs⟩ := forall_mem_cons.1 h
    rw [convertAndAssertEach]
    refine (hf hs).bind ?_
    intro _ s₁ h1
    refine (ih hfs h1.encodes).mono ?_
    intro _ s2 h2
    refine ⟨h2.encodes.congr fun v => ?_, h1.extends'.trans h2.extends', ?_⟩
    · rw [forall_mem_cons, and_assoc]
    · exact forall_mem_cons.2 ⟨h1.atoms.mono h2.extends', h2.atoms⟩

omit [DecidableEq α] in
lemma asserted_of_each (h : AssertedEach s P fs negated s')
    (hk : ∀ v, (∀ f ∈ fs, f.eval v = !negated) ↔ (CnfNode.nary k fs).eval v = !negated) :
    Asserted s P (.nary k fs) negated s' := by
  refine ⟨h.encodes.congr fun v => ?_, h.extends', ?_⟩
  · rw [hk]
  intro a ha
  obtain ⟨f, hf, ha⟩ := CnfNode.mem_atomsOf.1 ha
  exact h.atoms f hf a ha

lemma convertAndAssertXor_returns (hs : s.Encodes P) {f g : CnfNode α}
    (hf : f.NoDoubleNegation) (hg : g.NoDoubleNegation) (negated : Bool) :
    Returns (convertAndAssertXor flitPolicy isInternalBoolVar f g negated) s fun _ s' =>
      Asserted s P (.binary .xor f g) negated s' := by
  cases negated with
  | false =>
    refine assertBinary_returns flitPolicy isInternalBoolVar hs hf hg false
      (fun p q => [[p.neg, q.neg], [p, q]]) (by simp) ?_
    intro p q σ v hp hq
    simp only [clauseValue, forall_mem_cons, any_cons, SatLiteral.value_neg, hp, hq, CnfNode.eval]
    cases f.eval v <;> cases g.eval v <;> simp
  | true =>
    refine assertBinary_returns flitPolicy isInternalBoolVar hs hf hg true
      (fun p q => [[p.neg, q], [p, q.neg]]) (by simp) ?_
    intro p q σ v hp hq
    simp only [clauseValue, forall_mem_cons, any_cons, SatLiteral.value_neg, hp, hq, CnfNode.eval]
    cases f.eval v <;> cases g.eval v <;> simp

lemma convertAndAssertIff_returns (hs : s.Encodes P) {f g : CnfNode α}
    (hf : f.NoDoubleNegation) (hg : g.NoDoubleNegation) (negated : Bool) :
    Returns (convertAndAssertIff flitPolicy isInternalBoolVar f g negated) s fun _ s' =>
      Asserted s P (.binary .equal f g) negated s' := by
  cases negated with
  | false =>
    refine assertBinary_returns flitPolicy isInternalBoolVar hs hf hg false
      (fun p q => [[p.neg, q], [p, q.neg]]) (by simp) ?_
    intro p q σ v hp hq
    simp only [clauseValue, forall_mem_cons, any_cons, SatLiteral.value_neg, hp, hq, CnfNode.eval]
    cases f.eval v <;> cases g.eval v <;> simp
  | true =>
    refine assertBinary_returns flitPolicy isInternalBoolVar hs hf hg true
      (fun p q => [[p.neg, q.neg], [p, q]]) (by simp) ?_
    intro p q σ v hp hq
    simp only [clauseValue, forall_mem_cons, any_cons, SatLiteral.value_neg, hp, hq, CnfNode.eval]
    cases f.eval v <;> cases g.eval v <;> simp

lemma convertAndAssert_returns (n : CnfNode α) (hn : n.NoDoubleNegation) (negated : Bool) :
    ∀ {s : CnfStream α} {P : (α → Bool) → Prop}, s.Encodes P →
      Returns (convertAndAssert flitPolicy isInternalBoolVar n negated) s fun _ s' =>
        Asserted s P n negated s' := by
  induction n generalizing negated with
  | const b =>
    intro s P hs
    exact assertLiteral_returns flitPolicy isInternalBoolVar hs hn negated
  | atom a =>
    intro s P hs
    exact assertLiteral_returns flitPolicy isInternalBoolVar hs hn negated
  | not f ih =>
    intro s P hs
    refine (ih hn.2 (!negated) hs).mono ?_
    intro _ s' h
    refine ⟨h.encodes.congr fun v => ?_, h.extends', h.atoms⟩
    rw [CnfNode.eval]
    cases f.eval v <;> cases negated <;> simp
  | nary k fs ih =>
    intro s P hs
    have hfs := CnfNode.noDoubleNegations_iff.1 hn
    have heach := convertAndAssertEach_returns flitPolicy isInternalBoolVar negated
      (fun f hf => ih f hf (hfs f hf) negated) hs
    cases k with
    | and =>
      cases negated with
      | false =>
        refine heach.mono fun _ s' h => asserted_of_each h fun v => ?_
        rw [CnfNode.eval, CnfNode.evals_eq_map, all_map]
        simp
      | true =>
        refine convertAndAssertClause_returns flitPolicy isInternalBoolVar hs hfs fun v => ?_
        rw [CnfNode.eval]
        simp
    | or =>
      cases negated with
      | false =>
        refine convertAndAssertClause_returns flitPolicy isInternalBoolVar hs hfs fun v => ?_
        rw [CnfNode.eval]
        simp
      | true =>
        refine heach.mono fun _ s' h => asserted_of_each h fun v => ?_
        rw [CnfNode.eval, CnfNode.evals_eq_map, any_map]
        simp
  | binary k f g ihf ihg =>
    intro s P hs
    obtain ⟨hf, hg⟩ := hn
    cases k with
    | xor => exact convertAndAssertXor_returns flitPolicy isInternalBoolVar hs hf hg negated
    | equal => exact convertAndAssertIff_returns flitPolicy isInternalBoolVar hs hf hg negated
    | implies =>
      cases negated with
      | false =>
        exact assertBinary_returns flitPolicy isInternalBoolVar hs hf hg false
          (fun p q => [[p.neg, q]]) (by simp) fun p q σ v hp hq => by
            simp [clauseValue, hp, hq, CnfNode.eval]
      | true =>
        rw [convertAndAssert]
        refine (ihf hf false hs).bind ?_
        intro _ s₁ h1
        refine (ihg hg true h1.encodes).mono ?_
        intro _ s2 h2
        refine ⟨h2.encodes.congr fun v => ?_, h1.extends'.trans h2.extends', ?_⟩
        · rw [and_assoc, CnfNode.eval]
          simp
        intro a ha
        rcases mem_append.1 ha with ha | ha
        · exact h1.atoms.mono h2.extends' a ha
        · exact h2.atoms a ha
  | ite c f g _ _ _ =>
    intro s P hs
    exact convertAndAssertIte_returns flitPolicy isInternalBoolVar hs hn.1 hn.2.1 hn.2.2 negated

/-! ## Calls -/

omit [DecidableEq α] in
lemma setRemovable_returns (hs : s.Encodes P) (b : Bool) :
    Returns (setRemovable b) s fun _ s' => s'.Encodes P ∧ s.Extends s' ∧
      s'.nodeToLiteral = s.nodeToLiteral :=
  ⟨(), { s with removable := b }, rfl, hs.kept ⟨rfl, rfl, rfl, id⟩, fun _ _ h => h, rfl⟩

omit [DecidableEq α] in
lemma ensureMappingForLiteral_returns (hs : s.Encodes P) (hn : s.nodeToLiteral n = some l) :
    Returns (ensureMappingForLiteral n) s fun _ s' => Defined s P n s' := by
  rw [ensureMappingForLiteral]
  refine (getLiteral_returns hn).bind ?_
  intro l' t hread
  rw [hread.1, hread.2]
  refine Returns.get_bind ?_
  split
  · exact Returns.pure ⟨hs, Extends.refl s, l, hn⟩
  rename_i hfree
  have hfree' : ¬ (s.literalToNode l.neg).isSome := by
    rw [hs.paired l]
    exact hfree
  set s₁ : CnfStream α := { s with
    literalToNode := update s.literalToNode l (some n) }
  set s2 : CnfStream α := { s₁ with
    literalToNode := update s₁.literalToNode l.neg (some (.not n)) }
  have hfree1 : ¬ (s₁.literalToNode l.neg).isSome := by
    change ¬ (update s.literalToNode l (some n) l.neg).isSome
    rw [update_of_ne (SatLiteral.neg_ne_self l)]
    exact hfree'
  have hins : Returns (insertLiteral l n) s fun _ s' => s' = s₁ := ⟨(), s₁, if_neg hfree, rfl⟩
  have hins' : Returns (insertLiteral l.neg (.not n)) s₁ fun _ s' => s' = s2 :=
    ⟨(), s2, if_neg hfree1, rfl⟩
  have hkept : Kept s s2 := by
    refine kept_of_store l rfl rfl rfl ?_ ?_
    · rintro l' (rfl | rfl)
      · change (update (update s.literalToNode l' (some n)) l'.neg (some (.not n)) l').isSome
        rw [update_of_ne (SatLiteral.neg_ne_self l').symm, update_self]
        rfl
      · change (update s₁.literalToNode l.neg (some (.not n)) l.neg).isSome
        rw [update_self]
        rfl
    intro l' hl hl'
    change update (update s.literalToNode l (some n)) l.neg (some (.not n)) l' = _
    rw [update_of_ne hl', update_of_ne hl]
  refine hins.bind ?_
  rintro _ _ rfl
  refine hins'.mono ?_
  rintro _ _ rfl
  exact ⟨hs.kept hkept, hkept.extends, l, hn⟩

lemma ensureNewLiteral_returns (hs : s.Encodes P) (hn : n.NoDoubleNegation)
    (hfree : s.nodeToLiteral n = none) :
    Returns (ensureNewLiteral flitPolicy isInternalBoolVar n) s fun _ s' => Defined s P n s' := by
  have hconvert : Returns (do
      setRemovable false
      let lit ← toCNF flitPolicy isInternalBoolVar n false
      storeLiteral lit n) s fun _ s' => Defined s P n s' := by
    refine (setRemovable_returns hs false).bind ?_
    rintro _ s₁ ⟨hs1, hext, -⟩
    refine (toCNF_returns flitPolicy isInternalBoolVar hs1 hn false).bind ?_
    intro lit s2 h
    refine (storeLiteral_returns lit n s2).mono ?_
    intro _ s3 hkept
    obtain ⟨l, hl⟩ := h.mapped
    exact ⟨h.encodes.kept hkept, hext.trans (h.extends'.trans hkept.extends), l,
      hkept.extends n l hl⟩
  cases n with
  | atom a =>
    refine (convertAtom_returns flitPolicy isInternalBoolVar hs hfree (.inr ⟨a, rfl⟩)).bind ?_
    intro _ s' h
    exact Returns.pure h
  | _ => exact hconvert

lemma ensureLiteral_returns (hs : s.Encodes P) (hn : n.NoDoubleNegation) :
    Returns (ensureLiteral flitPolicy isInternalBoolVar n) s fun _ s' => Defined s P n s' := by
  rw [ensureLiteral]
  refine Returns.get_bind ?_
  cases hmap : s.nodeToLiteral n with
  | some l =>
    rw [if_pos (by rw [hasLiteral, hmap]; rfl)]
    exact ensureMappingForLiteral_returns hs hmap
  | none =>
    rw [if_neg (by simp [hasLiteral, hmap])]
    cases n with
    | not f =>
      -- the literal of a negation is that of its child
      have hfree : s.nodeToLiteral f = none := by
        rw [hs.negated f hn.1] at hmap
        exact Option.map_eq_none_iff.1 hmap
      refine (ensureNewLiteral_returns flitPolicy isInternalBoolVar hs hn.2 hfree).mono ?_
      intro _ s' h
      obtain ⟨l, hl⟩ := h.mapped
      exact ⟨h.encodes, h.extends', l.neg, by rw [h.encodes.negated f hn.1, hl]; rfl⟩
    | _ => exact ensureNewLiteral_returns flitPolicy isInternalBoolVar hs hn hmap

namespace CnfCall

lemma run_returns (hs : s.Encodes P) (c : CnfCall α) (hc : c.formula.NoDoubleNegation) :
    Returns (c.run flitPolicy isInternalBoolVar) s fun _ s' =>
      s'.Encodes (fun v => P v ∧ c.Holds v) ∧ s.Extends s' ∧ s'.HasAtoms c.formula := by
  cases c with
  | convertAndAssert n removable negated =>
    rw [run]
    refine (setRemovable_returns hs removable).bind ?_
    rintro _ s₁ ⟨hs1, hext, -⟩
    refine (convertAndAssert_returns flitPolicy isInternalBoolVar n hc negated hs1).mono ?_
    intro _ s2 h
    exact ⟨h.encodes, hext.trans h.extends', h.atoms⟩
  | ensureLiteral n =>
    refine (ensureLiteral_returns flitPolicy isInternalBoolVar hs hc).mono ?_
    intro _ s' h
    obtain ⟨l, hl⟩ := h.mapped
    exact ⟨h.encodes.congr fun v => by simp [Holds], h.extends', h.encodes.atoms n l hl⟩

end CnfCall

omit [DecidableEq α] in
lemma encodes_init : (CnfStream.init : CnfStream α).Encodes fun _ => True where
  fixed := le_rfl
  bounded := by
    intro n l h
    cases h
  clausesBounded := by
    intro c hc
    cases hc
  negated := fun _ _ => rfl
  atoms := by
    intro n l h
    cases h
  paired := fun _ => rfl
  sound := by
    intro σ _ v _
    refine ⟨?_, trivial⟩
    intro n l h
    cases h
  complete := by
    intro v _
    refine ⟨fun x => x == trueVar, ⟨rfl, rfl, ?_⟩, ?_⟩
    · intro c hc
      cases hc
    · intro a l h
      cases h

lemma runCalls_returns (calls : List (CnfCall α))
    (hcalls : ∀ c ∈ calls, c.formula.NoDoubleNegation) :
    ∀ {s : CnfStream α} {P : (α → Bool) → Prop}, s.Encodes P →
      Returns (runCalls flitPolicy isInternalBoolVar calls) s fun _ s' =>
        s'.Encodes (fun v => P v ∧ ∀ c ∈ calls, c.Holds v) ∧ s.Extends s' ∧
          ∀ c ∈ calls, s'.HasAtoms c.formula := by
  induction calls with
  | nil =>
    intro s P hs
    exact Returns.pure ⟨hs.congr (by simp), Extends.refl s, by simp⟩
  | cons c calls ih =>
    intro s P hs
    obtain ⟨hc, hcalls⟩ := forall_mem_cons.1 hcalls
    rw [runCalls]
    refine (c.run_returns flitPolicy isInternalBoolVar hs hc).bind ?_
    rintro _ s₁ ⟨hs1, hext, hatoms⟩
    refine (ih hcalls hs1).mono ?_
    rintro _ s2 ⟨hs2, hext', hatoms'⟩
    refine ⟨hs2.congr fun v => ?_, hext.trans hext', ?_⟩
    · rw [forall_mem_cons, and_assoc]
    · exact forall_mem_cons.2 ⟨hatoms.mono hext', hatoms'⟩

/-- Every sequence of calls on a new stream returns.  All atoms have literals then, and the
assignments of atoms that satisfy what was asserted are the restrictions of those that satisfy the
clauses, in which every literal has the value of its node. -/
theorem runCalls_definitional (calls : List (CnfCall α))
    (hcalls : ∀ c ∈ calls, c.formula.NoDoubleNegation) :
    ∃ s, runCalls flitPolicy isInternalBoolVar calls CnfStream.init = some ((), s) ∧
      (∀ c ∈ calls, s.HasAtoms c.formula) ∧
      (∀ v, (∀ c ∈ calls, c.Holds v) ↔ ∃ σ, s.Models σ ∧ s.Agrees σ v) ∧
      ∀ σ, s.Models σ → ∀ v, s.Agrees σ v →
        ∀ n l, s.nodeToLiteral n = some l → l.value σ = n.eval v := by
  obtain ⟨⟨⟩, s, hrun, hs, -, hatoms⟩ :=
    runCalls_returns flitPolicy isInternalBoolVar calls hcalls encodes_init
  refine ⟨s, hrun, hatoms, ?_, fun σ hσ v hv => (hs.sound σ hσ v hv).1⟩
  intro v
  constructor
  · intro h
    exact hs.complete v ⟨trivial, h⟩
  · rintro ⟨σ, hσ, hv⟩
    exact (hs.sound σ hσ v hv).2.2

end Stream

/-- A formula that is asserted and a subformula of another call. -/
theorem runCalls_definitional_two : ∃ s, runCalls .internal (fun _ : Nat => true)
        [.convertAndAssert (.nary .or [.atom 0, .not (.atom 1)]) false false,
          .ensureLiteral (.ite (.nary .or [.atom 0, .not (.atom 1)]) (.atom 1) (.const true))]
        CnfStream.init = some ((), s) := by
  obtain ⟨s, hrun, _⟩ := runCalls_definitional .internal (fun _ : Nat => true)
    [.convertAndAssert (.nary .or [.atom 0, .not (.atom 1)]) false false,
      .ensureLiteral (.ite (.nary .or [.atom 0, .not (.atom 1)]) (.atom 1) (.const true))]
    (by simp [CnfCall.formula, CnfNode.NoDoubleNegation, CnfNode.NoDoubleNegations, CnfNode.IsNot])
  exact ⟨s, hrun⟩

end EthosCpc.Cvc5
